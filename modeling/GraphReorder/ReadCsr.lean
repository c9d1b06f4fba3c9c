import Mathlib.Data.Nat.Count
import Mathlib.Data.Finset.Card
import Mathlib.Data.Finset.Lattice.Fold
import Mathlib.Order.Lattice.Nat
import GraphReorder.EdgeList

/-! What `read_csr` makes of a file of complete records. -/
namespace GraphReorder
open Library

structure Record where
  src : Nat
  dst : Nat
  weight : Int
  deriving DecidableEq

/-- The values of a record fit the variables they are read into. -/
structure Record.Fits (r : Record) : Prop where
  src : r.src < 2 ^ 31
  dst : r.dst < 2 ^ 31
  low : -2 ^ 31 ≤ r.weight
  high : r.weight < 2 ^ 31

def Record.tokens (weighted : Bool) (r : Record) : List Token :=
  .int r.src :: .int r.dst :: if weighted then [.int r.weight] else []

def recordFile (weighted : Bool) (L : List Record) : List Token :=
  L.flatMap (Record.tokens weighted)

def ids (L : List Record) : Finset Nat := (L.map Record.src ++ L.map Record.dst).toFinset

theorem mem_ids {L : List Record} {v : Nat} : v ∈ ids L ↔ ∃ r ∈ L, r.src = v ∨ r.dst = v := by
  simp only [ids, List.mem_toFinset, List.mem_append, List.mem_map]
  constructor
  · intro h
    cases h with
    | inl h =>
      obtain ⟨r, hr, hv⟩ := h
      exact ⟨r, hr, .inl hv⟩
    | inr h =>
      obtain ⟨r, hr, hv⟩ := h
      exact ⟨r, hr, .inr hv⟩
  · intro h
    obtain ⟨r, hr, hv⟩ := h
    cases hv with
    | inl hv => exact .inl ⟨r, hr, hv⟩
    | inr hv => exact .inr ⟨r, hr, hv⟩

theorem mem_ids_concat (done : List Record) (e : Record) (v : Nat) :
    v ∈ ids (done ++ [e]) ↔ v ∈ ids done ∨ v = e.src ∨ v = e.dst := by
  simp only [mem_ids, List.mem_append, List.mem_singleton]
  constructor
  · intro h
    obtain ⟨r, hr, hv⟩ := h
    cases hr with
    | inl hr => exact .inl ⟨r, hr, hv⟩
    | inr hr =>
      subst hr
      exact .inr (hv.imp Eq.symm Eq.symm)
  · intro h
    cases h with
    | inl h =>
      obtain ⟨r, hr, hv⟩ := h
      exact ⟨r, .inl hr, hv⟩
    | inr h => exact ⟨e, .inr rfl, h.imp Eq.symm Eq.symm⟩

theorem src_mem_ids {L : List Record} {r : Record} (h : r ∈ L) : r.src ∈ ids L :=
  mem_ids.mpr ⟨r, h, .inl rfl⟩

theorem dst_mem_ids {L : List Record} {r : Record} (h : r ∈ L) : r.dst ∈ ids L :=
  mem_ids.mpr ⟨r, h, .inr rfl⟩

def largest (L : List Record) : Nat := (ids L).sup id

theorem largest_concat (L : List Record) (e : Record) :
    largest (L ++ [e]) = max (largest L) (max e.src e.dst) := by
  have hids : ids (L ++ [e]) = insert e.src (insert e.dst (ids L)) := by
    ext v
    rw [mem_ids_concat, Finset.mem_insert, Finset.mem_insert]
    tauto
  rw [largest, hids, Finset.sup_insert, Finset.sup_insert]
  change max e.src (max e.dst (largest L)) = _
  omega

theorem le_largest {L : List Record} {v : Nat} (hv : v ∈ ids L) : v ≤ largest L :=
  Finset.le_sup (f := id) hv

theorem lt_largest_succ {L : List Record} {r : Record} (hr : r ∈ L) :
    r.src < largest L + 1 ∧ r.dst < largest L + 1 :=
  ⟨Nat.lt_succ_of_le (le_largest (src_mem_ids hr)), Nat.lt_succ_of_le (le_largest (dst_mem_ids hr))⟩

theorem largest_lt {L : List Record} {N : Nat} (hpos : 0 < N) :
    largest L < N ↔ ∀ r ∈ L, r.src < N ∧ r.dst < N := by
  constructor
  · intro h r hr
    have := lt_largest_succ hr
    omega
  · intro h
    refine (Finset.sup_lt_iff hpos).mpr fun v hv => ?_
    obtain ⟨r, hr, hrv⟩ := mem_ids.mp hv
    have := h r hr
    change v < N
    omega

section Read
variable {weighted : Bool} {keep : Nat → Nat → Bool} {L : List Record}

def edgesOf (weighted : Bool) (L : List Record) : Edges where
  src := (L.map Record.src).toArray
  dst := (L.map Record.dst).toArray
  weights := if weighted then (L.map fun r => toWord r.weight).toArray else #[]

def kept (keep : Nat → Nat → Bool) (L : List Record) : List Record :=
  L.filter fun r => keep r.src r.dst

def proper (L : List Record) : List Record := kept (fun src dst => src != dst) L

theorem proper_concat (L : List Record) (e : Record) :
    proper (L ++ [e]) = if e.src != e.dst then proper L ++ [e] else proper L := by
  cases h : e.src != e.dst <;> simp [proper, kept, h]

theorem edgesOf_concat (weighted : Bool) (L : List Record) (r : Record) :
    edgesOf weighted (L ++ [r]) = ⟨(edgesOf weighted L).src.push r.src,
      (edgesOf weighted L).dst.push r.dst,
      if weighted then (edgesOf weighted L).weights.push (toWord r.weight)
      else (edgesOf weighted L).weights⟩ := by
  cases weighted <;> simp [edgesOf]

structure ReadSoFar (keep : Nat → Nat → Bool) (weighted : Bool) (done rest : List Record)
    (r : Reading) : Prop where
  fp : r.fp = recordFile weighted rest
  edges : r.edges = edgesOf weighted (kept keep done)
  numVertex : r.numVertex = largest done

theorem readRecord_next (keep : Nat → Nat → Bool) (weighted : Bool) {r : Reading} {e : Record}
    {fp : List Token} (he : e.src < 2 ^ 31 ∧ e.dst < 2 ^ 31)
    (hfp : r.fp = e.tokens weighted ++ fp) :
    readRecord keep weighted r = some (.inl {
      fp
      dstVal := e.dst
      w := if weighted then some (toWord e.weight) else r.w
      numVertex := max r.numVertex (max e.src e.dst)
      edges := if keep e.src e.dst then
        ⟨r.edges.src.push e.src, r.edges.dst.push e.dst,
          if weighted then r.edges.weights.push (toWord e.weight) else r.edges.weights⟩
      else r.edges }) := by
  obtain ⟨_, dstVal, w, numVertex, edges⟩ := r
  simp only at hfp
  subst hfp
  have h1 : toWord e.src = e.src := toWord_natCast (by omega)
  have h2 : toWord e.dst = e.dst := toWord_natCast (by omega)
  have hmax : (if (if numVertex < e.src then e.src else numVertex) < e.dst then e.dst
      else if numVertex < e.src then e.src else numVertex) =
      max numVertex (max e.src e.dst) := by
    split_ifs <;> omega
  cases hk : keep e.src e.dst <;> cases weighted <;>
    simp [readRecord, Record.tokens, fscanf, h1, h2, hk, hmax]

theorem readRecord_step {done rest : List Record} {e : Record} {r : Reading}
    (he : e.src < 2 ^ 31 ∧ e.dst < 2 ^ 31)
    (h : ReadSoFar keep weighted done (e :: rest) r) :
    ∃ r', readRecord keep weighted r = some (.inl r') ∧
      ReadSoFar keep weighted (done ++ [e]) rest r' := by
  refine ⟨_, readRecord_next keep weighted he h.fp, rfl, ?_, ?_⟩
  · cases hk : keep e.src e.dst with
    | true =>
      have hkept : kept keep (done ++ [e]) = kept keep done ++ [e] := by simp [kept, hk]
      rw [hkept, edgesOf_concat, h.edges]
      rfl
    | false =>
      have hkept : kept keep (done ++ [e]) = kept keep done := by simp [kept, hk]
      rw [hkept]
      exact h.edges
  · rw [largest_concat, ← h.numVertex]

theorem span_recordFile (weighted : Bool) (L : List Record) :
    ((recordFile weighted L).map Token.span).sum = (recordFile weighted L).length := by
  induction L with
  | nil => rfl
  | cons e L ih =>
    have htokens : ((e.tokens weighted).map Token.span).sum = (e.tokens weighted).length := by
      cases weighted <;> rfl
    have hcons : recordFile weighted (e :: L) = e.tokens weighted ++ recordFile weighted L := rfl
    rw [hcons, List.map_append, List.sum_append, List.length_append, htokens, ih]

theorem readRecords_eq (keep : Nat → Nat → Bool) (weighted : Bool)
    (hL : ∀ r ∈ L, r.src < 2 ^ 31 ∧ r.dst < 2 ^ 31) :
    readRecords keep weighted (recordFile weighted L) =
      (intSucc (largest L)).map fun numVertex => (edgesOf weighted (kept keep L), numVertex) := by
  obtain ⟨r, hr, h⟩ := loop_rule
    (fun r => ∃ done rest, L = done ++ rest ∧ ReadSoFar keep weighted done rest r)
    (fun r => ReadSoFar keep weighted L [] r) (fun r => r.fp.length)
    (fun r hI => by
      obtain ⟨done, rest, hLr, h⟩ := hI
      cases rest with
      | nil =>
        rw [List.append_nil] at hLr
        subst hLr
        have hstop : readRecord keep weighted r = some (.inr r) := by
          rw [readRecord, h.fp]
          rfl
        exact .inr ⟨r, hstop, h⟩
      | cons e rest =>
        obtain ⟨r', hr', h'⟩ := readRecord_step (hL e (by simp [hLr])) h
        refine .inl ⟨r', hr', ⟨done ++ [e], rest, by simp [hLr], h'⟩, ?_⟩
        have hlen : (recordFile weighted (e :: rest)).length =
            (e.tokens weighted).length + (recordFile weighted rest).length := by simp [recordFile]
        have htok : 0 < (e.tokens weighted).length := Nat.succ_pos _
        rw [h.fp, h'.fp]
        omega)
    (⟨[], L, rfl, rfl, by cases weighted <;> rfl, rfl⟩ : ∃ done rest, L = done ++ rest ∧
      ReadSoFar keep weighted done rest { fp := recordFile weighted L })
    (Nat.lt_succ_self _)
  have hlargest : largest L < 2 ^ 31 := (largest_lt (by decide)).mpr hL
  rw [readRecords, span_recordFile, hr, some_bind, h.edges, h.numVertex, ofWord_of_lt hlargest]
  cases intSucc (largest L) <;> rfl

theorem readRecords_spec (keep : Nat → Nat → Bool) (weighted : Bool)
    (hL : ∀ r ∈ L, r.src < 2 ^ 31 - 1 ∧ r.dst < 2 ^ 31 - 1) :
    readRecords keep weighted (recordFile weighted L) =
      some (edgesOf weighted (kept keep L), ((largest L + 1 : Nat) : Int)) := by
  have hlargest : largest L < 2 ^ 31 - 1 := (largest_lt (by decide)).mpr hL
  rw [readRecords_eq keep weighted fun r hr => ?_, intSucc, if_pos (by omega)]
  · rfl
  · have := hL r hr
    omega

/-- An id that is too large to be counted is undefined behaviour. -/
theorem ids_lt_of_readRecords {keep : Nat → Nat → Bool} {out : Edges × Int}
    (hL : ∀ r ∈ L, r.src < 2 ^ 31 ∧ r.dst < 2 ^ 31)
    (h : readRecords keep weighted (recordFile weighted L) = some out) :
    ∀ r ∈ L, r.src < 2 ^ 31 - 1 ∧ r.dst < 2 ^ 31 - 1 := by
  rw [readRecords_eq keep weighted hL] at h
  obtain ⟨numVertex, hsucc, _⟩ := Option.map_eq_some_iff.mp h
  refine (largest_lt (by decide)).mp ?_
  by_contra hge
  rw [intSucc, if_neg (by omega)] at hsucc
  cases hsucc

theorem edgesOf_src (weighted : Bool) (done rest : List Record) (e : Record) :
    (edgesOf weighted (done ++ e :: rest)).src[done.length]? = some e.src := by
  simp [edgesOf]

theorem edgesOf_dst (weighted : Bool) (done rest : List Record) (e : Record) :
    (edgesOf weighted (done ++ e :: rest)).dst[done.length]? = some e.dst := by
  simp [edgesOf]

theorem edgesOf_weights (done rest : List Record) (e : Record) :
    (edgesOf true (done ++ e :: rest)).weights[done.length]? = some (toWord e.weight) := by
  simp [edgesOf]

theorem markExisting_spec (weighted : Bool) {N : Nat} (hN : ∀ r ∈ L, r.src < N ∧ r.dst < N) :
    ∃ marks, markExisting (edgesOf weighted L) N L.length = some marks ∧ marks.size = N ∧
      ∀ v < N, marks[v]! = decide (v ∈ ids L) := by
  refine forRange_list L (fun done (marks : Array Bool) => marks.size = N ∧
    ∀ v < N, marks[v]! = decide (v ∈ ids done)) ⟨by simp, fun v hv => ?_⟩ ?_
  · simp [hv, ids]
  · intro done e rest marks hes ⟨hs, hm⟩
    have he := hN e (by simp [hes])
    have h1 : e.src < marks.size := by omega
    have h2 : e.dst < (marks.setIfInBounds e.src true).size := by
      rw [Array.size_setIfInBounds]
      omega
    refine ⟨(marks.setIfInBounds e.src true).setIfInBounds e.dst true, ?_, by simpa using hs, ?_⟩
    · rw [hes]
      simp only [edgesOf_src, edgesOf_dst, store_eq h1, store_eq h2, Option.bind_eq_bind,
        Option.bind_some]
    · intro v hv
      rw [put_get h2, put_get h1, hm v hv]
      simp only [mem_ids_concat]
      by_cases hd : v = e.dst
      · simp [hd]
      · by_cases hs' : v = e.src <;> simp [hd, hs']

theorem numberVertices_spec {p : Nat → Prop} [DecidablePred p] {N : Nat} {marks : Array Bool}
    (hs : marks.size = N) (hm : ∀ v < N, marks[v]! = decide (p v)) (table : Table Nat Nat) :
    ∃ s, numberVertices marks N table = some s ∧ s.actualVertices = Nat.count p N ∧
      s.vertexMap.size = N ∧ (∀ v < N, p v → s.vertexMap[v]! = Nat.count p v) ∧
      (∀ v < N, p v → s.filtered_to_original.find? (Nat.count p v) = some v) ∧
      ∀ k, Nat.count p N ≤ k → s.filtered_to_original.find? k = table.find? k := by
  refine forRange_rule (fun i (s : Numbering) => s.actualVertices = Nat.count p i ∧
    s.vertexMap.size = N ∧ (∀ v < i, p v → s.vertexMap[v]! = Nat.count p v) ∧
    (∀ v < i, p v → s.filtered_to_original.find? (Nat.count p v) = some v) ∧
    ∀ k, Nat.count p i ≤ k → s.filtered_to_original.find? k = table.find? k) (Nat.zero_le N)
    ⟨by simp, by simp, by simp, by simp, fun _ _ => rfl⟩ ?_
  intro i s _ hi hI
  obtain ⟨ha, hv, hmap, htab, hrest⟩ := hI
  have hi' : i < marks.size := by omega
  simp only [read_eq hi', hm i hi, Option.bind_eq_bind, Option.bind_some, decide_eq_true_eq]
  by_cases hp : p i
  · have hi'' : i < s.vertexMap.size := by omega
    refine ⟨⟨s.vertexMap.setIfInBounds i s.actualVertices, s.actualVertices + 1,
      s.filtered_to_original.assign s.actualVertices i⟩, by simp [hp, store_eq hi''], ?_, by
      simpa using hv, ?_, ?_, fun k hk => ?_⟩
    · rw [Nat.count_succ, if_pos hp, ha]
    · intro v hvi hpv
      rw [put_get hi'']
      split_ifs with hvi'
      · rw [hvi', ha]
      · exact hmap v (by omega) hpv
    · intro v hvi hpv
      rw [Table.find?_assign, ha]
      by_cases hvi' : v = i
      · simp [hvi']
      · rw [if_neg fun he => hvi' (Nat.count_injective hpv hp he)]
        exact htab v (by omega) hpv
    · rw [Nat.count_succ, if_pos hp] at hk
      rw [Table.find?_assign, ha, if_neg (by omega)]
      exact hrest k (by omega)
  · refine ⟨s, by simp [hp], ?_, hv, ?_, ?_, fun k hk => ?_⟩
    · rw [Nat.count_succ, if_neg hp, ha, Nat.add_zero]
    · intro v hvi hpv
      exact hmap v (Nat.lt_of_le_of_ne (Nat.le_of_lt_succ hvi) fun he => hp (he ▸ hpv)) hpv
    · intro v hvi hpv
      exact htab v (Nat.lt_of_le_of_ne (Nat.le_of_lt_succ hvi) fun he => hp (he ▸ hpv)) hpv
    · rw [Nat.count_succ, if_neg hp] at hk
      exact hrest k hk

def Record.rename (f : Nat → Nat) (r : Record) : Record := { r with src := f r.src, dst := f r.dst }

def weightTable (weighted : Bool) (L : List Record) (table : Table Key Nat) : Table Key Nat :=
  if weighted then
    L.foldl (fun t r => t.assign (getMapKey r.src r.dst) (toWord r.weight)) table
  else table

theorem set_src (weighted : Bool) (done rest : List Record) (e : Record) (x : Nat) :
    (edgesOf weighted (done ++ e :: rest)).src.setIfInBounds done.length x =
      (edgesOf weighted (done ++ { e with src := x } :: rest)).src := by
  simp [edgesOf]

theorem set_dst (weighted : Bool) (done rest : List Record) (e : Record) (x : Nat) :
    (edgesOf weighted (done ++ e :: rest)).dst.setIfInBounds done.length x =
      (edgesOf weighted (done ++ { e with dst := x } :: rest)).dst := by
  simp [edgesOf]

theorem weightTable_concat (weighted : Bool) (L : List Record) (r : Record)
    (table : Table Key Nat) : weightTable weighted (L ++ [r]) table =
      if weighted then
        (weightTable weighted L table).assign (getMapKey r.src r.dst) (toWord r.weight)
      else weightTable weighted L table := by
  cases weighted <;> simp [weightTable]

def renumbered (weighted : Bool) (f : Nat → Nat) (table : Table Key Nat) (L done : List Record) :
    Edges × Table Key Nat :=
  (edgesOf weighted (done.map (Record.rename f) ++ L.drop done.length),
    weightTable weighted (done.map (Record.rename f)) table)

theorem renumber_step {vertexMap : Array Nat} {f : Nat → Nat}
    (hf : ∀ v ∈ ids L, vertexMap[v]? = some (f v)) {table : Table Key Nat}
    {done rest : List Record} {e : Record} (hes : L = done ++ e :: rest) :
    renumberEdge weighted vertexMap done.length (renumbered weighted f table L done) =
      some (renumbered weighted f table L (done ++ [e])) := by
  have hlen : done.length = (done.map (Record.rename f)).length := by simp
  have h1 := hf e.src (src_mem_ids (by simp [hes]))
  have h2 := hf e.dst (dst_mem_ids (by simp [hes]))
  have hdrop : L.drop done.length = e :: rest := by simp [hes]
  have hdrop' : L.drop (done ++ [e]).length = rest := by simp [hes]
  simp only [renumbered, hdrop, hdrop', List.map_append, List.map_cons, List.map_nil,
    weightTable_concat, List.append_assoc, List.singleton_append]
  generalize done.map (Record.rename f) = A at hlen
  have hsize (x : List Record) : A.length < (edgesOf weighted (A ++ e :: x)).src.size ∧
      A.length < (edgesOf weighted (A ++ e :: x)).dst.size := by simp [edgesOf]
  have hs := edgesOf_src weighted A rest e
  have hd := edgesOf_dst weighted A rest e
  rw [hlen]
  simp only [renumberEdge, hs, hd, h1, h2, store_eq (hsize rest).1, store_eq (hsize rest).2, set_src,
    set_dst, Option.bind_eq_bind, Option.bind_some]
  cases weighted with
  | true =>
    simp only [if_true, edgesOf_src, edgesOf_dst, edgesOf_weights, Option.bind_some]
    simp [edgesOf, Record.rename]
  | false => simp [edgesOf, Record.rename]

theorem renumber_spec {vertexMap : Array Nat} {f : Nat → Nat}
    (hf : ∀ v ∈ ids L, vertexMap[v]? = some (f v)) (table : Table Key Nat) :
    renumber weighted vertexMap L.length (edgesOf weighted L) table =
      some (edgesOf weighted (L.map (Record.rename f)),
        weightTable weighted (L.map (Record.rename f)) table) := by
  have hstart : renumbered weighted f table L [] = (edgesOf weighted L, table) := by
    cases weighted <;> rfl
  obtain ⟨st, hrun, hst⟩ := forRange_list L (fun done st => st = renumbered weighted f table L done)
    hstart.symm fun done e rest st hes hst => ⟨_, hst ▸ renumber_step hf hes, rfl⟩
  have hend : renumbered weighted f table L L = (edgesOf weighted (L.map (Record.rename f)),
      weightTable weighted (L.map (Record.rename f)) table) := by simp [renumbered]
  rw [hst, hend] at hrun
  exact hrun

/-- The new number of a vertex: how many smaller ids occur. -/
def rank (L : List Record) (v : Nat) : Nat := Nat.count (· ∈ ids L) v

theorem count_ids {N : Nat} (hN : ∀ r ∈ L, r.src < N ∧ r.dst < N) :
    Nat.count (· ∈ ids L) N = (ids L).card := by
  rw [Nat.count_eq_card_filter_range]
  congr 1
  ext v
  simp only [Finset.mem_filter, Finset.mem_range, and_iff_right_iff_imp]
  intro hv
  obtain ⟨r, hr, h⟩ := mem_ids.mp hv
  have := hN r hr
  omega

theorem rank_lt {v : Nat} (hv : v ∈ ids L) : rank L v < (ids L).card := by
  have hsub : (Finset.range v).filter (· ∈ ids L) ⊂ ids L :=
    ⟨fun x hx => (Finset.mem_filter.mp hx).2, fun h => by
      have hmem := h hv
      simp at hmem⟩
  rw [rank, Nat.count_eq_card_filter_range]
  exact Finset.card_lt_card hsub

theorem ids_card_le (hL : ∀ r ∈ L, r.src < 2 ^ 31 ∧ r.dst < 2 ^ 31) : (ids L).card ≤ 2 ^ 31 := by
  have hsub : ids L ⊆ Finset.range (2 ^ 31) := by
    intro v hv
    obtain ⟨r, hr, h⟩ := mem_ids.mp hv
    have hr' := hL r hr
    rw [Finset.mem_range]
    omega
  exact (Finset.card_le_card hsub).trans_eq (Finset.card_range _)

theorem filter_spec (weighted : Bool) {N : Nat} (hN : ∀ r ∈ L, r.src < N ∧ r.dst < N) (G : Graph) :
    ∃ G', filter weighted (edgesOf weighted L) G N L.length =
        some (edgesOf weighted (L.map (Record.rename (rank L))), G') ∧
      G' = { G with
        numVertex := (ids L).card
        weights := weightTable weighted (L.map (Record.rename (rank L))) G.weights
        filtered_to_original := G'.filtered_to_original } ∧
      (∀ v ∈ ids L, G'.filtered_to_original.find? (rank L v) = some v) ∧
      ∀ k, (ids L).card ≤ k →
        G'.filtered_to_original.find? k = G.filtered_to_original.find? k := by
  obtain ⟨marks, hmarks, hs, hm⟩ := markExisting_spec weighted hN
  obtain ⟨s, hnum, ha, hsize, hmap, htab, hrest⟩ := numberVertices_spec hs hm G.filtered_to_original
  have hlt (v : Nat) (hv : v ∈ ids L) : v < N := by
    obtain ⟨r, hr, h⟩ := mem_ids.mp hv
    have := hN r hr
    omega
  have hf (v : Nat) (hv : v ∈ ids L) : s.vertexMap[v]? = some (rank L v) := by
    rw [read_eq (by have := hlt v hv; omega), hmap v (hlt v hv) hv]
    rfl
  refine ⟨{ G with
    numVertex := s.actualVertices
    filtered_to_original := s.filtered_to_original
    weights := weightTable weighted (L.map (Record.rename (rank L))) G.weights }, ?_, ?_,
    fun v hv => htab v (hlt v hv) hv, fun k hk => hrest k (by rw [count_ids hN]; exact hk)⟩
  · simp only [filter, hmarks, hnum, renumber_spec hf, Option.bind_eq_bind, Option.bind_some]
  · rw [ha, count_ids hN]

def Record.pair (indegree : Bool) (r : Record) : Nat × Nat :=
  if indegree then (r.dst, r.src) else (r.src, r.dst)

end Read

section Convert
variable {weighted indegree : Bool} {L : List Record} {G : Graph}

structure Converted (es : List (Nat × Nat)) (G G' : Graph) : Prop where
  numVertex : G'.numVertex = G.numVertex
  numEdges : G'.numEdges = G.numEdges
  weights : G'.weights = G.weights
  filtered_to_original : G'.filtered_to_original = G.filtered_to_original
  size : G'.VI.size = G.numVertex + 1
  sizeEI : G'.EI.size = G.numEdges
  last : G'.VI[G.numVertex]! = G.numEdges
  csr : G'.Csr G.numVertex
  rows : ∀ v < G.numVertex, G'.row v = group es v

theorem csrConvert_spec (weighted indegree : Bool) (hpos : 1 ≤ G.numVertex)
    (hword : G.numVertex < 2 ^ 32) (hm : G.numEdges = L.length) (hm' : L.length < 2 ^ 32)
    (hL : ∀ r ∈ L, r.src < G.numVertex ∧ r.dst < G.numVertex) :
    ∃ G', csrConvert indegree (edgesOf weighted L) G = some G' ∧
      Converted (L.map (Record.pair indegree)) G G' := by
  generalize hes : L.map (Record.pair indegree) = es
  have hkey : (if indegree then (edgesOf weighted L).dst else (edgesOf weighted L).src) =
      (es.map Prod.fst).toArray := by
    subst hes
    cases indegree <;> simp [edgesOf, Record.pair]
  have hvalue : (if indegree then (edgesOf weighted L).src else (edgesOf weighted L).dst) =
      (es.map Prod.snd).toArray := by
    subst hes
    cases indegree <;> simp [edgesOf, Record.pair]
  have hlen : es.length = G.numEdges := by rw [hm, ← hes, List.length_map]
  have hpairs (e : Nat × Nat) (he : e ∈ es) : e.1 < G.numVertex ∧ e.2 < G.numVertex := by
    subst hes
    obtain ⟨r, hr, rfl⟩ := List.mem_map.mp he
    have := hL r hr
    cases indegree <;> simp [Record.pair, this]
  have hkeys (e : Nat × Nat) (he : e ∈ es) : e.1 < G.numVertex := (hpairs e he).1
  obtain ⟨deg, hdeg, htally⟩ := tally_run hkeys
  obtain ⟨VI, hVI, hsize, hoff⟩ := offsets_sum htally
  obtain ⟨zero, hzero, hzs, hz⟩ := clear_run htally.1
  have ho : Offsets G.numVertex VI es :=
    ⟨by omega, fun k hk => hoff k (by omega)⟩
  have hcells : (Array.replicate es.length 0).size = es.length := Array.size_replicate
  obtain ⟨⟨EI, fill⟩, hEI, hs⟩ := scatter_run ho hkeys hcells hzs.ge hz
  refine ⟨{ G with VI, EI }, ?_, rfl, rfl, rfl, rfl, hsize, hs.size.trans hlen, ?_, ?_,
    fun v hv => ?_⟩
  · simp only [Option.bind_eq_bind] at hdeg hVI hzero hEI
    simp only [csrConvert, hkey, hvalue, ← hlen, hdeg, hVI, hzero, hEI, Option.bind_eq_bind,
      Option.bind_some]
  · rw [hoff _ (by omega), below_all hkeys, hlen]
  · rw [hlen] at hs
    exact Graph.csr_of_scattered hpos ho hlen hkeys (fun e he => (hpairs e he).2) hs hword
      (by rw [hm]; exact hm')
  · rw [hlen] at hs
    exact @Graph.row_of_scattered { G with VI, EI } es fill ho hlen hkeys hs v hv

def compact (L : List Record) : List Record := L.map (Record.rename (rank L))

theorem compact_lt {r : Record} (hr : r ∈ compact L) :
    r.src < (ids L).card ∧ r.dst < (ids L).card := by
  obtain ⟨e, he, rfl⟩ := List.mem_map.mp hr
  exact ⟨rank_lt (src_mem_ids he), rank_lt (dst_mem_ids he)⟩

/-- The graph that a list of records stands for. -/
structure Represents (flags : Flags) (L : List Record) (G : Graph) : Prop where
  numVertex : G.numVertex = (ids L).card
  numEdges : G.numEdges = L.length
  size : G.VI.size = G.numVertex + 1
  last : G.VI[G.numVertex]! = G.numEdges
  csr : G.Csr G.numVertex
  rows : ∀ v < G.numVertex, G.row v = group ((compact L).map (Record.pair flags.indegree)) v
  weights : G.weights = weightTable flags.weighted (compact L) Table.empty
  original : ∀ v ∈ ids L, G.filtered_to_original.find? (rank L v) = some v

theorem convert_spec (flags : Flags) {N : Nat} (hN : ∀ r ∈ L, r.src < N ∧ r.dst < N)
    (hpos : 0 < (ids L).card) (hword : (ids L).card < 2 ^ 32) (hm : L.length < 2 ^ 32) :
    ∃ E G G', filter flags.weighted (edgesOf flags.weighted L)
        { Graph.unread with numEdges := L.length } N L.length = some (E, G) ∧
      csrConvert flags.indegree E G = some G' ∧ Represents flags L G' := by
  obtain ⟨G, hfilter, hG, horig, _⟩ := filter_spec flags.weighted hN
    { Graph.unread with numEdges := L.length }
  have hn : G.numVertex = (ids L).card := by rw [hG]
  have he : G.numEdges = L.length := by rw [hG]
  have hw : G.weights = weightTable flags.weighted (compact L) Table.empty := by
    rw [hG]
    rfl
  have hpairs (r : Record) (hr : r ∈ compact L) : r.src < G.numVertex ∧ r.dst < G.numVertex := by
    rw [hn]
    exact compact_lt hr
  have hlen : (compact L).length = L.length := List.length_map ..
  obtain ⟨G', hconv, hc⟩ := csrConvert_spec flags.weighted flags.indegree (by omega) (by omega)
    (by omega) (by omega) hpairs
  refine ⟨_, G, G', hfilter, hconv, ?_, ?_, ?_, ?_, ?_, fun v hv => ?_, ?_, ?_⟩
  · rw [hc.numVertex, hn]
  · rw [hc.numEdges, he]
  · rw [hc.size, hc.numVertex]
  · rw [hc.numVertex, hc.last, hc.numEdges]
  · rw [hc.numVertex]
    exact hc.csr
  · exact hc.rows v (by rw [← hc.numVertex]; exact hv)
  · rw [hc.weights, hw]
  · rw [hc.filtered_to_original]
    exact horig

theorem readCsr_eq {flags : Flags} {E : Edges} {G' : Graph}
    (hL : ∀ r ∈ L, r.src < 2 ^ 31 - 1 ∧ r.dst < 2 ^ 31 - 1)
    (hfilter : filter flags.weighted (edgesOf flags.weighted L)
      { Graph.unread with numEdges := L.length } (largest L + 1) L.length = some (E, G))
    (hconv : csrConvert flags.indegree E G = some G') :
    readCsr flags (recordFile flags.weighted L) Graph.unread = some G' := by
  have hkept : kept (fun _ _ => true) L = L := by simp [kept]
  have hread := readRecords_spec (fun _ _ => true) flags.weighted hL
  rw [hkept] at hread
  have hsize : (edgesOf flags.weighted L).src.size = L.length := by simp [edgesOf]
  have hnonneg : ¬ ((largest L + 1 : Nat) : Int) < 0 := by omega
  simp only [readCsr, readEdgeList, hread, some_bind, if_neg hnonneg, hsize, Int.toNat_natCast, hfilter,
    hconv]

theorem readCsr_spec (flags : Flags) (hL : ∀ r ∈ L, r.src < 2 ^ 31 - 1 ∧ r.dst < 2 ^ 31 - 1)
    (hpos : 0 < (ids L).card)
    (hword : (ids L).card < 2 ^ 32) (hm : L.length < 2 ^ 32) :
    ∃ G, readCsr flags (recordFile flags.weighted L) Graph.unread = some G ∧
      Represents flags L G := by
  obtain ⟨E, G, G', hfilter, hconv, hr⟩ :=
    convert_spec flags (fun r hr => lt_largest_succ hr) hpos hword hm
  exact ⟨G', readCsr_eq hL hfilter hconv, hr⟩

end Convert

end GraphReorder
