import GraphReorder.Gorder.Text

/-! `writeGraph` and `PrintReOrderedGraph`, and what `readGraph` makes of the edges they write. -/
namespace GraphReorder.Gorder
open Library

namespace Graph

def writeGraph (g : Graph) : Option (List Char) :=
  forRange 0 g.vsize (fun u out => do
    let vertex ← g.graph[u]?
    forRange vertex.outstart (vertex.outdegree + vertex.outstart) (fun j out => do
      pure (out ++ printEdge u (← g.outedge[j]?))) out) []

/-- One round of the first loop of `PrintReOrderedGraph`: the row of `i`, under the new numbers. -/
def reorderStep (std : StdSort) (g : Graph) (order : Array Nat) (i : Nat)
    (ReOrderedGraph : Array (List Nat)) : Option (Array (List Nat)) := do
  let u ← order[i]?
  let vertex ← g.graph[i]?
  let row ← forRange vertex.outstart (vertex.outstart + vertex.outdegree) (fun j row => do
    pure (row ++ [← order[← g.outedge[j]?]?])) (← ReOrderedGraph[u]?)
  store ReOrderedGraph u (std.sort (fun a b => decide (a < b)) row)

def printReOrderedGraph (std : StdSort) (g : Graph) (order : Array Nat) : Option (List Char) := do
  let ReOrderedGraph ← forRange 0 g.vsize (g.reorderStep std order)
    (Array.replicate g.vsize [])
  forRange 0 g.vsize (fun u out => do
    pure ((← ReOrderedGraph[u]?).foldl (fun out v => out ++ printEdge u v) out)) []

end Graph

def pairLess (a b : Nat × Nat) : Bool := decide (a.1 < b.1 ∨ (a.1 = b.1 ∧ a.2 < b.2))

/-- `edges.insert(e)`, for a `set` as the list of its elements in their order. -/
def insertPair (e : Nat × Nat) : List (Nat × Nat) → List (Nat × Nat)
  | [] => [e]
  | x :: edges =>
    if pairLess e x then e :: x :: edges
    else if pairLess x e then x :: insertPair e edges
    else x :: edges

/-- `RemoveDuplicate`: the loop of `readGraph`, but the edges go into a set. -/
def removeDuplicate (fp line : List Char) : Option (List Char) := do
  let s ← readEdges fp line
  pure ((s.edges.foldl (fun edges e => insertPair e edges) []).foldl
    (fun out e => out ++ printEdge e.1 e.2) [])

section Rows
variable {n : Nat} {row : Nat → List Nat} {g : Graph} {order : Array Nat}

def edgesOf (n : Nat) (row : Nat → List Nat) : List (Nat × Nat) :=
  (List.range n).flatMap fun u => (row u).map fun v => (u, v)

theorem mem_edgesOf {u v : Nat} : (u, v) ∈ edgesOf n row ↔ u < n ∧ v ∈ row u := by
  simp only [edgesOf, List.mem_flatMap, List.mem_range, List.mem_map, Prod.mk.injEq]
  constructor
  · rintro ⟨u', hu', v', hv', rfl, rfl⟩
    exact ⟨hu', hv'⟩
  · rintro ⟨hu, hv⟩
    exact ⟨u, hu, v, hv, rfl, rfl⟩

theorem sorted_edgesOf (h : ∀ u < n, (row u).Pairwise (· < ·)) : Sorted (edgesOf n row) := by
  refine List.pairwise_flatMap.mpr ⟨fun u hu => ?_, ?_⟩
  · refine List.pairwise_map.mpr ((h u (List.mem_range.mp hu)).imp fun hab => ?_)
    exact .inr ⟨rfl, hab⟩
  · refine List.pairwise_lt_range.imp fun {u u'} huu e he e' he' => ?_
    obtain ⟨v, _, rfl⟩ := List.mem_map.mp he
    obtain ⟨v', _, rfl⟩ := List.mem_map.mp he'
    exact .inl huu

theorem Sorted.nodup {es : List (Nat × Nat)} (h : Sorted es) : es.Nodup :=
  h.imp fun {a b} hab he => by
    subst he
    omega

theorem write_rows (n : Nat) (row : Nat → List Nat) (out : List Char) :
    forRange 0 n (fun u out => (row u).foldlM (fun out v => some (out ++ printEdge u v)) out) out =
      some (out ++ printed (edgesOf n row)) := by
  rw [forRange_zero, printed, edgesOf, List.flatMap_assoc]
  simp only [foldlM_append_some, List.flatMap_map]

theorem writeGraph_spec (hg : g.Outgoing) :
    g.writeGraph = some (printed (edgesOf g.vsize g.outs)) := by
  rw [← List.nil_append (printed _), ← write_rows, Graph.writeGraph, forRange_zero, forRange_zero]
  refine foldlM_congr_mem (fun u hu out => ?_) _
  have hun := List.mem_range.mp hu
  rw [hg.read_vertex hun.le, some_bind, Nat.add_comm, ← hg.out.next u hun]
  exact forRange_slice (hg.out.mono (Nat.le_succ u) hun) (hg.out.le_size hun)
    (fun v out => some (out ++ printEdge u v)) out

theorem reorderStep_spec (std : StdSort) (hg : g.Outgoing) {i : Nat} (hi : i < g.vsize)
    (ho : order.size = g.vsize) (hto : Set.MapsTo (order[·]!) (Set.Iio g.vsize) (Set.Iio g.vsize))
    {R : Array (List Nat)} (hR : R.size = g.vsize) (hnew : R[order[i]!]! = []) :
    g.reorderStep std order i R = some (R.setIfInBounds order[i]!
      (std.sort (fun a b => decide (a < b)) ((g.outs i).map (order[·]!)))) := by
  have hlt : order[i]! < R.size := hR ▸ hto hi
  have hrow : forRange g.graph[i]!.outstart (g.graph[i]!.outstart + g.graph[i]!.outdegree)
      (fun j row => do pure (row ++ [← order[← g.outedge[j]?]?])) [] =
      some ((g.outs i).map (order[·]!)) := by
    rw [List.map_eq_flatMap, ← List.nil_append (List.flatMap _ _), ← foldlM_append_some,
      ← hg.out.next i hi]
    refine (forRange_slice (hg.out.mono (Nat.le_succ i) hi) (hg.out.le_size hi)
      (fun w row => do pure (row ++ [← order[w]?])) []).trans ?_
    refine foldlM_congr_mem (fun w hw row => ?_) _
    rw [read_eq (ho.symm ▸ hg.outs_lt hi hw)]
    rfl
  rw [Graph.reorderStep, read_eq (ho.symm ▸ hi), some_bind, hg.read_vertex hi.le, some_bind,
    read_eq hlt, some_bind, hnew, hrow, some_bind, store_eq hlt]

theorem printReOrderedGraph_spec (std : StdSort) (hg : g.Outgoing) (ho : order.size = g.vsize)
    (hbij : Set.BijOn (order[·]!) (Set.Iio g.vsize) (Set.Iio g.vsize)) :
    ∃ es, g.printReOrderedGraph std order = some (printed es) ∧ Sorted es ∧
      es.Perm ((edgesOf g.vsize g.outs).map fun e => (order[e.1]!, order[e.2]!)) := by
  let made (i : Nat) : List Nat :=
    std.sort (fun a b => decide (a < b)) ((g.outs i).map (order[·]!))
  have hinj {u v : Nat} (hu : u < g.vsize) (hv : v < g.vsize) (he : order[u]! = order[v]!) :
      u = v := hbij.injOn hu hv he
  let Made (i : Nat) (R : Array (List Nat)) : Prop :=
    R.size = g.vsize ∧ (∀ u < i, R[order[u]!]! = made u) ∧
      ∀ u < g.vsize, i ≤ u → R[order[u]!]! = []
  have hstart : Made 0 (Array.replicate g.vsize []) :=
    ⟨by simp, fun u hu => absurd hu (Nat.not_lt_zero u),
      fun u hu _ => replicate_get _ _ _ (hbij.mapsTo hu)⟩
  obtain ⟨R, hloop, hsize, hdone, _⟩ : ∃ R, forRange 0 g.vsize (g.reorderStep std order)
      (Array.replicate g.vsize []) = some R ∧ Made g.vsize R :=
    forRange_rule Made (Nat.zero_le g.vsize) hstart fun i R _ hi hI => by
      obtain ⟨hR, hdone, hnew⟩ := hI
      have hlt : order[i]! < R.size := hR ▸ hbij.mapsTo hi
      refine ⟨_, reorderStep_spec std hg hi ho hbij.mapsTo hR (hnew i hi le_rfl), by simpa using hR,
        fun u hu => ?_, fun u hu hiu => ?_⟩
      · rw [put_get hlt]
        by_cases hui : u = i
        · rw [hui, if_pos rfl]
        · rw [if_neg fun he => hui (hinj (by omega) hi he)]
          exact hdone u (by omega)
      · rw [put_get_ne fun he => absurd (hinj hu hi he) (by omega)]
        exact hnew u hu (by omega)
  have hmade (u : Nat) (hu : u < g.vsize) :
      (made u).Perm ((g.outs u).map (order[·]!)) ∧ (made u).Pairwise (· < ·) := by
    obtain ⟨hp, hs⟩ := std.rising id ((g.outs u).map (order[·]!))
    have hd : (made u).Nodup := hp.nodup_iff.mpr <| List.Nodup.map_on
      (fun v hv w hw he => hinj (hg.outs_lt hu hv) (hg.outs_lt hu hw) he) (hg.outs_nodup hu)
    exact ⟨hp, (hs.and hd).imp fun h => lt_of_le_of_ne h.1 h.2⟩
  have hsorted : Sorted (edgesOf g.vsize (R[·]!)) := sorted_edgesOf fun u hu => by
    obtain ⟨i, hi, rfl⟩ := hbij.surjOn hu
    simp only [hdone i hi]
    exact (hmade i hi).2
  refine ⟨edgesOf g.vsize (R[·]!), ?_, hsorted, ?_⟩
  · rw [Graph.printReOrderedGraph, hloop, some_bind, ← List.nil_append (printed _), ← write_rows,
      forRange_zero, forRange_zero]
    refine foldlM_congr_mem (fun u hu out => ?_) _
    rw [read_eq (hsize.symm ▸ List.mem_range.mp hu), some_bind]
    simp only [foldlM_append_some, List.foldl_append_eq_append]
    rfl
  · have hd : ((edgesOf g.vsize g.outs).map fun e => (order[e.1]!, order[e.2]!)).Nodup := by
      refine List.Nodup.map_on (fun e he e' he' hee => ?_) (sorted_edgesOf hg.rising).nodup
      obtain ⟨hu, hv⟩ := mem_edgesOf.mp (show (e.1, e.2) ∈ _ from he)
      obtain ⟨hu', hv'⟩ := mem_edgesOf.mp (show (e'.1, e'.2) ∈ _ from he')
      obtain ⟨h₁, h₂⟩ := Prod.mk.inj hee
      exact Prod.ext (hinj hu hu' h₁) (hinj (hg.outs_lt hu hv) (hg.outs_lt hu' hv') h₂)
    refine (List.perm_ext_iff_of_nodup hsorted.nodup hd).mpr fun e => ?_
    obtain ⟨u, v⟩ := e
    rw [mem_edgesOf, List.mem_map]
    constructor
    · rintro ⟨hu, hv⟩
      obtain ⟨i, hi, rfl⟩ := hbij.surjOn hu
      simp only [hdone i hi] at hv
      obtain ⟨w, hw, rfl⟩ := List.mem_map.mp ((hmade i hi).1.mem_iff.mp hv)
      exact ⟨(i, w), mem_edgesOf.mpr ⟨hi, hw⟩, rfl⟩
    · rintro ⟨⟨i, w⟩, he, hee⟩
      obtain ⟨hi, hw⟩ := mem_edgesOf.mp he
      obtain ⟨rfl, rfl⟩ := Prod.mk.inj hee
      refine ⟨hbij.mapsTo hi, ?_⟩
      simp only [hdone i hi]
      exact (hmade i hi).1.mem_iff.mpr (List.mem_map_of_mem hw)

end Rows

section Duplicates
variable {es : List (Nat × Nat)} {fp line : List Char} {s : Scan}

theorem pairLess_iff (a b : Nat × Nat) :
    pairLess a b = true ↔ a.1 < b.1 ∨ (a.1 = b.1 ∧ a.2 < b.2) := decide_eq_true_iff

theorem mem_insertPair (e x : Nat × Nat) : x ∈ insertPair e es ↔ x = e ∨ x ∈ es := by
  induction es with
  | nil => rw [insertPair, List.mem_singleton, or_iff_left List.not_mem_nil]
  | cons y es ih =>
    rw [insertPair]
    split_ifs with h₁ h₂
    · exact List.mem_cons
    · rw [List.mem_cons, ih, List.mem_cons]
      exact or_left_comm
    · have hey : e = y := by
        rw [pairLess_iff] at h₁ h₂
        exact Prod.ext (by omega) (by omega)
      rw [hey, List.mem_cons]
      exact ⟨.inr, fun h => h.elim .inl id⟩

theorem sorted_insertPair (h : Sorted es) (e : Nat × Nat) : Sorted (insertPair e es) := by
  induction es with
  | nil => exact List.pairwise_singleton _ _
  | cons y es ih =>
    obtain ⟨hy, hes⟩ := List.pairwise_cons.mp h
    rw [insertPair]
    split_ifs with h₁ h₂
    · rw [pairLess_iff] at h₁
      refine List.pairwise_cons.mpr ⟨fun x hx => ?_, h⟩
      cases List.mem_cons.mp hx with
      | inl he => rw [he]; exact h₁
      | inr hx =>
        have := hy x hx
        omega
    · rw [pairLess_iff] at h₂
      refine List.pairwise_cons.mpr ⟨fun x hx => ?_, ih hes⟩
      cases (mem_insertPair e x).mp hx with
      | inl he => rw [he]; exact h₂
      | inr hx => exact hy x hx
    · exact h

theorem insertPairs_spec (es : List (Nat × Nat)) :
    Sorted (es.foldl (fun edges e => insertPair e edges) []) ∧
      ∀ x, x ∈ es.foldl (fun edges e => insertPair e edges) [] ↔ x ∈ es := by
  have hrun (acc : List (Nat × Nat)) (hacc : Sorted acc) :
      Sorted (es.foldl (fun edges e => insertPair e edges) acc) ∧
        ∀ x, x ∈ es.foldl (fun edges e => insertPair e edges) acc ↔ x ∈ es ∨ x ∈ acc := by
    induction es generalizing acc with
    | nil => exact ⟨hacc, fun x => (or_iff_right List.not_mem_nil).symm⟩
    | cons e es ih =>
      obtain ⟨hs, hmem⟩ := ih _ (sorted_insertPair hacc e)
      refine ⟨hs, fun x => (hmem x).trans ?_⟩
      rw [mem_insertPair, List.mem_cons, or_assoc, or_left_comm]
  obtain ⟨hs, hmem⟩ := hrun [] List.Pairwise.nil
  exact ⟨hs, fun x => (hmem x).trans (or_iff_left List.not_mem_nil)⟩

theorem removeDuplicate_spec (h : readEdges fp line = some s) :
    ∃ es, removeDuplicate fp line = some (printed es) ∧ Sorted es ∧ ∀ e, e ∈ es ↔ e ∈ s.edges := by
  obtain ⟨hs, hmem⟩ := insertPairs_spec s.edges
  refine ⟨_, ?_, hs, hmem⟩
  rw [removeDuplicate, h, some_bind, List.foldl_append_eq_append]
  rfl

theorem readEdges_sorted {n : Nat} (hproper : ∀ e ∈ es, e.1 ≠ e.2) (hin : highest 0 es ≤ n)
    (hn : n ≤ 2147483647) (line : List Char) :
    ∃ line', readEdges (printed es) line = some ⟨[], line', es, highest 0 es⟩ := by
  have hall : proper es = es := List.filter_eq_self.mpr fun e he => decide_eq_true (hproper e he)
  obtain ⟨line', hrun⟩ := readEdges_printed es (fun e he => by
    have := (le_highest 0 es).2 e he
    omega) line
  exact ⟨line', by rw [hrun, hall]⟩

end Duplicates

section Program
variable (std : StdSort) (line : List Char)

/-- A graph that is written and read again is the same one, if its last vertex has an edge. -/
theorem readGraph_writeGraph (g : Graph) (hg : g.Outgoing) (hmax : g.vsize < 2147483647)
    (hedges : g.outedge.size ≤ 2147483647)
    (hproper : ∀ u < g.vsize, u ∉ g.outs u)
    (hlast : ∃ u < g.vsize, ∃ v ∈ g.outs u, max u v + 1 = g.vsize) :
    ∃ text g', g.writeGraph = some text ∧ readGraph std text line = some g' ∧
      g'.vsize = g.vsize ∧ g'.edgenum = g.outedge.size ∧ g'.Outgoing ∧
      ∀ u < g.vsize, g'.outs u = g.outs u := by
  let es := edgesOf g.vsize g.outs
  have hin (e : Nat × Nat) (he : e ∈ es) : e.1 < g.vsize ∧ e.2 ∈ g.outs e.1 :=
    mem_edgesOf.mp (show (e.1, e.2) ∈ es from he)
  have hlt (e : Nat × Nat) (he : e ∈ es) : e.1 < g.vsize ∧ e.2 < g.vsize :=
    ⟨(hin e he).1, hg.outs_lt (hin e he).1 (hin e he).2⟩
  have hsorted : Sorted es := sorted_edgesOf hg.rising
  have htop : highest 0 es + 1 = g.vsize := by
    obtain ⟨u, hu, v, hv, he⟩ := hlast
    have hle := (le_highest 0 es).2 (u, v) (mem_edgesOf.mpr ⟨hu, hv⟩)
    have hless : highest 0 es < g.vsize := highest_lt (by omega) hlt
    simp only at hle
    omega
  have hlen : es.length = g.outedge.size := by
    rw [← reversed_length hg]
    simp only [es, edgesOf, reversed, List.length_flatMap, List.length_map]
  obtain ⟨line', hread⟩ := readEdges_sorted (n := highest 0 es)
    (fun e he heq => hproper e.1 (hin e he).1 (by
      have := (hin e he).2
      rwa [← heq] at this)) le_rfl (by omega) line
  obtain ⟨g', hrun, hn, hm, _, hg', hmem⟩ := readGraph_spec std hread hsorted.nodup
    (by simp only; omega) (hlen.trans_le hedges)
  have hn' : g'.vsize = g.vsize := hn.trans htop
  refine ⟨_, g', writeGraph_spec hg, hrun, hn', hm.trans hlen, hg', fun u hu => ?_⟩
  have hu' : u < g'.vsize := hn'.symm ▸ hu
  refine List.Perm.eq_of_pairwise (fun a b _ _ hab hba => absurd hba hab.asymm) (hg'.rising u hu')
    (hg.rising u hu) ?_
  refine (List.perm_ext_iff_of_nodup (hg'.outs_nodup hu') (hg.outs_nodup hu)).mpr fun v => ?_
  rw [hmem u hu', mem_edgesOf]
  exact and_iff_right hu

theorem readGraph_writeGraph_triangle :
    ∃ text g', Graph.triangle.writeGraph = some text ∧ readGraph .insertion text [] = some g' ∧
      g'.vsize = 3 ∧ g'.edgenum = 3 ∧ g'.Outgoing ∧ ∀ u < 3, g'.outs u = Graph.triangle.outs u :=
  readGraph_writeGraph .insertion [] _ Graph.triangle_valid.toOutgoing (by decide) (by decide)
    (by decide) ⟨1, by decide, 2, by decide, rfl⟩

/-- A text without duplicates has the same edges, each of them once and in order. -/
theorem readEdges_removeDuplicate {fp : List Char} {s : Scan} (hread : readEdges fp line = some s)
    (line' : List Char) :
    ∃ text s', removeDuplicate fp line = some text ∧ readEdges text line' = some s' ∧
      Sorted s'.edges ∧ s'.vsize = s.vsize ∧ ∀ e, e ∈ s'.edges ↔ e ∈ s.edges := by
  have hs := readEdges_wellformed hread
  obtain ⟨es, hrun, hsorted, hmem⟩ := removeDuplicate_spec hread
  have htop : highest 0 es = s.vsize := by
    refine le_antisymm (Nat.le_of_lt_succ (highest_lt (Nat.succ_pos _) fun e he => ?_)) ?_
    · have := hs.le ((hmem e).mp he)
      omega
    · rw [hs.vsize]
      refine Nat.le_of_lt_succ (highest_lt (Nat.succ_pos _) fun e he => ?_)
      have := (le_highest 0 es).2 e ((hmem e).mpr he)
      omega
  obtain ⟨line'', hagain⟩ := readEdges_sorted (fun e he => hs.proper e ((hmem e).mp he))
    htop.le hs.inside line'
  exact ⟨_, _, hrun, hagain, hsorted, htop, hmem⟩

theorem readEdges_removeDuplicate_loop :
    ∃ text s', removeDuplicate (printed [(2, 1), (0, 2), (1, 1), (2, 1)]) [] = some text ∧
      readEdges text [] = some s' ∧ Sorted s'.edges ∧ s'.vsize = 2 ∧
      ∀ e, e ∈ s'.edges ↔ e ∈ [(2, 1), (0, 2), (2, 1)] := by
  obtain ⟨line, hread⟩ := readEdges_printed [(2, 1), (0, 2), (1, 1), (2, 1)] (by decide) []
  exact readEdges_removeDuplicate [] hread []

end Program

end GraphReorder.Gorder
