import GraphReorder.BinaryCsr
import GraphReorder.ReadCsr

/-! `csr_gen/main.cpp`: from an edge list to a binary file. -/
namespace GraphReorder.CsrGen
open Library

/-- The variables of the reading loop; `dstVal` is not initialised. The other `int`s stand as
their words: a negative one is no index of any of the arrays either way. -/
structure Reading where
  fp : List Token
  dstVal : Option Nat := none
  numVertex : Int := 0
  src : Array Nat := #[]
  dst : Array Nat := #[]

/-- The second `fscanf`, which may leave `dstVal` as it was. -/
def scanDst (r : Reading) (fp : List Token) : Option (Nat × List Token) :=
  match fscanf fp with
  | (some dstVal, fp) => some (dstVal, fp)
  | (none, fp) => do some (← r.dstVal, fp)

/-- The body of the reading loop. A failing `fscanf` also covers the test for the end of the
file. -/
def readPair (r : Reading) : Option (Reading ⊕ Reading) :=
  match fscanf r.fp with
  | (none, _) => some (.inr r)
  | (some srcVal, fp) => do
    let (dstVal, fp) ← scanDst r fp
    let numVertex := if r.numVertex < ofWord srcVal then ofWord srcVal else r.numVertex
    let numVertex := if numVertex < ofWord dstVal then ofWord dstVal else numVertex
    if srcVal != dstVal then
      some (.inl ⟨fp, some dstVal, numVertex, r.src.push srcVal, r.dst.push dstVal⟩)
    else some (.inl ⟨fp, some dstVal, numVertex, r.src, r.dst⟩)

def main (fp : List Token) : Option (List UInt8) := do
  let r ← loop readPair ((fp.map Token.span).sum + 1) { fp }
  let numVertex := (← intSucc r.numVertex).toNat
  let numEdgesRead := r.src.size
  let deg ← forRange 0 numEdgesRead (fun i deg => do incr deg (← r.src[i]?))
    (Array.replicate numVertex 0)
  let VI ← forRange 1 numVertex (fun i VI => do
    store VI i ((← VI[i - 1]?) + (← deg[i - 1]?))) (Array.replicate numVertex 0)
  let deg ← forRange 0 numVertex (fun i deg => store deg i 0) deg
  let (EI, _) ← forRange 0 numEdgesRead (fun i st => do
    scatter VI (← r.src[i]?) (← r.dst[i]?) st) (Array.replicate numEdgesRead 0, deg)
  writeCsr { Graph.unread with numVertex, numEdges := numEdgesRead, VI, EI }

section Read
variable {L : List Record}

structure ReadSoFar (done rest : List Record) (r : Reading) : Prop where
  fp : r.fp = recordFile false rest
  src : r.src = ((proper done).map Record.src).toArray
  dst : r.dst = ((proper done).map Record.dst).toArray
  numVertex : r.numVertex = largest done

theorem readPair_step {done rest : List Record} {e : Record} {r : Reading}
    (he : e.src < 2 ^ 31 ∧ e.dst < 2 ^ 31) (h : ReadSoFar done (e :: rest) r) :
    ∃ r', readPair r = some (.inl r') ∧ ReadSoFar (done ++ [e]) rest r' := by
  obtain ⟨fp, dstVal, numVertex, src, dst⟩ := r
  obtain ⟨hfp, hsrc, hdst, hnum⟩ := h
  simp only at hfp hsrc hdst hnum
  subst hfp hsrc hdst hnum
  have hs : toWord e.src = e.src := toWord_natCast (by omega)
  have hd : toWord e.dst = e.dst := toWord_natCast (by omega)
  have hmax : (if (if (largest done : Int) < e.src then (e.src : Int) else largest done) < e.dst
      then (e.dst : Int) else if (largest done : Int) < e.src then (e.src : Int) else largest done) =
      largest (done ++ [e]) := by
    rw [largest_concat]
    split_ifs <;> omega
  have hread : scanDst ⟨recordFile false (e :: rest), dstVal, largest done,
      ((proper done).map Record.src).toArray, ((proper done).map Record.dst).toArray⟩
      (.int e.dst :: recordFile false rest) = some (e.dst, recordFile false rest) := by
    simp only [scanDst, fscanf, hd]
  have hfile : recordFile false (e :: rest) =
      .int e.src :: .int e.dst :: recordFile false rest := rfl
  rw [hfile] at hread ⊢
  simp only [readPair, fscanf, hs, hread, some_bind, ofWord_of_lt he.1, ofWord_of_lt he.2, hmax]
  by_cases hloop : (e.src != e.dst) = true
  · rw [if_pos hloop]
    have hkept : proper (done ++ [e]) = proper done ++ [e] := by rw [proper_concat, if_pos hloop]
    exact ⟨_, rfl, rfl, by simp [hkept], by simp [hkept], rfl⟩
  · rw [if_neg hloop]
    have hkept : proper (done ++ [e]) = proper done := by rw [proper_concat, if_neg hloop]
    exact ⟨_, rfl, rfl, by rw [hkept], by rw [hkept], rfl⟩

theorem readPairs_spec (hL : ∀ r ∈ L, r.src < 2 ^ 31 ∧ r.dst < 2 ^ 31) :
    ∃ r, loop readPair (((recordFile false L).map Token.span).sum + 1) { fp := recordFile false L } = some r ∧
      ReadSoFar L [] r := by
  rw [span_recordFile]
  refine loop_rule
    (fun r => ∃ done rest, L = done ++ rest ∧ ReadSoFar done rest r)
    (fun r => ReadSoFar L [] r) (fun r => r.fp.length) (fun r hI => ?_)
    ⟨[], L, rfl, rfl, rfl, rfl, rfl⟩ (Nat.lt_succ_self _)
  obtain ⟨done, rest, hLr, h⟩ := hI
  cases rest with
  | nil =>
    rw [List.append_nil] at hLr
    subst hLr
    have hstop : readPair r = some (.inr r) := by
      rw [readPair, h.fp]
      rfl
    exact .inr ⟨r, hstop, h⟩
  | cons e rest =>
    obtain ⟨r', hr', h'⟩ := readPair_step (hL e (by simp [hLr])) h
    refine .inl ⟨r', hr', ⟨done ++ [e], rest, by simp [hLr], h'⟩, ?_⟩
    have hlen : (recordFile false (e :: rest)).length = 2 + (recordFile false rest).length := by
      simp [recordFile, Record.tokens]
      omega
    rw [h.fp, h'.fp]
    omega

def pairs (L : List Record) : List (Nat × Nat) := (proper L).map (Record.pair false)

theorem mem_pairs {e : Nat × Nat} (he : e ∈ pairs L) : e.1 ≤ largest L ∧ e.2 ≤ largest L := by
  obtain ⟨r, hr, rfl⟩ := List.mem_map.mp he
  have hmem : r ∈ L := (List.mem_filter.mp hr).1
  exact ⟨le_largest (src_mem_ids hmem), le_largest (dst_mem_ids hmem)⟩

structure Generated (L : List Record) (G : Graph) : Prop where
  numVertex : G.numVertex = largest L + 1
  numEdges : G.numEdges = (proper L).length
  sizeVI : G.VI.size = G.numVertex
  sizeEI : G.EI.size = G.numEdges
  csr : G.Csr G.numVertex
  rows : ∀ v < G.numVertex, G.row v = group (pairs L) v

theorem main_spec (hL : ∀ r ∈ L, r.src < 2 ^ 31 - 1 ∧ r.dst < 2 ^ 31 - 1)
    (hm : L.length < 2 ^ 31) :
    ∃ G, main (recordFile false L) = writeCsr G ∧ Generated L G := by
  obtain ⟨r, hread, hr⟩ := readPairs_spec fun e he => by
    have := hL e he
    omega
  have hbound : largest L < 2 ^ 31 - 1 := (largest_lt (by decide)).mpr hL
  have hnum : intSucc r.numVertex = some ((largest L + 1 : Nat) : Int) := by
    rw [hr.numVertex, intSucc, if_pos (by omega)]
    rfl
  generalize hes : pairs L = es
  have hsrc : r.src = (es.map Prod.fst).toArray := by rw [hr.src, ← hes, pairs, List.map_map]; rfl
  have hdst : r.dst = (es.map Prod.snd).toArray := by rw [hr.dst, ← hes, pairs, List.map_map]; rfl
  have hlen : es.length = (proper L).length := by rw [← hes, pairs, List.length_map]
  have hsize : (es.map Prod.fst).toArray.size = es.length := by simp
  have hshort : (proper L).length ≤ L.length := List.length_filter_le _ _
  have hkeys (e : Nat × Nat) (he : e ∈ es) : e.1 < largest L + 1 := by
    rw [← hes] at he
    exact Nat.lt_succ_of_le (mem_pairs he).1
  have hvalues (e : Nat × Nat) (he : e ∈ es) : e.2 < largest L + 1 := by
    rw [← hes] at he
    exact Nat.lt_succ_of_le (mem_pairs he).2
  obtain ⟨deg, hdeg, htally⟩ := tally_run hkeys
  have hroom : largest L + 1 ≤ largest L + 1 + 1 := Nat.le_succ _
  obtain ⟨VI, hVI, hVIsize, hoff⟩ := offsets_prefix htally (Nat.le_add_left 1 _) hroom
  obtain ⟨zero, hzero, hzs, hz⟩ := clear_run htally.1
  have ho : Offsets (largest L + 1) VI es := ⟨by omega, hoff⟩
  have hcells : (Array.replicate es.length 0).size = es.length := Array.size_replicate
  obtain ⟨⟨EI, fill⟩, hEI, hs⟩ := scatter_run ho hkeys hcells hzs.ge hz
  have hnat : ((largest L + 1 : Nat) : Int).toNat = largest L + 1 := rfl
  refine ⟨{ Graph.unread with numVertex := largest L + 1, numEdges := es.length, VI, EI },
    ?_, rfl, hlen, hVIsize, hs.size, ?_, fun v hv => ?_⟩
  · simp only [main, hread, hnum, some_bind, hnat, hsize, hsrc, hdst, hdeg, hVI, hzero, hEI]
  · have hword : largest L + 1 < 2 ^ 32 := by omega
    have hword' : es.length < 2 ^ 32 := by omega
    exact Graph.csr_of_scattered (Nat.le_add_left 1 _) ho rfl hkeys hvalues hs hword hword'
  · rw [hes]
    exact Graph.row_of_scattered ho rfl hkeys hs hv

end Read

end GraphReorder.CsrGen
