import Mathlib.Algebra.GroupWithZero.Nat
import Mathlib.Data.Finset.Sort
import GraphReorder.Expand
import GraphReorder.Sort

/-! The compression of a graph: one row for each block of `CLSize` vertices, with the distinct
neighbours of the block. -/
namespace GraphReorder
open Library

/-- The arrays of the compression loop: `G1.EI`, which it sorts, and those of `compG`. -/
structure Compression where
  sorted : Array Nat
  VI : Array Nat
  EI : Array Nat
  numEdges : Nat

/-- `if (i < compG.numVertex-1) compG.VI[i+1] = compG.VI[i]`. -/
def carryOffset (compN i : Nat) (VI : Array Nat) : Option (Array Nat) := do
  if i < usub compN 1 then store VI (i + 1) (← VI[i]?) else some VI

/-- `compG.EI[compG.numEdges++] = e; if (i < compG.numVertex-1) compG.VI[i+1]++`. -/
def pushEntry (compN i e : Nat) (st : Compression) : Option Compression := do
  let EI ← store st.EI st.numEdges e
  if i < usub compN 1 then
    return { st with EI, VI := ← incr st.VI (i + 1), numEdges := st.numEdges + 1 }
  return { st with EI, numEdges := st.numEdges + 1 }

def pushFirst (compN i start stop : Nat) (st : Compression) : Option Compression := do
  if start < stop then pushEntry compN i (← st.sorted[start]?) st else some st

def pushNext (compN i j : Nat) (st : Compression) : Option Compression := do
  if (← st.sorted[j]?) ≠ (← st.sorted[j - 1]?) then pushEntry compN i (← st.sorted[j]?) st
  else some st

/-- `(i == compG.numVertex-1) ? G1.numEdges : G1.VI[(i+1)*CLSize]`. -/
def blockEnd (CLSize compN : Nat) (G1 : Graph) (i : Nat) : Option Nat :=
  if i = usub compN 1 then some G1.numEdges else G1.VI[(i + 1) * CLSize]?

def compressBlock (CLSize compN : Nat) (G1 : Graph) (i : Nat) (st : Compression) :
    Option Compression := do
  let start ← G1.VI[i * CLSize]?
  let stop ← blockEnd CLSize compN G1 i
  let sorted ← mergeSortWOkey st.sorted start (usub stop 1)
  let VI ← carryOffset compN i st.VI
  let st ← pushFirst compN i start stop { st with sorted, VI }
  forRange (start + 1) stop (pushNext compN i) st

def compress (CLSize : Nat) (G1 : Graph) : Option Graph := do
  let compN := blockCount CLSize G1.numVertex
  let st ← forRange 0 compN (compressBlock CLSize compN G1)
    ⟨G1.EI, Array.replicate compN 0, Array.replicate G1.numEdges 0, 0⟩
  some { numVertex := compN, numEdges := st.numEdges, VI := st.VI, EI := st.EI }

section Cells
variable {G1 : Graph} {bound c i : Nat}

def blockFrom (c : Nat) (G1 : Graph) (i : Nat) : Nat :=
  if i < blockCount c G1.numVertex then G1.VI[i * c]! else G1.numEdges

def blockCells (c : Nat) (G1 : Graph) (b : Nat) : List Nat :=
  slice G1.EI (blockFrom c G1 b) (blockFrom c G1 (b + 1))

def neighbours (c : Nat) (G1 : Graph) (b : Nat) : List Nat :=
  (blockCells c G1 b).toFinset.sort (· ≥ ·)

theorem Graph.Csr.starts_mono (h : G1.Csr bound) {v w : Nat} (hvw : v ≤ w)
    (hw : w < G1.numVertex) : G1.VI[v]! ≤ G1.VI[w]! := by
  induction w with
  | zero =>
    obtain rfl : v = 0 := by omega
    exact le_rfl
  | succ w ih =>
    by_cases hv : v = w + 1
    · rw [hv]
    · exact (ih (by omega) (by omega)).trans (h.mono w hw)

theorem blockFrom_le (h : G1.Csr bound) (hc : 1 ≤ c) (i : Nat) :
    blockFrom c G1 i ≤ G1.numEdges := by
  unfold blockFrom
  split_ifs with hi
  · have hlt := block_start_lt hc h.pos hi
    exact (h.start_le_last hlt).trans h.last
  · exact le_rfl

theorem blockFrom_mono (h : G1.Csr bound) (hc : 1 ≤ c) {i j : Nat} (hij : i ≤ j) :
    blockFrom c G1 i ≤ blockFrom c G1 j := by
  by_cases hj : j < blockCount c G1.numVertex
  · have hlt := block_start_lt hc h.pos hj
    unfold blockFrom
    rw [if_pos hj, if_pos (by omega)]
    exact h.starts_mono (Nat.mul_le_mul_right c hij) hlt
  · rw [show blockFrom c G1 j = G1.numEdges from if_neg hj]
    exact blockFrom_le h hc i

theorem blockStart_read (h : G1.Csr bound) (hc : 1 ≤ c) (hi : i < blockCount c G1.numVertex) :
    G1.VI[i * c]? = some (blockFrom c G1 i) := by
  rw [h.read_start (block_start_lt hc h.pos hi), blockFrom, if_pos hi]

theorem blockEnd_eq (h : G1.Csr bound) (hc : 1 ≤ c) (hi : i < blockCount c G1.numVertex) :
    blockEnd c (blockCount c G1.numVertex) G1 i = some (blockFrom c G1 (i + 1)) := by
  have hone : usub (blockCount c G1.numVertex) 1 = blockCount c G1.numVertex - 1 :=
    usub_of_le (Nat.le_add_left 1 _)
  rw [blockEnd, hone]
  by_cases hl : i = blockCount c G1.numVertex - 1
  · rw [if_pos hl, blockFrom, if_neg (by omega)]
  · rw [if_neg hl, blockStart_read h hc (by omega)]

theorem neighbours_sorted (c : Nat) (G1 : Graph) (b : Nat) :
    (neighbours c G1 b).Pairwise (· > ·) :=
  (Finset.sortedGT_sort _).pairwise

theorem mem_neighbours {c b x : Nat} : x ∈ neighbours c G1 b ↔ x ∈ blockCells c G1 b := by
  rw [neighbours, Finset.mem_sort, List.mem_toFinset]

theorem neighbours_nodup (c : Nat) (G1 : Graph) (b : Nat) : (neighbours c G1 b).Nodup :=
  Finset.sort_nodup _ _

theorem neighbours_lt (h : G1.Csr bound) (hc : 1 ≤ c) {b x : Nat} (hx : x ∈ neighbours c G1 b) :
    x < bound := by
  obtain ⟨j, _, hj, rfl⟩ := mem_slice.mp (mem_neighbours.mp hx)
  exact h.entries j (hj.trans_le (blockFrom_le h hc _))

end Cells

section Run
variable {G1 : Graph} {bound c i : Nat} {st : Compression}

/-- The entries `out` have been emitted, the last of them into row `i`. -/
structure Emitted (c : Nat) (G1 : Graph) (i : Nat) (out : List Nat) (st : Compression) : Prop where
  sizeVI : st.VI.size = blockCount c G1.numVertex
  sizeEI : st.EI.size = G1.numEdges
  numEdges : st.numEdges = out.length
  cells : slice st.EI 0 out.length = out
  offsets : ∀ b ≤ i, b < blockCount c G1.numVertex →
    st.VI[b]! = (Graph.flat (neighbours c G1) b).length
  next : i + 1 < blockCount c G1.numVertex → st.VI[i + 1]! = out.length

theorem pushEntry_spec {out : List Nat} (h : Emitted c G1 i out st)
    (hroom : out.length < G1.numEdges) (e : Nat) :
    ∃ st', pushEntry (blockCount c G1.numVertex) i e st = some st' ∧ st'.sorted = st.sorted ∧
      Emitted c G1 i (out ++ [e]) st' := by
  have hone : usub (blockCount c G1.numVertex) 1 = blockCount c G1.numVertex - 1 :=
    usub_of_le (Nat.le_add_left 1 _)
  have hsz : st.numEdges < st.EI.size := by rw [h.sizeEI, h.numEdges]; exact hroom
  have hcells : slice (st.EI.setIfInBounds st.numEdges e) 0 (out ++ [e]).length = out ++ [e] := by
    rw [List.length_append, List.length_singleton, slice_succ _ (Nat.zero_le _), ← h.numEdges,
      put_get_self hsz, slice_put_outside (.inr le_rfl), h.numEdges, h.cells]
  have hlen : st.numEdges + 1 = (out ++ [e]).length := by simp [h.numEdges]
  by_cases hi : i < blockCount c G1.numVertex - 1
  · have hi' : i + 1 < st.VI.size := by rw [h.sizeVI]; omega
    refine ⟨{ st with
      EI := st.EI.setIfInBounds st.numEdges e
      VI := st.VI.setIfInBounds (i + 1) (st.VI[i + 1]! + 1)
      numEdges := st.numEdges + 1 }, ?_, rfl, by simpa using h.sizeVI, by simpa using h.sizeEI,
      hlen, hcells, fun b hb hbc => ?_, fun _ => ?_⟩
    · simp only [pushEntry, store_eq hsz, hone, hi, if_true, incr_eq hi', some_bind]
      rfl
    · change (Array.setIfInBounds _ _ _)[b]! = _
      rw [put_get_ne (by omega)]
      exact h.offsets b hb hbc
    · change (Array.setIfInBounds _ _ _)[i + 1]! = _
      rw [put_get_self hi', h.next (by omega), List.length_append, List.length_singleton]
  · refine ⟨{ st with
      EI := st.EI.setIfInBounds st.numEdges e
      numEdges := st.numEdges + 1 }, ?_, rfl, h.sizeVI, by simpa using h.sizeEI, hlen, hcells,
      h.offsets, fun hn => absurd hn (by omega)⟩
    simp only [pushEntry, store_eq hsz, hone, hi, if_false, some_bind]
    rfl

structure Distinct (l out : List Nat) : Prop where
  sorted : out.Pairwise (· > ·)
  mem : ∀ x, x ∈ out ↔ x ∈ l
  short : out.length ≤ l.length

theorem Distinct.keep {l out : List Nat} (h : Distinct l out) {x : Nat} (hx : x ∈ l) :
    Distinct (l ++ [x]) out where
  sorted := h.sorted
  mem y := by
    rw [h.mem, List.mem_append, List.mem_singleton]
    constructor
    · exact Or.inl
    · intro hy
      cases hy with
      | inl hy => exact hy
      | inr hy => exact hy ▸ hx
  short := by
    have := h.short
    rw [List.length_append]
    omega

theorem Distinct.push {l out : List Nat} (h : Distinct l out) {x : Nat} (hx : ∀ y ∈ l, x < y) :
    Distinct (l ++ [x]) (out ++ [x]) where
  sorted := by
    refine List.pairwise_append.mpr ⟨h.sorted, List.pairwise_singleton _ _, fun y hy z hz => ?_⟩
    rw [List.mem_singleton.mp hz]
    exact hx y ((h.mem y).mp hy)
  mem y := by rw [List.mem_append, List.mem_append, h.mem]
  short := by
    have := h.short
    rw [List.length_append, List.length_append]
    exact Nat.add_le_add_right this 1

theorem Distinct.eq_neighbours {l out : List Nat} (h : Distinct l out) {b : Nat}
    (hl : l.Perm (blockCells c G1 b)) : out = neighbours c G1 b :=
  h.sorted.eq_of_mem_iff (neighbours_sorted c G1 b) fun x => by
    rw [h.mem, hl.mem_iff, mem_neighbours]

structure Inside (c : Nat) (G1 : Graph) (i : Nat) (sorted : Array Nat) (j : Nat)
    (st : Compression) : Prop where
  same : st.sorted = sorted
  emitted : ∃ out, Distinct (slice sorted (blockFrom c G1 i) j) out ∧
    Emitted c G1 i (Graph.flat (neighbours c G1) i ++ out) st

theorem last_le {a : Array Nat} {lo j : Nat} (hl : lo ≤ j)
    (hdesc : Descending id (slice a lo (j + 1))) {y : Nat} (hy : y ∈ slice a lo (j + 1)) :
    a[j]! ≤ y := by
  rw [slice_succ _ hl] at hdesc hy
  cases List.mem_append.mp hy with
  | inl hy => exact (List.pairwise_append.mp hdesc).2.2 y hy _ (List.mem_singleton.mpr rfl)
  | inr hy => exact (List.mem_singleton.mp hy).ge

theorem last_lt {a : Array Nat} {lo j : Nat} (hl : lo + 1 ≤ j)
    (hdesc : Descending id (slice a lo (j + 1))) (hne : a[j]! ≠ a[j - 1]!) {y : Nat}
    (hy : y ∈ slice a lo j) : a[j]! < y := by
  have hle : lo ≤ j := by omega
  have hj1 : j - 1 + 1 = j := by omega
  have hprev : a[j - 1]! ∈ slice a lo (j + 1) := mem_slice.mpr ⟨j - 1, by omega, by omega, rfl⟩
  have hlast := last_le hle hdesc hprev
  rw [slice_succ _ hle] at hdesc
  have hbefore := (List.pairwise_append.mp hdesc).1
  rw [← hj1] at hbefore hy
  have hyprev := last_le (by omega) hbefore hy
  omega

theorem pushNext_step (h : G1.Csr bound) (hc : 1 ≤ c) {sorted : Array Nat}
    (hsize : sorted.size = G1.EI.size)
    (hdesc : Descending id (slice sorted (blockFrom c G1 i) (blockFrom c G1 (i + 1))))
    (hroom : (Graph.flat (neighbours c G1) i).length ≤ blockFrom c G1 i) {j : Nat}
    (hj : blockFrom c G1 i + 1 ≤ j) (hj' : j < blockFrom c G1 (i + 1))
    (hI : Inside c G1 i sorted j st) :
    ∃ st', pushNext (blockCount c G1.numVertex) i j st = some st' ∧
      Inside c G1 i sorted (j + 1) st' := by
  obtain ⟨hs, out, hd, he⟩ := hI
  have hstop := blockFrom_le h hc (i + 1)
  have hcells := h.cells
  have hlt : j < sorted.size := by omega
  have hle : blockFrom c G1 i ≤ j := by omega
  have hlt' : j - 1 < sorted.size := by omega
  have hprev : sorted[j - 1]! ∈ slice sorted (blockFrom c G1 i) j :=
    mem_slice.mpr ⟨j - 1, by omega, by omega, rfl⟩
  rw [← slice_append sorted (hle.trans (Nat.le_succ j)) hj'] at hdesc
  have hupto : Descending id (slice sorted (blockFrom c G1 i) (j + 1)) :=
    (List.pairwise_append.mp hdesc).1
  subst hs
  by_cases heq : st.sorted[j]! = st.sorted[j - 1]!
  · refine ⟨st, ?_, rfl, out, ?_, he⟩
    · simp only [pushNext, read_eq hlt, read_eq hlt', some_bind, heq, ne_eq, not_true, if_false]
    · rw [slice_succ _ hle, heq]
      exact hd.keep hprev
  · have hshort := hd.short
    rw [slice_length] at hshort
    obtain ⟨st', hst', hs', he'⟩ := pushEntry_spec he
      (by rw [List.length_append]; omega) st.sorted[j]!
    refine ⟨st', ?_, hs', out ++ [st.sorted[j]!], ?_, by rw [← List.append_assoc]; exact he'⟩
    · simp only [pushNext, read_eq hlt, read_eq hlt', some_bind, heq, ne_eq, not_false_eq_true,
        if_true, hst']
    · rw [slice_succ _ hle]
      exact hd.push fun y hy => last_lt hj hupto heq hy

structure CompressedTo (c : Nat) (G1 : Graph) (i : Nat) (st : Compression) : Prop where
  size : st.sorted.size = G1.EI.size
  rest : ∀ j, blockFrom c G1 i ≤ j → st.sorted[j]! = G1.EI[j]!
  room : (Graph.flat (neighbours c G1) i).length ≤ blockFrom c G1 i
  sizeVI : st.VI.size = blockCount c G1.numVertex
  sizeEI : st.EI.size = G1.numEdges
  numEdges : st.numEdges = (Graph.flat (neighbours c G1) i).length
  cells : slice st.EI 0 (Graph.flat (neighbours c G1) i).length = Graph.flat (neighbours c G1) i
  offsets : ∀ b ≤ i, b < blockCount c G1.numVertex →
    st.VI[b]! = (Graph.flat (neighbours c G1) b).length

theorem carryOffset_spec (hi : i < blockCount c G1.numVertex) (h : CompressedTo c G1 i st)
    (sorted : Array Nat) :
    ∃ VI, carryOffset (blockCount c G1.numVertex) i st.VI = some VI ∧
      Emitted c G1 i (Graph.flat (neighbours c G1) i) { st with sorted, VI } := by
  have hone : usub (blockCount c G1.numVertex) 1 = blockCount c G1.numVertex - 1 :=
    usub_of_le (Nat.le_add_left 1 _)
  have hread : i < st.VI.size := by rw [h.sizeVI]; exact hi
  by_cases hl : i < blockCount c G1.numVertex - 1
  · have hi' : i + 1 < st.VI.size := by rw [h.sizeVI]; omega
    refine ⟨st.VI.setIfInBounds (i + 1) st.VI[i]!, ?_, by simpa using h.sizeVI, h.sizeEI, h.numEdges,
      h.cells, fun b hb hbc => ?_, fun _ => ?_⟩
    · simp only [carryOffset, hone, hl, if_true, read_eq hread, some_bind, store_eq hi']
    · change (Array.setIfInBounds _ _ _)[b]! = _
      rw [put_get_ne (by omega)]
      exact h.offsets b hb hbc
    · change (Array.setIfInBounds _ _ _)[i + 1]! = _
      rw [put_get_self hi']
      exact h.offsets i le_rfl hi
  · refine ⟨st.VI, ?_, h.sizeVI, h.sizeEI, h.numEdges, h.cells, h.offsets,
      fun hn => absurd hn (by omega)⟩
    simp only [carryOffset, hone, hl, if_false]

theorem pushBlock_spec (h : G1.Csr bound) (hc : 1 ≤ c) {sorted : Array Nat}
    (hst : st.sorted = sorted) (hsize : sorted.size = G1.EI.size)
    (hdesc : Descending id (slice sorted (blockFrom c G1 i) (blockFrom c G1 (i + 1))))
    (hroom : (Graph.flat (neighbours c G1) i).length ≤ blockFrom c G1 i)
    (he : Emitted c G1 i (Graph.flat (neighbours c G1) i) st) :
    ∃ st₁ st', pushFirst (blockCount c G1.numVertex) i (blockFrom c G1 i) (blockFrom c G1 (i + 1)) st =
        some st₁ ∧
      forRange (blockFrom c G1 i + 1) (blockFrom c G1 (i + 1))
        (pushNext (blockCount c G1.numVertex) i) st₁ = some st' ∧
      Inside c G1 i sorted (blockFrom c G1 (i + 1)) st' := by
  have hle := blockFrom_mono h hc (Nat.le_succ i)
  have hstop := blockFrom_le h hc (i + 1)
  have hcells := h.cells
  by_cases hlt : blockFrom c G1 i < blockFrom c G1 (i + 1)
  · have hread : blockFrom c G1 i < sorted.size := by omega
    obtain ⟨st₁, hfirst, hs₁, he₁⟩ := pushEntry_spec he (by omega) sorted[blockFrom c G1 i]!
    have hd : Distinct (slice sorted (blockFrom c G1 i) (blockFrom c G1 i + 1))
        ([] ++ [sorted[blockFrom c G1 i]!]) := by
      rw [slice_succ _ le_rfl, slice_empty _ le_rfl]
      exact Distinct.push ⟨.nil, fun _ => Iff.rfl, le_rfl⟩ fun y hy => absurd hy List.not_mem_nil
    obtain ⟨st', hrun, hI⟩ := forRange_rule (Inside c G1 i sorted) hlt
      (⟨hs₁.trans hst, _, hd, he₁⟩ : Inside c G1 i sorted (blockFrom c G1 i + 1) st₁)
      fun j st hj hj' hI => pushNext_step h hc hsize hdesc hroom hj hj' hI
    refine ⟨st₁, st', ?_, hrun, hI⟩
    subst hst
    simp only [pushFirst, hlt, if_true, read_eq hread, some_bind, hfirst]
  · refine ⟨st, st, if_neg hlt, forRange_empty (by omega) _ _, hst, [], ?_, ?_⟩
    · rw [slice_empty _ (by omega)]
      exact ⟨.nil, fun _ => Iff.rfl, le_rfl⟩
    · rw [List.append_nil]
      exact he

theorem compressBlock_step (h : G1.Csr bound) (hc : 1 ≤ c) (hi : i < blockCount c G1.numVertex)
    (hI : CompressedTo c G1 i st) :
    (mergeSortWOkey st.sorted (blockFrom c G1 i) (usub (blockFrom c G1 (i + 1)) 1) = none →
      compressBlock c (blockCount c G1.numVertex) G1 i st = none) ∧
    ∀ sorted, mergeSortWOkey st.sorted (blockFrom c G1 i) (usub (blockFrom c G1 (i + 1)) 1) =
        some sorted → sorted.size = st.sorted.size →
      Descending id (slice sorted (blockFrom c G1 i) (blockFrom c G1 (i + 1))) →
      (slice sorted (blockFrom c G1 i) (blockFrom c G1 (i + 1))).Perm
        (slice st.sorted (blockFrom c G1 i) (blockFrom c G1 (i + 1))) →
      (∀ j, blockFrom c G1 (i + 1) ≤ j → sorted[j]! = st.sorted[j]!) →
      ∃ st', compressBlock c (blockCount c G1.numVertex) G1 i st = some st' ∧
        CompressedTo c G1 (i + 1) st' := by
  have hstart := blockStart_read h hc hi
  have hstop := blockEnd_eq h hc hi
  refine ⟨fun hnone => ?_, fun sorted hsort hsize hdesc hperm hrest => ?_⟩
  · simp only [compressBlock, hstart, hstop, some_bind, hnone]
    rfl
  have hle : blockFrom c G1 i ≤ blockFrom c G1 (i + 1) := blockFrom_mono h hc (Nat.le_succ i)
  have hcells : slice st.sorted (blockFrom c G1 i) (blockFrom c G1 (i + 1)) = blockCells c G1 i :=
    slice_congr fun j hj _ => hI.rest j hj
  rw [hcells] at hperm
  obtain ⟨VI, hcarry, he⟩ := carryOffset_spec hi hI sorted
  obtain ⟨st₁, st', hfirst, hrun, hs', out, hd, he'⟩ := pushBlock_spec h hc rfl (hsize.trans hI.size)
    hdesc hI.room he
  have hshort := hd.short
  rw [slice_length] at hshort
  have hout : out = neighbours c G1 i := hd.eq_neighbours hperm
  subst hout
  rw [← Graph.flat_succ] at he'
  have hroom := hI.room
  refine ⟨st', ?_, ?_, fun j hj => ?_, ?_, he'.sizeVI, he'.sizeEI, he'.numEdges, he'.cells,
    fun b hb hbc => ?_⟩
  · simp only [compressBlock, hstart, hstop, hsort, hcarry, hfirst, hrun, some_bind]
  · rw [hs', hsize, hI.size]
  · rw [hs', hrest j hj]
    exact hI.rest j (hle.trans hj)
  · rw [Graph.flat_succ, List.length_append]
    omega
  · by_cases hbi : b = i + 1
    · rw [hbi]
      exact he'.next (by omega)
    · exact he'.offsets b (by omega) hbc

structure IsCompressed (c : Nat) (G1 compG : Graph) : Prop where
  numVertex : compG.numVertex = blockCount c G1.numVertex
  numEdges : compG.numEdges ≤ G1.numEdges
  laid : Graph.Laid (neighbours c G1) compG

theorem compressedTo_start (c : Nat) (G1 : Graph) :
    CompressedTo c G1 0 ⟨G1.EI, Array.replicate (blockCount c G1.numVertex) 0,
      Array.replicate G1.numEdges 0, 0⟩ where
  size := rfl
  rest _ _ := rfl
  room := Nat.zero_le _
  sizeVI := by simp
  sizeEI := by simp
  numEdges := rfl
  cells := slice_empty _ le_rfl
  offsets b hb hbc := by
    obtain rfl : b = 0 := by omega
    exact replicate_get _ 0 0 hbc

theorem CompressedTo.done (hc : 1 ≤ c) (h : G1.Csr bound)
    (hI : CompressedTo c G1 (blockCount c G1.numVertex) st) :
    IsCompressed c G1
      { numVertex := blockCount c G1.numVertex, numEdges := st.numEdges, VI := st.VI, EI := st.EI } where
  numVertex := rfl
  numEdges := by
    change st.numEdges ≤ G1.numEdges
    rw [hI.numEdges]
    exact hI.room.trans (blockFrom_le h hc _)
  laid := {
    room := hI.sizeVI.ge
    cells := by
      change st.numEdges ≤ st.EI.size
      rw [hI.sizeEI, hI.numEdges]
      exact hI.room.trans (blockFrom_le h hc _)
    offsets := fun b hb => hI.offsets b hb.le hb
    total := hI.numEdges
    entries := by
      change slice st.EI 0 st.numEdges = _
      rw [hI.numEdges]
      exact hI.cells }

theorem IsCompressed.csr {compG : Graph} (h : G1.Csr bound) (hc : 1 ≤ c)
    (hcomp : IsCompressed c G1 compG) :
    compG.Csr bound ∧ ∀ b < compG.numVertex, (compG.row b).Nodup := by
  refine ⟨hcomp.laid.csr (by rw [hcomp.numVertex]; exact Nat.succ_pos _)
    (fun b _ x hx => neighbours_lt h hc hx) ?_ (hcomp.numEdges.trans_lt h.edgeWord), fun b hb => ?_⟩
  · rw [hcomp.numVertex]
    exact (blockCount_le h.pos).trans_lt h.vertexWord
  · rw [hcomp.laid.row_eq hb]
    exact neighbours_nodup c G1 b

structure SortsFit (c : Nat) (G1 : Graph) : Prop where
  first : 0 < blockFrom c G1 1
  midpoints : ∀ i < blockCount c G1.numVertex,
    MidpointsFit (blockFrom c G1 i) (blockFrom c G1 (i + 1) - 1)

theorem SortsFit.of_lt (h : G1.Csr bound) (hc : 1 ≤ c) (hword : G1.EI.size < 2 ^ 31)
    (hfirst : 0 < blockFrom c G1 1) : SortsFit c G1 where
  first := hfirst
  midpoints i _ := by
    have hstop := blockFrom_le h hc (i + 1)
    have hcells := h.cells
    exact .of_lt (by omega)

theorem sortBlock_iff (h : G1.Csr bound) (hc : 1 ≤ c) (hword : G1.EI.size < 2 ^ 32)
    (hI : CompressedTo c G1 i st) :
    (∃ sorted, mergeSortWOkey st.sorted (blockFrom c G1 i) (usub (blockFrom c G1 (i + 1)) 1) =
        some sorted) ↔
      0 < blockFrom c G1 (i + 1) ∧
        MidpointsFit (blockFrom c G1 i) (blockFrom c G1 (i + 1) - 1) := by
  have hle : blockFrom c G1 i ≤ blockFrom c G1 (i + 1) := blockFrom_mono h hc (Nat.le_succ i)
  have hstop := blockFrom_le h hc (i + 1)
  have hcells := h.cells
  have hsize := hI.size
  exact mergeSortWOkey_iff hle (by omega) (by omega)

theorem compressBlock_sorted (h : G1.Csr bound) (hc : 1 ≤ c)
    (hi : i < blockCount c G1.numVertex) (hword : G1.EI.size < 2 ^ 32)
    (hI : CompressedTo c G1 i st) {sorted : Array Nat}
    (hsort : mergeSortWOkey st.sorted (blockFrom c G1 i) (usub (blockFrom c G1 (i + 1)) 1) =
      some sorted) :
    ∃ st', compressBlock c (blockCount c G1.numVertex) G1 i st = some st' ∧
      CompressedTo c G1 (i + 1) st' := by
  obtain ⟨_, hsome⟩ := compressBlock_step h hc hi hI
  have hs := mergeSortWOkey_some (by rw [hI.size]; exact hword) hsort
  exact hsome sorted hsort hs.size hs.descending hs.perm hs.beyond

theorem compressBlock_some (h : G1.Csr bound) (hc : 1 ≤ c)
    (hi : i < blockCount c G1.numVertex) (hword : G1.EI.size < 2 ^ 32)
    (hI : CompressedTo c G1 i st) {st' : Compression}
    (hstep : compressBlock c (blockCount c G1.numVertex) G1 i st = some st') :
    (∃ sorted, mergeSortWOkey st.sorted (blockFrom c G1 i) (usub (blockFrom c G1 (i + 1)) 1) =
      some sorted) ∧ CompressedTo c G1 (i + 1) st' := by
  obtain ⟨hnone, _⟩ := compressBlock_step h hc hi hI
  cases hsort : mergeSortWOkey st.sorted (blockFrom c G1 i) (usub (blockFrom c G1 (i + 1)) 1) with
  | none =>
    rw [hnone hsort] at hstep
    cases hstep
  | some sorted =>
    obtain ⟨st'', hst'', hI'⟩ := compressBlock_sorted h hc hi hword hI hsort
    rw [hstep] at hst''
    cases hst''
    exact ⟨⟨sorted, rfl⟩, hI'⟩

theorem compress_some {compG : Graph} (h : G1.Csr bound) (hc : 1 ≤ c)
    (hword : G1.EI.size < 2 ^ 32) (hrun : compress c G1 = some compG) :
    SortsFit c G1 ∧ IsCompressed c G1 compG := by
  obtain ⟨st, hloop, hend⟩ := Option.bind_eq_some_iff.mp hrun
  cases hend
  have hall := forRange_some (fun k st => CompressedTo c G1 k st ∧ ∀ i < k,
      0 < blockFrom c G1 (i + 1) ∧ MidpointsFit (blockFrom c G1 i) (blockFrom c G1 (i + 1) - 1))
    (Nat.zero_le _) hloop ⟨compressedTo_start c G1, fun i hi => absurd hi (Nat.not_lt_zero i)⟩
    fun i st st' _ hi hI hstep => by
      obtain ⟨hsort, hI'⟩ := compressBlock_some h hc hi hword hI.1 hstep
      refine ⟨hI', fun j hj => ?_⟩
      by_cases hji : j = i
      · subst hji
        exact (sortBlock_iff h hc hword hI.1).mp hsort
      · exact hI.2 j (by omega)
  exact ⟨⟨(hall.2 0 (Nat.succ_pos _)).1, fun i hi => (hall.2 i hi).2⟩, CompressedTo.done hc h hall.1⟩

/-- The compression completes exactly when every sort stays inside `EI`. -/
theorem compress_iff (h : G1.Csr bound) (hc : 1 ≤ c) (hword : G1.EI.size < 2 ^ 32) :
    (∃ compG, compress c G1 = some compG) ↔ SortsFit c G1 := by
  constructor
  · intro hrun
    obtain ⟨compG, hrun⟩ := hrun
    exact (compress_some h hc hword hrun).1
  · intro hfit
    obtain ⟨st, hloop, _⟩ := forRange_rule (CompressedTo c G1) (Nat.zero_le _)
      (compressedTo_start c G1) fun i st _ hi hI => by
        have hmono : blockFrom c G1 1 ≤ blockFrom c G1 (i + 1) :=
          blockFrom_mono h hc (Nat.le_add_left 1 i)
        have hpos := hfit.first
        obtain ⟨sorted, hsort⟩ := (sortBlock_iff h hc hword hI).mpr
          ⟨by omega, hfit.midpoints i hi⟩
        exact compressBlock_sorted h hc hi hword hI hsort
    exact ⟨_, by rw [compress, hloop]; rfl⟩

end Run

section Rows
variable {G1 compG : Graph} {bound c b : Nat}

theorem blockCells_eq (h : G1.Csr bound) (hc : 1 ≤ c) (hb : b < blockCount c G1.numVertex) :
    blockCells c G1 b = (block c G1.numVertex b).flatMap G1.row := by
  have hlt := block_start_lt hc h.pos hb
  have hfrom : blockFrom c G1 b = G1.VI[b * c]! := if_pos hb
  rw [blockCells, hfrom, block]
  by_cases hl : b = blockCount c G1.numVertex - 1
  · have hend : G1.numVertex - 1 + 1 - b * c = G1.numVertex - b * c := by omega
    have hstop : G1.stop (G1.numVertex - 1) = G1.numEdges := if_pos (by omega)
    have hnext : blockFrom c G1 (b + 1) = G1.numEdges := if_neg (by omega)
    rw [if_pos hl, ← hend, h.rows_between (by omega) (by omega), hstop, hnext]
  · have hb' : b + 1 < blockCount c G1.numVertex := by omega
    have hlt' := block_start_lt hc h.pos hb'
    have hnext : blockFrom c G1 (b + 1) = G1.VI[(b + 1) * c]! := if_pos (by omega)
    rw [Nat.add_one_mul] at hlt' hnext
    have hend : b * c + c - 1 + 1 = b * c + c := by omega
    have hlen : b * c + c - 1 + 1 - b * c = c := by omega
    have hstop : G1.stop (b * c + c - 1) = G1.VI[b * c + c]! := by
      rw [Graph.stop, if_neg (by omega), hend]
    have hle : b * c ≤ b * c + c - 1 := by omega
    have hrows := h.rows_between hle (by omega)
    rw [hlen, hstop] at hrows
    rw [if_neg hl, hnext, hrows]

theorem mem_block (hc : 1 ≤ c) (hn : 1 ≤ G1.numVertex) (hb : b < blockCount c G1.numVertex)
    (v : Nat) :
    v ∈ block c G1.numVertex b ↔ b * c ≤ v ∧ v < min ((b + 1) * c) G1.numVertex := by
  have hlen := block_length hc hn hb (j := v - b * c)
  rw [block, List.length_range'] at hlen
  rw [block, List.mem_range'_1, Nat.add_one_mul]
  omega

theorem mem_blockCells (h : G1.Csr bound) (hc : 1 ≤ c) (hb : b < blockCount c G1.numVertex)
    (x : Nat) :
    x ∈ blockCells c G1 b ↔
      ∃ v, b * c ≤ v ∧ v < min ((b + 1) * c) G1.numVertex ∧ x ∈ G1.row v := by
  rw [blockCells_eq h hc hb, List.mem_flatMap]
  simp only [mem_block hc h.pos hb, and_assoc]

theorem first_iff (h : G1.Csr bound) (hc : 1 ≤ c) :
    0 < blockFrom c G1 1 ↔ ∃ v < min c G1.numVertex, G1.row v ≠ [] := by
  have hzero : blockFrom c G1 0 = 0 := by
    have hpos : 0 < blockCount c G1.numVertex := Nat.succ_pos _
    rw [blockFrom, if_pos hpos, Nat.zero_mul, h.zero]
  have hlen : (blockCells c G1 0).length = blockFrom c G1 1 := by
    rw [blockCells, slice_length, hzero, Nat.sub_zero]
  rw [← hlen, List.length_pos_iff_exists_mem]
  simp only [mem_blockCells h hc (Nat.succ_pos _), Nat.zero_mul, Nat.zero_le, true_and, Nat.zero_add,
    Nat.one_mul]
  constructor
  · intro hx
    obtain ⟨x, v, hv, hmem⟩ := hx
    exact ⟨v, hv, List.ne_nil_of_mem hmem⟩
  · intro hv
    obtain ⟨v, hv, hne⟩ := hv
    obtain ⟨x, hx⟩ := List.exists_mem_of_ne_nil _ hne
    exact ⟨x, v, hv, hx⟩

structure BlockRows (c : Nat) (G1 compG : Graph) : Prop where
  numVertex : compG.numVertex = blockCount c G1.numVertex
  zero : compG.VI[0]! = 0
  mono : ∀ b, b + 1 < compG.numVertex → compG.VI[b]! ≤ compG.VI[b + 1]!
  decreasing : ∀ b < compG.numVertex, (compG.row b).Pairwise (· > ·)
  neighbours : ∀ b < compG.numVertex, ∀ x, x ∈ compG.row b ↔
    ∃ v, b * c ≤ v ∧ v < min ((b + 1) * c) G1.numVertex ∧ x ∈ G1.row v
  total : compG.numEdges = ((List.range compG.numVertex).map fun b => (compG.row b).length).sum

theorem IsCompressed.blockRows (h : G1.Csr bound) (hc : 1 ≤ c)
    (hcomp : IsCompressed c G1 compG) : BlockRows c G1 compG where
  numVertex := hcomp.numVertex
  zero := (hcomp.csr h hc).1.zero
  mono := (hcomp.csr h hc).1.mono
  decreasing b hb := by
    rw [hcomp.laid.row_eq hb]
    exact neighbours_sorted c G1 b
  neighbours b hb x := by
    rw [hcomp.laid.row_eq hb, mem_neighbours]
    rw [hcomp.numVertex] at hb
    exact mem_blockCells h hc hb x
  total := by
    have hrows : (List.range compG.numVertex).map (fun b => (compG.row b).length) =
        (List.range compG.numVertex).map fun b => (GraphReorder.neighbours c G1 b).length :=
      List.map_congr_left fun b hb => by rw [hcomp.laid.row_eq (List.mem_range.mp hb)]
    rw [hrows, hcomp.laid.total, Graph.flat, List.length_flatMap]

/-- The compression loop stays inside its arrays and leaves the rows of the blocks exactly when
the first block has an edge and no sum of the sort of a block wraps around. -/
theorem compress_blockRows_iff (h : G1.Csr G1.numVertex) (hword : G1.EI.size < 2 ^ 32)
    (hc : 1 ≤ c) :
    (∃ compG, compress c G1 = some compG ∧ BlockRows c G1 compG) ↔
      (∃ v < min c G1.numVertex, G1.row v ≠ []) ∧
        ∀ b < blockCount c G1.numVertex,
          MidpointsFit (blockFrom c G1 b) (blockFrom c G1 (b + 1) - 1) := by
  rw [← first_iff h hc]
  constructor
  · intro hrun
    obtain ⟨compG, hrun, _⟩ := hrun
    have hfit := (compress_some h hc hword hrun).1
    exact ⟨hfit.first, hfit.midpoints⟩
  · intro hfit
    obtain ⟨hfirst, hmid⟩ := hfit
    obtain ⟨compG, hrun⟩ := (compress_iff h hc hword).mpr ⟨hfirst, hmid⟩
    exact ⟨compG, hrun, (compress_some h hc hword hrun).2.blockRows h hc⟩

end Rows

def forwardEdge : Graph where
  numVertex := 2
  numEdges := 1
  VI := #[0, 1, 1]
  EI := #[1]
  filtered_to_original := (Table.empty.assign 0 0).assign 1 1

theorem forwardEdge_csr : forwardEdge.Csr forwardEdge.numVertex := by decide

theorem compress_blockRows_forwardEdge : ∃ G1,
    readCsr ⟨false, false, false⟩ [.int 0, .int 1] Graph.unread = some G1 ∧
      ∃ compG, compress 1 G1 = some compG ∧ BlockRows 1 G1 compG := by
  refine ⟨forwardEdge, rfl, (compress_blockRows_iff forwardEdge_csr (by decide) le_rfl).mpr
    ⟨⟨0, by decide, by decide⟩, fun b hb => .of_lt ?_⟩⟩
  have hle := blockFrom_le forwardEdge_csr (le_refl 1) (b + 1)
  change _ ≤ 1 at hle
  omega

def backEdge : Graph where
  numVertex := 2
  numEdges := 1
  VI := #[0, 0, 1]
  EI := #[0]
  filtered_to_original := (Table.empty.assign 0 0).assign 1 1

/-- The upper bound of the empty block wraps around, and the sort leaves `EI`. -/
theorem backEdge_not_compressed : ∃ G1,
    readCsr ⟨false, false, false⟩ [.int 1, .int 0] Graph.unread = some G1 ∧ 1 ≤ G1.numVertex ∧
      ¬ ∃ compG, compress 1 G1 = some compG ∧ BlockRows 1 G1 compG := by
  refine ⟨backEdge, rfl, by decide, fun hrun => ?_⟩
  obtain ⟨compG, hrun, _⟩ := hrun
  have hnone : compress 1 backEdge = none := by decide
  rw [hnone] at hrun
  cases hrun

end GraphReorder
