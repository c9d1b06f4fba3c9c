import GraphReorder.Apply

/-! From an order of the blocks to an order of the vertices. -/
namespace GraphReorder
open Library

def expandBlock (CLSize numVertex compN clId : Nat) (st : Array Nat × Nat) :
    Option (Array Nat × Nat) :=
  let baseNode := clId * CLSize
  let numNodes := if clId = usub compN 1 then usub numVertex baseNode else CLSize
  forRange 0 numNodes (fun j st => do some (← store st.1 st.2 (baseNode + j), st.2 + 1)) st

def expand (CLSize numVertex compN : Nat) (nodeId : Array Nat) :
    Option (Array Nat × Array Nat) := do
  let (newNodeId, _) ← forRange 0 compN (fun i st => do
    expandBlock CLSize numVertex compN (← nodeId[i]?) st) (Array.replicate numVertex 0, 0)
  let newNodeMap ← forRange 0 numVertex (fun i newNodeMap => do
    store newNodeMap (← newNodeId[i]?) i) (Array.replicate numVertex 0)
  some (newNodeMap, newNodeId)

def blockCount (CLSize numVertex : Nat) : Nat := usub numVertex 1 / CLSize + 1

def block (CLSize numVertex b : Nat) : List Nat :=
  List.range' (b * CLSize)
    (if b = blockCount CLSize numVertex - 1 then numVertex - b * CLSize else CLSize)

section Blocks
variable {c n : Nat}

theorem blockCount_bounds (hc : 1 ≤ c) (hn : 1 ≤ n) :
    (blockCount c n - 1) * c < n ∧ n ≤ blockCount c n * c := by
  rw [blockCount, usub_of_le hn, Nat.add_sub_cancel, Nat.add_one_mul]
  have hle := Nat.div_mul_le_self (n - 1) c
  have hlt := Nat.lt_div_mul_add (a := n - 1) hc
  omega

theorem blockCount_le (hn : 1 ≤ n) : blockCount c n ≤ n := by
  rw [blockCount, usub_of_le hn]
  have hdiv := Nat.div_le_self (n - 1) c
  omega

theorem block_start_lt (hc : 1 ≤ c) (hn : 1 ≤ n) {b : Nat} (hb : b < blockCount c n) :
    b * c < n :=
  (Nat.mul_le_mul_right c (Nat.le_sub_one_of_lt hb)).trans_lt (blockCount_bounds hc hn).1

theorem block_length (hc : 1 ≤ c) (hn : 1 ≤ n) {b j : Nat} (hb : b < blockCount c n) :
    j < (block c n b).length ↔ j < c ∧ b * c + j < n := by
  have hbounds := blockCount_bounds hc hn
  rw [block, List.length_range']
  by_cases hl : b = blockCount c n - 1
  · have hlast : blockCount c n = b + 1 := by omega
    have hmul : blockCount c n * c = b * c + c := by rw [hlast, Nat.add_one_mul]
    rw [if_pos hl]
    omega
  · have hb' : b + 1 < blockCount c n := by omega
    have hnext := block_start_lt hc hn hb'
    rw [Nat.add_one_mul] at hnext
    rw [if_neg hl]
    omega

theorem blocks_front {k : Nat} (hk : k ≤ blockCount c n - 1) :
    (List.range k).flatMap (block c n) = List.range (k * c) := by
  induction k with
  | zero => simp
  | succ k ih =>
    rw [List.range_succ, List.flatMap_append, ih (by omega), List.flatMap_singleton, block,
      if_neg (by omega), Nat.add_one_mul, List.range_eq_range', List.range_eq_range']
    simpa using List.range'_append_1 (s := 0) (m := k * c) (n := c)

theorem blocks_all (hc : 1 ≤ c) (hn : 1 ≤ n) :
    (List.range (blockCount c n)).flatMap (block c n) = List.range n := by
  have hlt := (blockCount_bounds hc hn).1
  have hlast : blockCount c n = blockCount c n - 1 + 1 := rfl
  rw [hlast, List.range_succ, List.flatMap_append, blocks_front le_rfl, List.flatMap_singleton,
    block, if_pos rfl, List.range_eq_range', List.range_eq_range']
  simpa [Nat.add_sub_of_le hlt.le] using
    List.range'_append_1 (s := 0) (m := (blockCount c n - 1) * c) (n := n - (blockCount c n - 1) * c)

end Blocks

section Expand
variable {c n : Nat} {nodeMap nodeId : Array Nat}

def placedBlock (c n : Nat) (nodeId : Array Nat) (i : Nat) : List Nat := block c n nodeId[i]!

theorem flat_placedBlock (hc : 1 ≤ c) (hn : 1 ≤ n) (ho : Order (blockCount c n) nodeMap nodeId) :
    (Graph.flat (placedBlock c n nodeId) (blockCount c n)).Perm (List.range n) := by
  have hperm := ho.perm_range.flatMap_right (block c n)
  rw [List.flatMap_map, blocks_all hc hn] at hperm
  exact hperm

structure Expanded (c n : Nat) (nodeId : Array Nat) (done : List Nat) (st : Array Nat × Nat) :
    Prop where
  size : st.1.size = n
  count : st.2 = done.length
  cells : slice st.1 0 done.length = done

theorem expandCell_step {done : List Nat} {x : Nat} {st : Array Nat × Nat}
    (h : Expanded c n nodeId done st) (hlt : done.length < n) :
    ∃ st', (do some (← store st.1 st.2 x, st.2 + 1)) = some st' ∧
      Expanded c n nodeId (done ++ [x]) st' := by
  have hsz : st.2 < st.1.size := by rw [h.size, h.count]; exact hlt
  refine ⟨(st.1.setIfInBounds st.2 x, st.2 + 1), by rw [store_eq hsz]; rfl, by simpa using h.size,
    by simp [h.count], ?_⟩
  have hcount := h.count
  rw [List.length_append, List.length_singleton, slice_succ _ (Nat.zero_le _), ← hcount,
    put_get_self hsz, slice_put_outside (.inr le_rfl), hcount, h.cells]

theorem expandBlock_step (hc : 1 ≤ c) (hn : 1 ≤ n) {b : Nat} (hb : b < blockCount c n)
    {done : List Nat} {st : Array Nat × Nat} (h : Expanded c n nodeId done st)
    (hroom : done.length + (block c n b).length ≤ n) :
    ∃ st', expandBlock c n (blockCount c n) b st = some st' ∧
      Expanded c n nodeId (done ++ block c n b) st' := by
  have hstart := block_start_lt hc hn hb
  have hone : usub (blockCount c n) 1 = blockCount c n - 1 := usub_of_le (Nat.le_add_left 1 _)
  simp only [expandBlock, hone, usub_of_le hstart.le]
  rw [block, List.length_range'] at hroom
  rw [block]
  generalize (if b = blockCount c n - 1 then n - b * c else c) = len at hroom
  refine forRange_rule (fun j st => Expanded c n nodeId (done ++ List.range' (b * c) j) st)
    (Nat.zero_le len) (by simpa using h) fun j st _ hj hI => ?_
  rw [List.range'_1_concat, ← List.append_assoc]
  exact expandCell_step hI (by simp; omega)

structure Expansion (c n : Nat) (nodeMap nodeId newNodeMap newNodeId : Array Nat) : Prop where
  blocks : newNodeId.toList = Graph.flat (placedBlock c n nodeId) (blockCount c n)
  order : Order n newNodeMap newNodeId
  consecutive : ∀ b < blockCount c n, ∀ j < c, b * c + j < n →
    newNodeMap[b * c + j]! = newNodeMap[b * c]! + j
  first : nodeMap[0]! = 0 → newNodeMap[0]! = 0

/-- Where the vertices of a block end up: behind the blocks before it, in order. -/
theorem Expanded.place {newNodeId newNodeMap : Array Nat} {count : Nat} (hc : 1 ≤ c) (hn : 1 ≤ n)
    (ho : Order (blockCount c n) nodeMap nodeId)
    (hst : Expanded c n nodeId (Graph.flat (placedBlock c n nodeId) (blockCount c n))
      (newNodeId, count))
    (hinv : Inverse n (newNodeMap[·]!) (newNodeId[·]!)) {b j : Nat} (hb : b < blockCount c n)
    (hj : j < c) (hjn : b * c + j < n) :
    newNodeMap[b * c + j]! = (Graph.flat (placedBlock c n nodeId) nodeMap[b]!).length + j := by
  have htotal := (flat_placedBlock hc hn ho).length_eq
  rw [List.length_range] at htotal
  have hpos : nodeMap[b]! < blockCount c n := ho.inverse.maps b hb
  have hid : nodeId[nodeMap[b]!]! = b := ho.inverse.left b hb
  have hlen := (block_length hc hn hb).mpr ⟨hj, hjn⟩
  have hrow := Graph.flat_row hst.cells hpos
  have hmono := Graph.flat_length_mono (placedBlock c n nodeId) (Nat.succ_le_of_lt hpos)
  rw [htotal] at hmono
  rw [Graph.flat_succ, List.length_append] at hrow hmono
  rw [placedBlock, hid] at hrow hmono
  have hget := congrArg (fun l => l[j]?) hrow
  have hcell : newNodeId[(Graph.flat (placedBlock c n nodeId) nodeMap[b]!).length + j]! =
      b * c + j := by
    simpa [slice, block, List.getElem?_range', hlen, Nat.lt_of_lt_of_eq hlen List.length_range']
      using hget
  rw [← hcell]
  exact hinv.right _ (by omega)

theorem expand_spec (hc : 1 ≤ c) (hn : 1 ≤ n) (ho : Order (blockCount c n) nodeMap nodeId) :
    ∃ newNodeMap newNodeId, expand c n (blockCount c n) nodeId = some (newNodeMap, newNodeId) ∧
      Expansion c n nodeMap nodeId newNodeMap newNodeId := by
  have hperm := flat_placedBlock hc hn ho
  have htotal := hperm.length_eq
  rw [List.length_range] at htotal
  obtain ⟨st, hrun, hst⟩ : ∃ st, forRange 0 (blockCount c n) (fun i st => do
      expandBlock c n (blockCount c n) (← nodeId[i]?) st) (Array.replicate n 0, 0) = some st ∧
      Expanded c n nodeId (Graph.flat (placedBlock c n nodeId) (blockCount c n)) st := by
    refine forRange_rule (fun i st =>
      Expanded c n nodeId (Graph.flat (placedBlock c n nodeId) i) st) (Nat.zero_le _)
      ⟨by simp, rfl, by simp [Graph.flat, slice_empty]⟩ fun i st _ hi hI => ?_
    have hmono := Graph.flat_length_mono (placedBlock c n nodeId) (Nat.succ_le_of_lt hi)
    rw [Graph.flat_succ, List.length_append, htotal] at hmono
    rw [read_eq (by rw [ho.sizeId]; exact hi), Graph.flat_succ]
    exact expandBlock_step hc hn (ho.inverse.maps' i hi) hI hmono
  obtain ⟨newNodeId, count⟩ := st
  have hsize : newNodeId.size = n := hst.size
  have hcells : slice newNodeId 0 (Graph.flat (placedBlock c n nodeId) (blockCount c n)).length =
      Graph.flat (placedBlock c n nodeId) (blockCount c n) := hst.cells
  have hblocks : newNodeId.toList = Graph.flat (placedBlock c n nodeId) (blockCount c n) := by
    rw [← slice_all, hsize]
    rwa [htotal] at hcells
  have hlist : newNodeId.toList.Perm (List.range n) := by
    rw [hblocks]
    exact hperm
  obtain ⟨_, hlt, hinj⟩ := injective_of_perm hlist
  obtain ⟨newNodeMap, hmap, hms, hinv⟩ := forRange_invert (a := Array.replicate n 0)
    (f := fun i => newNodeId[i]?) (g := (newNodeId[·]!)) (by simp)
    (fun i hi => read_eq (by omega)) hlt hinj
  refine ⟨newNodeMap, newNodeId, ?_, hblocks, ⟨hms, hsize, hinv⟩, fun b hb j hj hjn => ?_, fun h0 => ?_⟩
  · simp only [expand, hrun, hmap, some_bind]
  · have hstart := hst.place hc hn ho hinv hb hc (block_start_lt hc hn hb)
    rw [Nat.add_zero, Nat.add_zero] at hstart
    rw [hst.place hc hn ho hinv hb hj hjn, hstart]
  · have hstart := hst.place hc hn ho hinv (Nat.succ_pos _) hc (by omega)
    rw [Nat.zero_mul, Nat.add_zero, Nat.add_zero, h0] at hstart
    exact hstart

end Expand

end GraphReorder
