import Mathlib.Data.Finset.Dedup
import GraphReorder.EdgeList
import GraphReorder.Library.Permutation

/-! Applying an order: keeping vertex 0 in place, the rows in their new order, and what is
written for them. -/
namespace GraphReorder
open Library

/-- `for(i = 1; i < bound; ++i) if (nodeMap[i] == 0) ... break`: where it stops, and whether
by finding a zero. -/
def scanZero (nodeMap : Array Nat) (bound : Nat) : Nat → Nat × Bool → Option (Nat × Bool) :=
  loop fun (i, _) => do
    if i < bound then
      if (← nodeMap[i]?) = 0 then return .inr (i, true)
      return .inl (i + 1, false)
    return .inr (i, false)

/-- `if (maintain && nodeMap[0] != 0) { ... }`: vertex 0 and the one at position 0 change
places. -/
def keepZero (bound : Nat) (nodeMap nodeId : Array Nat) : Option (Array Nat × Array Nat) := do
  let zeros_map ← nodeMap[0]?
  if zeros_map = 0 then return (nodeMap, nodeId)
  let nodeMap ← store nodeMap 0 0
  let nodeId ← store nodeId 0 0
  let (i, found) ← scanZero nodeMap bound (bound + 1) (1, false)
  if found then
    return (← store nodeMap i zeros_map, ← store nodeId zeros_map i)
  return (nodeMap, nodeId)

def maintainZero (maintain : Bool) (bound : Nat) (nodeMap nodeId : Array Nat) :
    Option (Array Nat × Array Nat) :=
  if maintain then keepZero bound nodeMap nodeId else some (nodeMap, nodeId)

/-- `G2.EI[j] = nodeMap[G1.EI[parentStartId + tempId]]; tempId++`. -/
def copyCell (G1 : Graph) (nodeMap : Array Nat) (parentStartId j : Nat) (st : Array Nat × Nat) :
    Option (Array Nat × Nat) := do
  let EI ← store st.1 j (← nodeMap[← G1.EI[parentStartId + st.2]?]?)
  some (EI, st.2 + 1)

/-- The inner loop of the rebuilding: the row that begins at `parentStartId` goes, renamed, to
the cells from `lo` on. -/
def copyRow (G1 : Graph) (nodeMap : Array Nat) (parentStartId lo hi : Nat) (EI : Array Nat) :
    Option (Array Nat) := do
  let (EI, _) ← forRange lo hi (copyCell G1 nodeMap parentStartId) (EI, 0)
  some EI

/-- The body of the rebuilding loop. `rowEnd` is how `main` finds the end of a row of `G1`. -/
def rebuildRow (rowEnd : Nat → Option Nat) (G1 : Graph) (nodeId nodeMap : Array Nat) (i : Nat)
    (st : Array Nat × Array Nat) : Option (Array Nat × Array Nat) := do
  let prevNodeId ← nodeId[i - 1]?
  let parentStartId ← G1.VI[prevNodeId]?
  let parentEndId ← rowEnd prevNodeId
  let VI ← store st.1 i ((← st.1[i - 1]?) + usub parentEndId parentStartId)
  let EI ← copyRow G1 nodeMap parentStartId (← VI[i - 1]?) (← VI[i]?) st.2
  some (VI, EI)

def rebuild (rowEnd : Nat → Option Nat) (G1 G2 : Graph) (nodeId nodeMap : Array Nat) :
    Option Graph := do
  let VI ← store G2.VI 0 0
  let (VI, EI) ← forRange 1 G2.numVertex (rebuildRow rowEnd G1 nodeId nodeMap) (VI, G2.EI)
  let prevNodeId ← nodeId[usub G2.numVertex 1]?
  let parentStartId ← G1.VI[prevNodeId]?
  let EI ← copyRow G1 nodeMap parentStartId (← VI[usub G2.numVertex 1]?) G2.numEdges EI
  some { G2 with VI, EI }

section KeepZero
variable {n bound : Nat} {nodeMap nodeId : Array Nat}

theorem scanZero_spec {w : Nat} (hpos : 1 ≤ w) (hw : w < nodeMap.size) (hb : w < bound)
    (hzero : nodeMap[w]! = 0) (hfirst : ∀ i, 1 ≤ i → i < w → nodeMap[i]! ≠ 0) :
    scanZero nodeMap bound (bound + 1) (1, false) = some (w, true) := by
  obtain ⟨r, hrun, hr⟩ : ∃ r, scanZero nodeMap bound (bound + 1) (1, false) = some r ∧
      r = (w, true) := by
    refine loop_rule (fun r : Nat × Bool => 1 ≤ r.1 ∧ r.1 ≤ w) _ (fun r => w - r.1) ?_
      ⟨le_rfl, hpos⟩ (by omega)
    intro r hI
    obtain ⟨i, f⟩ := r
    simp only at hI
    have hi : i < nodeMap.size := by omega
    by_cases hiw : i = w
    · subst hiw
      exact .inr ⟨(i, true), by simp [hb, read_eq hi, hzero], rfl⟩
    · have hne := hfirst i hI.1 (by omega)
      refine .inl ⟨(i + 1, false), by simp [show i < bound by omega, read_eq hi, hne], ?_, ?_⟩
      · change 1 ≤ i + 1 ∧ i + 1 ≤ w
        omega
      · change w - (i + 1) < w - i
        omega
  rw [hrun, hr]

theorem keepZero_spec (hpos : 1 ≤ n) (hb : n ≤ bound) (hm : nodeMap.size = n)
    (hi : nodeId.size = n) (h : Inverse n (nodeMap[·]!) (nodeId[·]!)) :
    ∃ nodeMap' nodeId', keepZero bound nodeMap nodeId = some (nodeMap', nodeId') ∧
      nodeMap'.size = n ∧ nodeId'.size = n ∧ Inverse n (nodeMap'[·]!) (nodeId'[·]!) ∧
      nodeMap'[0]! = 0 := by
  have h0 : 0 < nodeMap.size := by omega
  have h0' : 0 < nodeId.size := by omega
  by_cases hz : nodeMap[0]! = 0
  · exact ⟨nodeMap, nodeId, by simp [keepZero, read_eq h0, hz], hm, hi, h, hz⟩
  · generalize hzm : nodeMap[0]! = z at hz
    generalize hwd : nodeId[0]! = w
    have hw : w < n := by rw [← hwd]; exact h.maps' 0 hpos
    have hmapw : nodeMap[w]! = 0 := by rw [← hwd]; exact h.right 0 hpos
    have hw0 : w ≠ 0 := by
      intro he
      rw [he, hzm] at hmapw
      exact hz hmapw
    have hzn : z < n := by rw [← hzm]; exact h.maps 0 hpos
    have hsize : (nodeMap.setIfInBounds 0 0).size = n := by simpa using hm
    have hscan : scanZero (nodeMap.setIfInBounds 0 0) bound (bound + 1) (1, false) =
        some (w, true) := by
      refine scanZero_spec (by omega) (by omega) (by omega) ?_ fun i hi1 hiw => ?_
      · rw [put_get_ne hw0, hmapw]
      · rw [put_get_ne (by omega)]
        intro he
        have hiw' : i = w := h.injective (by omega) hw (he.trans hmapw.symm)
        omega
    have h1 : w < (nodeMap.setIfInBounds 0 0).size := by omega
    have h2 : z < (nodeId.setIfInBounds 0 0).size := by
      rw [Array.size_setIfInBounds]
      omega
    refine ⟨(nodeMap.setIfInBounds 0 0).setIfInBounds w z,
      (nodeId.setIfInBounds 0 0).setIfInBounds z w, ?_, by simpa using hm, by simpa using hi,
      h.swap hpos hpos (fun i => ?_) (fun i => ?_), ?_⟩
    · simp only [keepZero, read_eq h0, hzm, some_bind, hz, if_false, store_eq h0, store_eq h0',
        hscan, if_true, store_eq h1, store_eq h2]
      rfl
    · rw [put_get h1, put_get h0, hwd, hzm]
    · rw [put_get h2, put_get h0', hwd, hzm]
    · rw [put_get_ne (Ne.symm hw0), put_get_self h0]

end KeepZero

structure Order (n : Nat) (nodeMap nodeId : Array Nat) : Prop where
  sizeMap : nodeMap.size = n
  sizeId : nodeId.size = n
  inverse : Inverse n (nodeMap[·]!) (nodeId[·]!)

theorem maintainZero_spec (maintain : Bool) {n bound : Nat} {nodeMap nodeId : Array Nat}
    (hpos : 1 ≤ n) (hb : n ≤ bound) (ho : Order n nodeMap nodeId) :
    ∃ nodeMap' nodeId', maintainZero maintain bound nodeMap nodeId = some (nodeMap', nodeId') ∧
      Order n nodeMap' nodeId' ∧ (maintain = true → nodeMap'[0]! = 0) := by
  cases maintain with
  | false => exact ⟨nodeMap, nodeId, rfl, ho, fun h => absurd h Bool.false_ne_true⟩
  | true =>
    obtain ⟨nodeMap', nodeId', hkeep, hsm, hsi, hinv, h0⟩ :=
      keepZero_spec hpos hb ho.sizeMap ho.sizeId ho.inverse
    exact ⟨nodeMap', nodeId', hkeep, ⟨hsm, hsi, hinv⟩, fun _ => h0⟩

def movedRow (G1 : Graph) (nodeId nodeMap : Array Nat) (k : Nat) : List Nat :=
  (G1.row nodeId[k]!).map (nodeMap[·]!)

section Rebuild
variable {G1 G2 : Graph} {nodeId nodeMap : Array Nat} {rowEnd : Nat → Option Nat}

theorem Order.perm_range {n : Nat} (h : Order n nodeMap nodeId) :
    ((List.range n).map (nodeId[·]!)).Perm (List.range n) := by
  refine List.perm_of_nodup_nodup_toFinset_eq ?_ List.nodup_range ?_
  · refine List.Nodup.map_on (fun i hi j hj he => ?_) List.nodup_range
    exact h.inverse.symm.injective (List.mem_range.mp hi) (List.mem_range.mp hj) he
  · ext k
    simp only [List.mem_toFinset, List.mem_map, List.mem_range]
    constructor
    · intro hk
      obtain ⟨i, hi, rfl⟩ := hk
      exact h.inverse.maps' i hi
    · intro hk
      exact ⟨nodeMap[k]!, h.inverse.maps k hk, h.inverse.left k hk⟩

theorem flat_movedRow_length (h1 : G1.Csr G1.numVertex) (ho : Order G1.numVertex nodeMap nodeId) :
    (Graph.flat (movedRow G1 nodeId nodeMap) G1.numVertex).length = G1.numEdges := by
  have hperm := (ho.perm_range.flatMap_right fun v => (G1.row v).map (nodeMap[·]!)).length_eq
  rw [List.flatMap_map] at hperm
  have hflat := congrArg List.length h1.flat
  rw [slice_length, Nat.sub_zero] at hflat
  rw [← hflat]
  refine hperm.trans ?_
  simp [List.length_flatMap]

structure Copied (G1 : Graph) (nodeMap : Array Nat) (start lo : Nat) (EI : Array Nat) (j : Nat)
    (st : Array Nat × Nat) : Prop where
  size : st.1.size = EI.size
  tempId : st.2 = j - lo
  cells : slice st.1 0 j =
    slice EI 0 lo ++ (slice G1.EI start (start + (j - lo))).map (nodeMap[·]!)

theorem copyCell_step (h1 : G1.Csr G1.numVertex) (hm : nodeMap.size = G1.numVertex)
    {v lo hi j : Nat} (hv : v < G1.numVertex) {EI : Array Nat} {st : Array Nat × Nat} (hl : lo ≤ j)
    (hstop : G1.VI[v]! + (hi - lo) = G1.stop v) (hhi : hi ≤ EI.size) (hj : j < hi)
    (h : Copied G1 nodeMap G1.VI[v]! lo EI j st) :
    ∃ st', copyCell G1 nodeMap G1.VI[v]! j st = some st' ∧
      Copied G1 nodeMap G1.VI[v]! lo EI (j + 1) st' := by
  have hcell : G1.VI[v]! + (j - lo) < G1.EI.size := h1.stop_lt_size hv (by omega)
  have hentry : G1.EI[G1.VI[v]! + (j - lo)]! < nodeMap.size := by
    rw [hm]
    exact h1.entries _ (by have := h1.stop_le hv; omega)
  have hsz : j < st.1.size := by rw [h.size]; omega
  have hnext : j + 1 - lo = j - lo + 1 := by omega
  refine ⟨(st.1.setIfInBounds j nodeMap[G1.EI[G1.VI[v]! + (j - lo)]!]!, st.2 + 1), ?_, by
    simpa using h.size, ?_, ?_⟩
  · simp only [copyCell, h.tempId, read_eq hcell, read_eq hentry, store_eq hsz, some_bind]
  · change st.2 + 1 = _
    rw [h.tempId, hnext]
  · rw [slice_succ _ (Nat.zero_le j), put_get_self hsz, slice_put_outside (.inr le_rfl), h.cells,
      hnext, ← Nat.add_assoc, slice_succ _ (Nat.le_add_right _ _), List.map_append,
      List.append_assoc]
    rfl

theorem copyRow_spec (h1 : G1.Csr G1.numVertex) (hm : nodeMap.size = G1.numVertex) {v lo hi : Nat}
    (hv : v < G1.numVertex) (hlen : lo + (G1.row v).length = hi) (EI : Array Nat)
    (hhi : hi ≤ EI.size) :
    ∃ EI', copyRow G1 nodeMap G1.VI[v]! lo hi EI = some EI' ∧ EI'.size = EI.size ∧
      slice EI' 0 hi = slice EI 0 lo ++ (G1.row v).map (nodeMap[·]!) := by
  have hle := h1.start_le_stop hv
  rw [Graph.Csr.row_length] at hlen
  have hlohi : lo ≤ hi := by omega
  obtain ⟨st, hrun, hst⟩ := forRange_rule (Copied G1 nodeMap G1.VI[v]! lo EI)
    hlohi (b := (EI, 0)) ⟨rfl, by simp, by simp [slice_empty]⟩
    fun j st hl hj hI => copyCell_step h1 hm hv hl (by omega) hhi hj hI
  refine ⟨st.1, ?_, hst.size, ?_⟩
  · rw [copyRow, hrun]
    rfl
  · have hstop : G1.VI[v]! + (hi - lo) = G1.stop v := by omega
    rw [hst.cells, hstop]
    rfl

theorem copyRow_moved (h1 : G1.Csr G1.numVertex) (ho : Order G1.numVertex nodeMap nodeId) {k : Nat}
    (hk : k < G1.numVertex) {R : Nat → List Nat} (hR : movedRow G1 nodeId nodeMap = R)
    {EI : Array Nat} (hsize : G1.numEdges ≤ EI.size)
    (hcells : slice EI 0 (Graph.flat R k).length = Graph.flat R k) :
    (Graph.flat R k).length + (G1.row nodeId[k]!).length = (Graph.flat R (k + 1)).length ∧
    ∃ EI', copyRow G1 nodeMap G1.VI[nodeId[k]!]! (Graph.flat R k).length
        (Graph.flat R (k + 1)).length EI = some EI' ∧ EI'.size = EI.size ∧
      slice EI' 0 (Graph.flat R (k + 1)).length = Graph.flat R (k + 1) := by
  have hflat := Graph.flat_succ R k
  have hRk : R k = (G1.row nodeId[k]!).map (nodeMap[·]!) := by
    rw [← hR]
    rfl
  have hlen : (Graph.flat R k).length + (G1.row nodeId[k]!).length =
      (Graph.flat R (k + 1)).length := by
    rw [hflat, List.length_append, hRk, List.length_map]
  have hfit : (Graph.flat R (k + 1)).length ≤ EI.size := by
    have htotal := flat_movedRow_length h1 ho
    have hmono := Graph.flat_length_mono (movedRow G1 nodeId nodeMap) hk
    rw [hR] at htotal hmono
    exact hmono.trans (htotal.trans_le hsize)
  obtain ⟨EI', hcopy, hs', hslice⟩ := copyRow_spec h1 ho.sizeMap (ho.inverse.maps' k hk) hlen EI hfit
  exact ⟨hlen, EI', hcopy, hs', by rw [hslice, hcells, ← hRk, hflat]⟩

/-- The rows before position `i` are rebuilt, and the start of the row at `i` is not yet known. -/
structure Rebuilt (G1 G2 : Graph) (R : Nat → List Nat) (i : Nat) (st : Array Nat × Array Nat) :
    Prop where
  sizeVI : st.1.size = G2.VI.size
  sizeEI : st.2.size = G2.EI.size
  offsets : ∀ k < i, st.1[k]! = (Graph.flat R k).length
  cells : slice st.2 0 (Graph.flat R (i - 1)).length = Graph.flat R (i - 1)

theorem rebuildRow_step (h1 : G1.Csr G1.numVertex) (ho : Order G1.numVertex nodeMap nodeId)
    (hVI : G1.numVertex ≤ G2.VI.size) (hEI : G1.numEdges ≤ G2.EI.size)
    (hend : ∀ v < G1.numVertex, rowEnd v = some (G1.stop v)) {i : Nat} {st : Array Nat × Array Nat}
    (hi : 1 ≤ i) (hin : i < G1.numVertex)
    (h : Rebuilt G1 G2 (movedRow G1 nodeId nodeMap) i st) :
    ∃ st', rebuildRow rowEnd G1 nodeId nodeMap i st = some st' ∧
      Rebuilt G1 G2 (movedRow G1 nodeId nodeMap) (i + 1) st' := by
  obtain ⟨k, rfl⟩ : ∃ k, i = k + 1 := ⟨i - 1, by omega⟩
  have hk : k < G1.numVertex := by omega
  generalize hR : movedRow G1 nodeId nodeMap = R at *
  have hv : nodeId[k]! < G1.numVertex := ho.inverse.maps' k hk
  have hlen : (G1.row nodeId[k]!).length = G1.stop nodeId[k]! - G1.VI[nodeId[k]!]! :=
    Graph.Csr.row_length _
  have hsz : k + 1 < st.1.size := by rw [h.sizeVI]; omega
  have hoff := h.offsets k (Nat.lt_succ_self k)
  have hcells := h.cells
  rw [Nat.add_sub_cancel] at hcells
  obtain ⟨hflen, EI', hcopy, hs', hslice⟩ := copyRow_moved h1 ho hk hR
    (by rw [h.sizeEI]; exact hEI) hcells
  refine ⟨(st.1.setIfInBounds (k + 1) (Graph.flat R (k + 1)).length, EI'), ?_, ?_, ?_, ?_, ?_⟩
  · have hidx : k < nodeId.size := by rw [ho.sizeId]; omega
    have hsz' : k < st.1.size := by omega
    have hput : (st.1.setIfInBounds (k + 1) (Graph.flat R (k + 1)).length)[k]? =
        some (Graph.flat R k).length := by
      rw [read_eq (by rw [Array.size_setIfInBounds]; omega), put_get_ne (by omega), hoff]
    have hput' : (st.1.setIfInBounds (k + 1) (Graph.flat R (k + 1)).length)[k + 1]? =
        some (Graph.flat R (k + 1)).length := by
      rw [read_eq (by rw [Array.size_setIfInBounds]; omega), put_get_self hsz]
    simp only [rebuildRow, Nat.add_sub_cancel, read_eq hidx, h1.read_start hv, hend _ hv,
      read_eq hsz', hoff, usub_of_le (h1.start_le_stop hv), ← hlen, hflen, store_eq hsz, hput,
      hput', hcopy, some_bind]
  · simpa using h.sizeVI
  · rw [← h.sizeEI]
    exact hs'
  · intro j hj
    rw [put_get hsz]
    split_ifs with hjk
    · rw [hjk]
    · exact h.offsets j (by omega)
  · change slice EI' 0 _ = _
    rw [Nat.add_sub_cancel, hslice]

theorem rebuild_spec (h1 : G1.Csr G1.numVertex) (ho : Order G1.numVertex nodeMap nodeId)
    (hn : G2.numVertex = G1.numVertex) (hm : G2.numEdges = G1.numEdges)
    (hVI : G1.numVertex ≤ G2.VI.size) (hEI : G1.numEdges ≤ G2.EI.size)
    (hend : ∀ v < G1.numVertex, rowEnd v = some (G1.stop v)) :
    ∃ G, rebuild rowEnd G1 G2 nodeId nodeMap = some G ∧ G.numVertex = G1.numVertex ∧
      G.numEdges = G1.numEdges ∧ G.weights = G2.weights ∧
      Graph.Laid (movedRow G1 nodeId nodeMap) G := by
  have hpos := h1.pos
  have htotal := flat_movedRow_length h1 ho
  generalize hR : movedRow G1 nodeId nodeMap = R at *
  have h0 : 0 < G2.VI.size := by omega
  obtain ⟨st, hrun, hst⟩ := forRange_rule (Rebuilt G1 G2 R) hpos
    (b := (G2.VI.setIfInBounds 0 0, G2.EI))
    ⟨by simp, rfl, fun k hk => by
      obtain rfl : k = 0 := by omega
      exact put_get_self h0 0, by simp [Graph.flat, slice_empty]⟩
    fun i st hi hin hI => by
      subst hR
      exact rebuildRow_step h1 ho hVI hEI hend hi hin hI
  obtain ⟨VI, EI⟩ := st
  have hk : G1.numVertex - 1 < G1.numVertex := Nat.sub_one_lt_of_lt hpos
  have hv : nodeId[G1.numVertex - 1]! < G1.numVertex := ho.inverse.maps' _ hk
  have hsEI : EI.size = G2.EI.size := hst.sizeEI
  have hsVI : VI.size = G2.VI.size := hst.sizeVI
  have hcells : slice EI 0 (Graph.flat R (G1.numVertex - 1)).length = _ := hst.cells
  obtain ⟨_, EI', hcopy, hs', hslice⟩ := copyRow_moved h1 ho hk hR (by rw [hsEI]; exact hEI) hcells
  rw [Nat.sub_add_cancel hpos, htotal] at hcopy hslice
  have hoff : VI[G1.numVertex - 1]! = (Graph.flat R (G1.numVertex - 1)).length :=
    hst.offsets _ (by omega)
  have hidx : G1.numVertex - 1 < nodeId.size := by
    rw [ho.sizeId]
    omega
  have hidx' : G1.numVertex - 1 < VI.size := by omega
  refine ⟨{ G2 with VI, EI := EI' }, ?_, hn, hm, rfl, ?_, ?_, ?_, ?_, ?_⟩
  · simp only [rebuild, store_eq h0, hn, hm, hrun, usub_of_le hpos, read_eq hidx, h1.read_start hv,
      read_eq hidx', hoff, hcopy, some_bind]
  · change G2.numVertex ≤ VI.size
    omega
  · change G2.numEdges ≤ EI'.size
    omega
  · intro k hk
    exact hst.offsets k (by rw [← hn]; exact hk)
  · change G2.numEdges = (Graph.flat R G2.numVertex).length
    rw [hn, hm, htotal]
  · change slice EI' 0 G2.numEdges = Graph.flat R G2.numVertex
    rw [hn, hm, hslice]

theorem Graph.Laid.moved_csr {G : Graph} (h1 : G1.Csr G1.numVertex)
    (ho : Order G1.numVertex nodeMap nodeId) (hn : G.numVertex = G1.numVertex)
    (hm : G.numEdges = G1.numEdges) (h : Graph.Laid (movedRow G1 nodeId nodeMap) G) :
    G.Csr G.numVertex := by
  refine h.csr (by rw [hn]; exact h1.pos) (fun v hv x hx => ?_) (by rw [hn]; exact h1.vertexWord)
    (by rw [hm]; exact h1.edgeWord)
  obtain ⟨y, hy, rfl⟩ := List.mem_map.mp hx
  rw [hn] at hv ⊢
  exact ho.inverse.maps y (h1.row_lt (ho.inverse.maps' v hv) hy)

theorem rebuilt_edges {G : Graph} (ho : Order G1.numVertex nodeMap nodeId)
    (hn : G.numVertex = G1.numVertex) (h : Graph.Laid (movedRow G1 nodeId nodeMap) G) :
    G.edges.Perm (G1.edges.map fun e => (nodeMap[e.1]!, nodeMap[e.2]!)) := by
  have hrows : G.edges = (List.range G1.numVertex).flatMap fun k =>
      (G1.row nodeId[k]!).map fun x => (nodeMap[nodeId[k]!]!, nodeMap[x]!) := by
    rw [Graph.edges, hn]
    refine List.flatMap_congr fun k hk => ?_
    have hk' := List.mem_range.mp hk
    have hinv : nodeMap[nodeId[k]!]! = k := ho.inverse.right k hk'
    rw [h.row_eq (by rw [hn]; exact hk'), movedRow, List.map_map, hinv]
    rfl
  have hperm := ho.perm_range.flatMap_right fun v =>
    (G1.row v).map fun x => (nodeMap[v]!, nodeMap[x]!)
  rw [List.flatMap_map] at hperm
  have hedges : (G1.edges.map fun e => (nodeMap[e.1]!, nodeMap[e.2]!)) =
      (List.range G1.numVertex).flatMap fun v =>
        (G1.row v).map fun x => (nodeMap[v]!, nodeMap[x]!) := by
    rw [Graph.edges, List.map_flatMap]
    simp [Function.comp_def]
  rw [hrows, hedges]
  exact hperm

end Rebuild

section Write
variable {G : Graph} {flags : Flags} {nodeId nodeMap : Array Nat}

def weightOf (G : Graph) (nodeId : Array Nat) (s d : Nat) : Nat :=
  (G.weights.find? (getMapKey nodeId[s]! nodeId[d]!)).getD default

def endpoints (indegree : Bool) (e : Nat × Nat) : Nat × Nat :=
  if indegree then (e.2, e.1) else e

def lineOf (flags : Flags) (weight : Nat → Nat → Nat) (e : Nat × Nat) : Line :=
  ⟨ofWord e.1, ofWord e.2, if flags.weighted then some (ofWord (weight e.1 e.2)) else none⟩

structure Written (flags : Flags) (G : Graph) (nodeId : Array Nat) (done : List (Nat × Nat))
    (out : List Line × Table Key Nat) : Prop where
  lines : out.1 = done.map fun e => lineOf flags (weightOf G nodeId) (endpoints flags.indegree e)
  table : ∀ k, (out.2.find? k).getD default = (G.weights.find? k).getD default

theorem writeEdge_step {mapToNode : Array Nat} (hs : mapToNode.size = G.numVertex)
    (hmap : ∀ p < G.numVertex, mapToNode[p]! = nodeId[p]!) {i e : Nat} (hi : i < G.numVertex)
    (he : e < G.numVertex) {done : List (Nat × Nat)} {out : List Line × Table Key Nat}
    (h : Written flags G nodeId done out) :
    ∃ out', writeEdge flags mapToNode i e out = some out' ∧
      Written flags G nodeId (done ++ [(i, e)]) out' := by
  have hread (p : Nat) (hp : p < G.numVertex) : mapToNode[p]? = some nodeId[p]! := by
    rw [read_eq (by omega), hmap p hp]
  have hsd : (endpoints flags.indegree (i, e)).1 < G.numVertex ∧
      (endpoints flags.indegree (i, e)).2 < G.numVertex := by
    cases hf : flags.indegree <;> simp [endpoints, hi, he]
  have hpair : (if flags.indegree then e else i) = (endpoints flags.indegree (i, e)).1 ∧
      (if flags.indegree then i else e) = (endpoints flags.indegree (i, e)).2 := by
    cases hf : flags.indegree <;> simp [endpoints]
  generalize hp : endpoints flags.indegree (i, e) = p at hsd hpair
  refine ⟨(out.1 ++ [lineOf flags (weightOf G nodeId) p],
    (out.2.access (getMapKey nodeId[p.1]! nodeId[p.2]!)).2), ?_, ?_, fun k => ?_⟩
  · have hw : (out.2.access (getMapKey nodeId[p.1]! nodeId[p.2]!)).1 =
        weightOf G nodeId p.1 p.2 := by
      rw [Table.access_fst, h.table]
      rfl
    simp only [writeEdge, hpair, hread _ hsd.1, hread _ hsd.2, some_bind, hw]
    rfl
  · change out.1 ++ _ = _
    rw [h.lines, List.map_append, List.map_singleton, hp]
  · change ((out.2.access _).2.find? k).getD default = _
    rw [Table.find?_access, h.table]

theorem writeEdgeList_spec (h : G.Csr G.numVertex) (ho : Order G.numVertex nodeMap nodeId) :
    writeEdgeList flags G nodeMap = some (G.edges.map fun e =>
      lineOf flags (weightOf G nodeId) (endpoints flags.indegree e)) := by
  have hpos := h.pos
  obtain ⟨mapToNode, hfill, hs, hinv⟩ := forRange_invert (n := G.numVertex)
    (a := Array.replicate G.numVertex 0) (f := fun i => nodeMap[i]?) (g := (nodeMap[·]!)) (by simp)
    (fun i hi => read_eq (by rw [ho.sizeMap]; exact hi)) ho.inverse.maps
    fun i j hi hj => ho.inverse.injective hi hj
  have hmap (p : Nat) (hp : p < G.numVertex) : mapToNode[p]! = nodeId[p]! :=
    ho.inverse.injective (hinv.maps p hp) (ho.inverse.maps' p hp)
      ((hinv.left p hp).trans (ho.inverse.right p hp).symm)
  obtain ⟨out, out', hrows, hlast, hout⟩ := Graph.forAllRows_rule h (Written flags G nodeId)
    (fun v j out => do writeEdge flags mapToNode v (← G.EI[j]?) out)
    (⟨rfl, fun _ => rfl⟩ : Written flags G nodeId [] ([], G.weights))
    fun done v j rest out hv hd hj hI => by
      have hmem : (v, G.EI[j]!) ∈ G.edges := by
        rw [hd]
        simp
      rw [read_eq hj]
      exact writeEdge_step hs hmap hv (h.row_lt hv (Graph.mem_edges.mp hmem).2) hI
  rw [writeEdgeList, hfill, some_bind, usub_of_le hpos, hrows, some_bind,
    h.read_start (by omega), some_bind, hlast, some_bind, hout.lines]

def movedLine (flags : Flags) (G1 : Graph) (nodeMap : Array Nat) (e : Nat × Nat) : Line :=
  let p := endpoints flags.indegree e
  ⟨ofWord nodeMap[p.1]!, ofWord nodeMap[p.2]!, if flags.weighted then
    some (ofWord ((G1.weights.find? (getMapKey p.1 p.2)).getD default)) else none⟩

theorem lineOf_moved {G1 : Graph} {n : Nat} (ho : Order n nodeMap nodeId)
    (hw : G.weights = G1.weights) {e : Nat × Nat} (he : e.1 < n ∧ e.2 < n) :
    lineOf flags (weightOf G nodeId) (endpoints flags.indegree (nodeMap[e.1]!, nodeMap[e.2]!)) =
      movedLine flags G1 nodeMap e := by
  have h1 : nodeId[nodeMap[e.1]!]! = e.1 := ho.inverse.left e.1 he.1
  have h2 : nodeId[nodeMap[e.2]!]! = e.2 := ho.inverse.left e.2 he.2
  cases hi : flags.indegree with
  | true => simp [lineOf, movedLine, weightOf, endpoints, hi, h1, h2, hw]
  | false => simp [lineOf, movedLine, weightOf, endpoints, hi, h1, h2, hw]

theorem reorder_spec {G1 G2 : Graph} {rowEnd : Nat → Option Nat} (flags : Flags)
    (h1 : G1.Csr G1.numVertex) (ho : Order G1.numVertex nodeMap nodeId)
    (hn : G2.numVertex = G1.numVertex) (hm : G2.numEdges = G1.numEdges)
    (hw : G2.weights = G1.weights) (hVI : G1.numVertex ≤ G2.VI.size)
    (hEI : G1.numEdges ≤ G2.EI.size)
    (hend : ∀ v < G1.numVertex, rowEnd v = some (G1.stop v)) :
    ∃ G lines, rebuild rowEnd G1 G2 nodeId nodeMap = some G ∧
      writeEdgeList flags G nodeMap = some lines ∧
      lines.Perm (G1.edges.map (movedLine flags G1 nodeMap)) := by
  obtain ⟨G, hrun, hGn, hGm, hGw, hlaid⟩ := rebuild_spec h1 ho hn hm hVI hEI hend
  have hcsr : G.Csr G.numVertex := hlaid.moved_csr h1 ho hGn hGm
  have ho' : Order G.numVertex nodeMap nodeId := by
    rw [hGn]
    exact ho
  refine ⟨G, _, hrun, writeEdgeList_spec hcsr ho', ?_⟩
  have hperm := (rebuilt_edges ho hGn hlaid).map fun e =>
    lineOf flags (weightOf G nodeId) (endpoints flags.indegree e)
  rw [List.map_map] at hperm
  refine hperm.trans (List.Perm.of_eq (List.map_congr_left fun e he => ?_))
  obtain ⟨hv, hx⟩ := Graph.mem_edges.mp he
  exact lineOf_moved ho (hGw.trans hw) ⟨hv, h1.row_lt hv hx⟩

end Write

end GraphReorder
