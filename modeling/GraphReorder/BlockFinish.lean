import GraphReorder.Expand

/-! Block reordering after its placement loop: the order of the blocks becomes an order of the
vertices, and the edges are written in it. -/
namespace GraphReorder.Block
open Library

/-- `if (maintain && newNodeMap[0] != 0) { ... }`: like `keepZero`, but `newNodeId` is written at
the vertex that stood first. -/
def keepZeroVertex (bound : Nat) (newNodeMap newNodeId : Array Nat) :
    Option (Array Nat × Array Nat) := do
  let zeros_map ← newNodeMap[0]?
  if zeros_map = 0 then return (newNodeMap, newNodeId)
  let newNodeMap ← store newNodeMap 0 0
  let z_id ← newNodeId[0]?
  let newNodeId ← store newNodeId 0 0
  let (i, found) ← scanZero newNodeMap bound (bound + 1) (1, false)
  if found then
    return (← store newNodeMap i zeros_map, ← store newNodeId z_id i)
  return (newNodeMap, newNodeId)

def maintainVertex (maintain : Bool) (bound : Nat) (newNodeMap newNodeId : Array Nat) :
    Option (Array Nat × Array Nat) :=
  if maintain then keepZeroVertex bound newNodeMap newNodeId else some (newNodeMap, newNodeId)

def freshCopy (G1 : Graph) : Graph :=
  { G1 with VI := Array.replicate G1.numVertex 0, EI := Array.replicate G1.numEdges 0 }

/-- The part of `main` after the placement loop, for the graph read again. -/
def finish (flags : Flags) (CLSize G2numVertex compN : Nat) (G1 : Graph)
    (nodeMap nodeId : Array Nat) : Option (Array Nat × Array Nat × List Line) := do
  let (_, nodeId) ← maintainZero flags.maintain G2numVertex nodeMap nodeId
  let (newNodeMap, newNodeId) ← expand CLSize G1.numVertex compN nodeId
  let (newNodeMap, newNodeId) ← maintainVertex flags.maintain G2numVertex newNodeMap newNodeId
  let G2 ← rebuild G1.rowEnd G1 (freshCopy G1) newNodeId newNodeMap
  some (newNodeMap, newNodeId, ← writeEdgeList flags G2 newNodeMap)

variable {G1 : Graph} {nodeMap nodeId newNodeMap newNodeId : Array Nat} {n bound : Nat}

/-- With vertex 0 first, the exchange of vertices has nothing to do. -/
theorem maintainVertex_idle (maintain : Bool) (hpos : 1 ≤ n) (ho : Order n newNodeMap newNodeId)
    (h0 : maintain = true → newNodeMap[0]! = 0) :
    maintainVertex maintain bound newNodeMap newNodeId = some (newNodeMap, newNodeId) := by
  cases maintain with
  | false => rfl
  | true =>
    have hread : newNodeMap[0]? = some 0 := by
      rw [read_eq (by rw [ho.sizeMap]; exact hpos), h0 rfl]
    rw [maintainVertex, if_pos rfl, keepZeroVertex, hread]
    rfl

/-- The order of the vertices is that of the blocks, kept together, and every edge is written in it. -/
theorem finish_preserves (flags : Flags) (CLSize : Nat) (h1 : G1.Csr G1.numVertex)
    (hc : 1 ≤ CLSize) (ho : Order (blockCount CLSize G1.numVertex) nodeMap nodeId) :
    ∃ newNodeMap newNodeId lines,
      finish flags CLSize G1.numVertex (blockCount CLSize G1.numVertex) G1 nodeMap nodeId =
        some (newNodeMap, newNodeId, lines) ∧
      Order G1.numVertex newNodeMap newNodeId ∧
      (∀ b < blockCount CLSize G1.numVertex, ∀ j < CLSize, b * CLSize + j < G1.numVertex →
        newNodeMap[b * CLSize + j]! = newNodeMap[b * CLSize]! + j) ∧
      (flags.maintain = true → newNodeMap[0]! = 0 ∧ ∃ blockMap blockId,
        keepZero G1.numVertex nodeMap nodeId = some (blockMap, blockId) ∧
        expand CLSize G1.numVertex (blockCount CLSize G1.numVertex) blockId =
          some (newNodeMap, newNodeId)) ∧
      lines.Perm (G1.edges.map (movedLine flags G1 newNodeMap)) ∧
      (∃ blockMap blockId,
        maintainZero flags.maintain G1.numVertex nodeMap nodeId = some (blockMap, blockId) ∧
        newNodeId.toList = Graph.flat (placedBlock CLSize G1.numVertex blockId)
          (blockCount CLSize G1.numVertex)) ∧
      (G1.numVertex ≤ 2 ^ 31 → ∀ e ∈ G1.edges,
        (movedLine flags G1 newNodeMap e).s = newNodeMap[(endpoints flags.indegree e).1]! ∧
        (movedLine flags G1 newNodeMap e).d = newNodeMap[(endpoints flags.indegree e).2]!) := by
  have hpos := h1.pos
  obtain ⟨blockMap, blockId, hkeep, ho', h0⟩ := maintainZero_spec flags.maintain
    (Nat.succ_pos _) (blockCount_le hpos) ho
  obtain ⟨newNodeMap, newNodeId, hexpand, hexp⟩ := expand_spec hc hpos ho'
  have hidle : maintainVertex flags.maintain G1.numVertex newNodeMap newNodeId =
      some (newNodeMap, newNodeId) :=
    maintainVertex_idle flags.maintain hpos hexp.order fun hm => hexp.first (h0 hm)
  have hcopy : (freshCopy G1).numVertex = G1.numVertex := rfl
  obtain ⟨G, lines, hrebuild, hwrite, hperm⟩ := reorder_spec flags h1 hexp.order hcopy rfl rfl
    (by simp [freshCopy]) (by simp [freshCopy]) fun v hv => h1.rowEnd_eq hv
  refine ⟨newNodeMap, newNodeId, lines, ?_, hexp.order, hexp.consecutive, fun hm => ?_, hperm,
    ⟨blockMap, blockId, hkeep, hexp.blocks⟩, fun hsmall e he => ?_⟩
  · simp only [finish, hkeep, hexpand, hidle, hrebuild, hwrite, some_bind]
  · rw [maintainZero, if_pos hm] at hkeep
    exact ⟨hexp.first (h0 hm), blockMap, blockId, hkeep, hexpand⟩
  · obtain ⟨hv, hx⟩ := Graph.mem_edges.mp he
    have hs := hexp.order.inverse.maps e.1 hv
    have hd := hexp.order.inverse.maps e.2 (h1.row_lt hv hx)
    cases hi : flags.indegree <;>
      simp [movedLine, endpoints, hi, ofWord_of_lt (hs.trans_le hsmall),
        ofWord_of_lt (hd.trans_le hsmall)]

def fiveVertices : Graph where
  numVertex := 5
  numEdges := 4
  VI := #[0, 2, 2, 3, 3, 4]
  EI := #[1, 4, 2, 0]

theorem fiveVertices_csr : fiveVertices.Csr 5 := by decide

theorem threeBlocks_order : Order 3 #[1, 2, 0] #[2, 0, 1] :=
  ⟨by decide, by decide, by decide, by decide, by decide, by decide⟩

theorem finish_preserves_fiveVertices : ∃ newNodeMap newNodeId lines,
    finish ⟨true, false, true⟩ 2 5 3 fiveVertices #[1, 2, 0] #[2, 0, 1] =
      some (newNodeMap, newNodeId, lines) ∧ newNodeMap[0]! = 0 ∧
    lines.Perm (fiveVertices.edges.map (movedLine ⟨true, false, true⟩ fiveVertices newNodeMap)) := by
  obtain ⟨newNodeMap, newNodeId, lines, hrun, _, _, hzero, hperm, _⟩ :=
    finish_preserves ⟨true, false, true⟩ 2 fiveVertices_csr (by decide) threeBlocks_order
  exact ⟨newNodeMap, newNodeId, lines, hrun, (hzero rfl).1, hperm⟩

end GraphReorder.Block
