import GraphReorder.Library.Memory
import GraphReorder.Library.BinarySearch
import Mathlib.Data.List.Perm.Subperm

/-! The graph of Gorder: the outgoing edges of all vertices one after the other, the incoming ones
likewise, and where those of every vertex start. -/
namespace GraphReorder.Gorder
open Library

/-- The fields are `int`s. Here they stay below 2^31 because `readGraph` makes no graph with more edges
than that. -/
structure Vertex where
  outstart : Nat := 0
  outdegree : Nat := 0
  instart : Nat := 0
  indegree : Nat := 0
deriving Inhabited, DecidableEq

structure Graph where
  vsize : Nat
  edgenum : Nat
  graph : Array Vertex
  outedge : Array Nat
  inedge : Array Nat
deriving DecidableEq

namespace Graph
variable {β : Type}

/-- `for(int j=graph[u].outstart, limit=graph[u+1].outstart; j<limit; j++)`, with `outedge[j]`. -/
def forOut (g : Graph) (u : Nat) (body : Nat → β → Option β) (b : β) : Option β := do
  forRange (← g.graph[u]?).outstart (← g.graph[u + 1]?).outstart
    (fun j b => do body (← g.outedge[j]?) b) b

def forIn (g : Graph) (u : Nat) (body : Nat → β → Option β) (b : β) : Option β := do
  forRange (← g.graph[u]?).instart (← g.graph[u + 1]?).instart
    (fun j b => do body (← g.inedge[j]?) b) b

def outs (g : Graph) (u : Nat) : List Nat :=
  slice g.outedge g.graph[u]!.outstart g.graph[u + 1]!.outstart

def ins (g : Graph) (v : Nat) : List Nat :=
  slice g.inedge g.graph[v]!.instart g.graph[v + 1]!.instart

structure Rows (g : Graph) (start degree : Vertex → Nat) (edge : Array Nat) : Prop where
  first : start g.graph[0]! = 0
  next : ∀ u < g.vsize, start g.graph[u + 1]! = start g.graph[u]! + degree g.graph[u]!
  last : start g.graph[g.vsize]! = edge.size
  inside : ∀ w ∈ edge.toList, w < g.vsize

/-- The outgoing edges as they are read: the targets of a vertex stand in rising order, and no edge
is there twice. -/
structure Outgoing (g : Graph) : Prop where
  size : g.graph.size = g.vsize + 1
  out : g.Rows Vertex.outstart Vertex.outdegree g.outedge
  rising : ∀ u < g.vsize, (g.outs u).Pairwise (· < ·)

structure Valid (g : Graph) : Prop extends Outgoing g where
  into : g.Rows Vertex.instart Vertex.indegree g.inedge
  distinct : ∀ v < g.vsize, (g.ins v).Nodup
  transposed : ∀ u < g.vsize, ∀ v < g.vsize, u ∈ g.ins v ↔ v ∈ g.outs u

section Sides
variable {g : Graph} {start degree : Vertex → Nat} {edge : Array Nat}

theorem Rows.mono (h : g.Rows start degree edge) {u v : Nat} (huv : u ≤ v) (hv : v ≤ g.vsize) :
    start g.graph[u]! ≤ start g.graph[v]! := by
  induction v, huv using Nat.le_induction with
  | base => exact le_rfl
  | succ v _ ih => exact (ih (by omega)).trans (by rw [h.next v (by omega)]; omega)

theorem Rows.le_size (h : g.Rows start degree edge) {u : Nat} (hu : u ≤ g.vsize) :
    start g.graph[u]! ≤ edge.size := h.last ▸ h.mono hu le_rfl

theorem Rows.row_length (h : g.Rows start degree edge) {u : Nat} (hu : u < g.vsize) :
    (slice edge (start g.graph[u]!) (start g.graph[u + 1]!)).length = degree g.graph[u]! := by
  rw [slice_length, h.next u hu, Nat.add_sub_cancel_left]

theorem Rows.row_lt (h : g.Rows start degree edge) {u w : Nat} (hu : u < g.vsize)
    (hw : w ∈ slice edge (start g.graph[u]!) (start g.graph[u + 1]!)) : w < g.vsize := by
  obtain ⟨i, _, hi, rfl⟩ := mem_slice.mp hw
  have hlt : i < edge.size := hi.trans_le (h.le_size hu)
  refine h.inside _ ?_
  rw [getElem!_pos edge i hlt]
  exact Array.getElem_mem_toList hlt

end Sides

namespace Outgoing
variable {g : Graph} {u v w : Nat}

theorem read_vertex (h : g.Outgoing) (hu : u ≤ g.vsize) : g.graph[u]? = some g.graph[u]! :=
  read_eq (by rw [h.size]; omega)

theorem forOut_eq (h : g.Outgoing) (hu : u < g.vsize) (body : Nat → β → Option β) (b : β) :
    g.forOut u body b = (g.outs u).foldlM (fun b w => body w b) b := by
  rw [forOut, h.read_vertex hu.le, some_bind, h.read_vertex hu, some_bind, outs]
  exact forRange_slice (h.out.mono (Nat.le_succ u) hu) (h.out.le_size hu) body b

theorem outs_lt (h : g.Outgoing) (hu : u < g.vsize) (hw : w ∈ g.outs u) : w < g.vsize :=
  h.out.row_lt hu hw

theorem outs_nodup (h : g.Outgoing) (hu : u < g.vsize) : (g.outs u).Nodup :=
  (h.rising u hu).imp fun hlt => hlt.ne

theorem search (h : g.Outgoing) (hu : u < g.vsize) :
    binarySearch g.outedge g.graph[u]!.outstart g.graph[u + 1]!.outstart v =
      some (decide (v ∈ g.outs u)) := by
  have hmono : g.graph[u]!.outstart ≤ g.graph[u + 1]!.outstart := h.out.mono (Nat.le_succ u) hu
  have hlast : g.graph[u + 1]!.outstart ≤ g.outedge.size := h.out.le_size hu
  refine binarySearch_spec hmono hlast (fun i j hi hij hj => ?_) v
  have hr : (g.outs u).Pairwise (· < ·) := h.rising u hu
  rcases Nat.eq_or_lt_of_le hij with rfl | hlt
  · exact le_rfl
  · rw [Graph.outs, ← slice_append g.outedge (hi.trans (Nat.le_succ i)) (by omega :
      i + 1 ≤ g.graph[u + 1]!.outstart)] at hr
    refine ((List.pairwise_append.mp hr).2.2 _ (mem_slice.mpr ⟨i, hi, Nat.lt_succ_self i, rfl⟩) _
      (mem_slice.mpr ⟨j, hlt, hj, rfl⟩)).le

end Outgoing

namespace Valid
variable {g : Graph} {u v w : Nat}

theorem forIn_eq (h : g.Valid) (hv : v < g.vsize) (body : Nat → β → Option β) (b : β) :
    g.forIn v body b = (g.ins v).foldlM (fun b w => body w b) b := by
  rw [forIn, h.read_vertex hv.le, some_bind, h.read_vertex hv, some_bind, ins]
  exact forRange_slice (h.into.mono (Nat.le_succ v) hv) (h.into.le_size hv) body b

theorem ins_lt (h : g.Valid) (hv : v < g.vsize) (hu : u ∈ g.ins v) : u < g.vsize :=
  h.into.row_lt hv hu

theorem ins_length (h : g.Valid) (hv : v < g.vsize) :
    (g.ins v).length = g.graph[v]!.indegree := h.into.row_length hv

theorem indegree_le (h : g.Valid) (hv : v < g.vsize) : g.graph[v]!.indegree ≤ g.vsize := by
  rw [← h.ins_length hv, ← List.length_range (n := g.vsize)]
  refine (List.subperm_of_subset (h.distinct v hv) fun u hu => ?_).length_le
  exact List.mem_range.mpr (h.ins_lt hv hu)

end Valid

def triangle : Graph where
  vsize := 3
  edgenum := 3
  graph := #[⟨0, 1, 0, 1⟩, ⟨1, 1, 1, 1⟩, ⟨2, 1, 2, 1⟩, ⟨3, 0, 3, 0⟩]
  outedge := #[1, 2, 0]
  inedge := #[2, 0, 1]

theorem triangle_valid : triangle.Valid :=
  ⟨⟨rfl, ⟨rfl, by decide, rfl, by decide⟩, by decide⟩, ⟨rfl, by decide, rfl, by decide⟩, by decide,
    by decide⟩

end Graph

end GraphReorder.Gorder
