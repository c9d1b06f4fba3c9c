import Mathlib.Data.Finset.Card
import Mathlib.Data.Finset.Dedup
import GraphReorder.Library.Pack

/-! The graphs and the vertex sets that the compiled benchmark programs work on. A vertex set is held
as a list of its members, as a map of all vertices, or both. -/
namespace GraphReorder.GraphIt
open Library

/-- A neighbour, and the weight of the edge. Programs without weights do not look at it. -/
structure WNode where
  v : Nat
  w : Int
  deriving DecidableEq

/-- What the programs ask of a `CSRGraph`: the neighbours of every vertex. -/
structure WGraph where
  out_neigh : Array (List WNode)
  in_neigh : Array (List WNode)

def WGraph.num_nodes (g : WGraph) : Nat := g.out_neigh.size

def WGraph.num_edges (g : WGraph) : Nat := (g.out_neigh.toList.map List.length).sum

def WGraph.out_degree (g : WGraph) (v : Nat) : Option Nat := do
  let neigh ← g.out_neigh[v]?
  pure neigh.length

/-- The edges are between the `n` vertices, which are of type `int32_t`, and stand at both ends. The
length of a row, which the code has in an `int` too, is not bounded here. -/
structure WGraph.Wellformed (g : WGraph) (n : Nat) : Prop where
  out_size : g.out_neigh.size = n
  in_size : g.in_neigh.size = n
  fits : n < 2 ^ 31
  out_lt : ∀ s < n, ∀ d ∈ g.out_neigh[s]!, d.v < n
  in_lt : ∀ d < n, ∀ s ∈ g.in_neigh[d]!, s.v < n
  transposed : ∀ s < n, ∀ d < n, ∀ w, ⟨d, w⟩ ∈ g.out_neigh[s]! ↔ ⟨s, w⟩ ∈ g.in_neigh[d]!

/-- Null pointers are `none`. `dense_vertex_set` is the list of the members. -/
structure VertexSubset where
  vertices_range : Nat
  num_vertices : Nat
  dense_vertex_set : Option (Array Nat)
  tmp : List Nat
  bool_map : Option (Array Bool)

def VertexSubset.make (vertices_range num_vertices : Nat) : VertexSubset :=
  if num_vertices = vertices_range then
    ⟨vertices_range, num_vertices, some (Array.range vertices_range), [],
      some (Array.replicate vertices_range true)⟩
  else
    ⟨vertices_range, num_vertices, none, [], none⟩

def VertexSubset.addVertex (vs : VertexSubset) (v : Nat) : VertexSubset :=
  { vs with num_vertices := vs.num_vertices + 1, tmp := vs.tmp ++ [v] }

def VertexSubset.toDense (vs : VertexSubset) : Option VertexSubset :=
  match vs.bool_map with
  | some _ => some vs
  | none => do
    let bool_map := Array.replicate vs.vertices_range false
    if vs.tmp ≠ [] then do
      let bool_map ← vs.tmp.foldlM (fun bool_map node => store bool_map node true) bool_map
      pure { vs with bool_map := some bool_map }
    else if vs.num_vertices > 0 then do
      let dense ← vs.dense_vertex_set
      let bool_map ← forRange 0 vs.num_vertices
        (fun i bool_map => do store bool_map (← dense[i]?) true) bool_map
      pure { vs with bool_map := some bool_map }
    else pure { vs with bool_map := some bool_map }

def packIndex (Fl : Array Bool) (n : Nat) : Array Nat :=
  ((List.range n).filter fun i => Fl[i]!).toArray

/-- `abort` is a fault. -/
def VertexSubset.toSparse (vs : VertexSubset) : Option VertexSubset :=
  match vs.dense_vertex_set with
  | some _ => some vs
  | none =>
    if vs.tmp ≠ [] then do
      let dense ← forRange 0 vs.num_vertices
        (fun i dense => do store dense i (← vs.tmp[i]?)) (Array.replicate vs.num_vertices 0)
      pure { vs with dense_vertex_set := some dense }
    else if vs.num_vertices > 0 then do
      let bool_map ← vs.bool_map
      let R := packIndex bool_map vs.vertices_range
      if vs.num_vertices = R.size then pure { vs with dense_vertex_set := some R } else none
    else some vs

structure Lists (l : List Nat) (F : Finset Nat) : Prop where
  nodup : l.Nodup
  mem : ∀ v, v ∈ l ↔ v ∈ F

/-- All that is there of a vertex set stands for the same vertices, and something is unless there
are none. -/
structure VertexSubset.Holds (vs : VertexSubset) (n : Nat) (F : Finset Nat) : Prop where
  range : vs.vertices_range = n
  inside : ∀ v ∈ F, v < n
  count : vs.num_vertices = F.card
  tmp : vs.tmp ≠ [] → Lists vs.tmp F
  dense : ∀ a, vs.dense_vertex_set = some a → Lists a.toList F
  map : ∀ b, vs.bool_map = some b → b.size = n ∧ ∀ v < n, b[v]! = true ↔ v ∈ F
  held : F.Nonempty → vs.tmp ≠ [] ∨ vs.dense_vertex_set.isSome ∨ vs.bool_map.isSome

section Specs
variable {vs : VertexSubset} {n : Nat} {F : Finset Nat} {l : List Nat}

theorem Lists.length (h : Lists l F) : l.length = F.card := by
  rw [← List.toFinset_card_of_nodup h.nodup]
  exact congrArg Finset.card (Finset.ext fun v => by rw [List.mem_toFinset, h.mem])

theorem VertexSubset.Holds.size_dense (h : vs.Holds n F) {a : Array Nat}
    (ha : vs.dense_vertex_set = some a) : a.size = vs.num_vertices := by
  rw [h.count, ← (h.dense a ha).length, Array.length_toList]

theorem Lists.range (n : Nat) : Lists (List.range n) (Finset.range n) :=
  ⟨List.nodup_range, fun v => by rw [List.mem_range, Finset.mem_range]⟩

theorem VertexSubset.make_all (n : Nat) : (VertexSubset.make n n).Holds n (Finset.range n) := by
  rw [make, if_pos rfl]
  refine ⟨rfl, fun v hv => Finset.mem_range.mp hv, by simp, fun hne => absurd rfl hne,
    fun a ha => ?_, fun b hb => ?_, fun _ => .inr (.inl rfl)⟩
  · cases ha
    rw [Array.toList_range]
    exact .range n
  · cases hb
    refine ⟨Array.size_replicate, fun v hv => ?_⟩
    rw [replicate_get n v true hv]
    exact ⟨fun _ => Finset.mem_range.mpr hv, fun _ => rfl⟩

theorem VertexSubset.make_empty (hn : 0 < n) : (VertexSubset.make n 0).Holds n ∅ := by
  rw [make, if_neg hn.ne]
  exact ⟨rfl, by simp, rfl, fun hne => absurd rfl hne, fun a ha => (by cases ha),
    fun b hb => (by cases hb), fun hF => absurd hF (by simp)⟩

theorem VertexSubset.make_single (hn : 0 < n) :
    ((VertexSubset.make n 0).addVertex 0).Holds n {0} := by
  rw [make, if_neg hn.ne, addVertex]
  exact ⟨rfl, by simpa using hn, rfl, fun _ => ⟨by simp, by simp⟩, fun a ha => (by cases ha),
    fun b hb => (by cases hb), fun _ => .inl (by simp)⟩

theorem VertexSubset.make_list (hn : 0 < n) {l : List Nat} (hl : Lists l F) (hin : ∀ v ∈ F, v < n) :
    ({ VertexSubset.make n 0 with
      num_vertices := l.length
      dense_vertex_set := some l.toArray } : VertexSubset).Holds n F := by
  rw [make, if_neg hn.ne]
  exact ⟨rfl, hin, hl.length, fun hne => absurd rfl hne, fun a ha => (by cases ha; exact hl),
    fun b hb => (by cases hb), fun _ => .inr (.inl rfl)⟩

theorem packIndex_lists {b : Array Bool} (hin : ∀ v ∈ F, v < n)
    (hb : ∀ v < n, b[v]! = true ↔ v ∈ F) : Lists (packIndex b n).toList F := by
  refine ⟨List.nodup_range.filter _, fun v => ?_⟩
  rw [packIndex, List.mem_filter, List.mem_range]
  exact ⟨fun h => (hb v h.1).mp h.2, fun h => ⟨hin v h, (hb v (hin v h)).mpr h⟩⟩

theorem VertexSubset.toSparse_spec (h : vs.Holds n F) (hF : F.Nonempty) :
    ∃ vs' a, vs.toSparse = some vs' ∧ vs'.dense_vertex_set = some a ∧ vs'.Holds n F := by
  unfold toSparse
  cases hd : vs.dense_vertex_set with
  | some a => exact ⟨vs, a, rfl, hd, h⟩
  | none =>
    by_cases htmp : vs.tmp ≠ []
    · have hlists := h.tmp htmp
      have hlen : vs.tmp.length = vs.num_vertices := by rw [h.count, hlists.length]
      obtain ⟨a, hrun, hsize, hcells⟩ := forRange_fill (n := vs.num_vertices)
        (a := Array.replicate vs.num_vertices 0) Array.size_replicate.ge
        (f := fun i => vs.tmp[i]?) (g := fun i => vs.tmp[i]!) fun i hi => by
          rw [List.getElem?_eq_getElem (by omega), getElem!_pos vs.tmp i (by omega)]
      have ha : a.toList = vs.tmp := by
        rw [Array.size_replicate] at hsize
        refine List.ext_getElem (by simp [hsize, hlen]) fun i hi hi' => ?_
        have hia : i < a.size := by simpa using hi
        have hcell := hcells i
        rw [if_pos (by omega), getElem!_pos a i hia, getElem!_pos vs.tmp i hi'] at hcell
        exact hcell
      refine ⟨{ vs with dense_vertex_set := some a }, a, ?_, rfl,
        h.range, h.inside, h.count, h.tmp, fun a' ha' => ?_, h.map, fun _ => .inl htmp⟩
      · simp only [if_pos htmp, hrun]
        rfl
      · cases ha'
        rw [ha]
        exact hlists
    · have hpos : 0 < vs.num_vertices := by
        rw [h.count]
        exact Finset.card_pos.mpr hF
      obtain ⟨b, hb⟩ : ∃ b, vs.bool_map = some b := by
        rcases h.held hF with hheld | hheld | hheld
        · exact absurd hheld htmp
        · rw [hd] at hheld
          cases hheld
        · exact Option.isSome_iff_exists.mp hheld
      obtain ⟨_, hmap⟩ := h.map b hb
      have hlists := packIndex_lists h.inside hmap
      have hsize : vs.num_vertices = (packIndex b vs.vertices_range).size := by
        rw [h.range, h.count, ← hlists.length, Array.length_toList]
      refine ⟨{ vs with dense_vertex_set := some (packIndex b vs.vertices_range) }, _, ?_, rfl,
        h.range, h.inside, h.count, h.tmp, fun a' ha' => ?_, h.map, fun _ => .inr (.inl rfl)⟩
      · rw [if_neg htmp, if_pos hpos, hb]
        exact if_pos hsize
      · cases ha'
        rw [h.range]
        exact hlists

theorem VertexSubset.make_map (hn : 0 < n) {next : Array Bool} (hsize : next.size = n) :
    ({ VertexSubset.make n 0 with
      num_vertices := next.toList.count true
      bool_map := some next } : VertexSubset).Holds n
        ((Finset.range n).filter fun v => next[v]! = true) := by
  have hlists : Lists (packIndex next n).toList
      ((Finset.range n).filter fun v => next[v]! = true) :=
    packIndex_lists (fun v hv => Finset.mem_range.mp (Finset.mem_filter.mp hv).1)
      fun v hv => by simp [hv]
  have hcount : next.toList.count true = (packIndex next n).toList.length := by
    have hmap : next.toList = (List.range n).map fun v => next[v]! := by
      refine List.ext_getElem (by simp [hsize]) fun i hi _ => ?_
      have hi' : i < next.size := by simpa using hi
      rw [Array.getElem_toList, List.getElem_map, List.getElem_range, getElem!_pos next i hi']
    rw [packIndex, ← List.countP_eq_length_filter, hmap, List.count, List.countP_map]
    exact congrArg (fun p => List.countP p (List.range n))
      (funext fun v => by cases h : next[v]! <;> simp [h])
  rw [make, if_neg hn.ne]
  refine ⟨rfl, fun v hv => Finset.mem_range.mp (Finset.mem_filter.mp hv).1,
    hcount.trans hlists.length, fun hne => absurd rfl hne, fun a ha => (by cases ha),
    fun b hb => ?_, fun _ => .inr (.inr rfl)⟩
  cases hb
  exact ⟨hsize, fun v hv => by simp [hv]⟩

theorem mark_lists (hl : Lists l F) (hin : ∀ v ∈ F, v < n) :
    ∃ b, l.foldlM (fun b node => store b node true) (Array.replicate n false) = some b ∧
      b.size = n ∧ ∀ v < n, b[v]! = true ↔ v ∈ F := by
  obtain ⟨b, hrun, hsize, hcells⟩ := mark_run (a := Array.replicate n false) true fun v hv => by
    rw [Array.size_replicate]
    exact hin v ((hl.mem v).mp hv)
  refine ⟨b, hrun, by rw [hsize, Array.size_replicate], fun v hv => ?_⟩
  rw [hcells v, ← hl.mem]
  by_cases hmem : v ∈ l
  · simp [hmem]
  · simp [hmem, replicate_get n v false hv]

theorem VertexSubset.toDense_spec (h : vs.Holds n F) :
    ∃ vs' b, vs.toDense = some vs' ∧ vs'.bool_map = some b ∧ vs'.Holds n F := by
  have hmade {b : Array Bool} (hb : b.size = n ∧ ∀ v < n, b[v]! = true ↔ v ∈ F) :
      ({ vs with bool_map := some b } : VertexSubset).Holds n F :=
    ⟨h.range, h.inside, h.count, h.tmp, h.dense, fun b' hb' => by cases hb'; exact hb,
      fun _ => .inr (.inr rfl)⟩
  unfold toDense
  cases hb : vs.bool_map with
  | some b => exact ⟨vs, b, rfl, hb, h⟩
  | none =>
    by_cases htmp : vs.tmp ≠ []
    · obtain ⟨b, hrun, hsize, hmap⟩ := mark_lists (h.tmp htmp) h.inside
      refine ⟨_, b, ?_, rfl, hmade ⟨hsize, hmap⟩⟩
      simp only [if_pos htmp, h.range, hrun]
      rfl
    · by_cases hpos : 0 < vs.num_vertices
      · obtain ⟨a, ha⟩ : ∃ a, vs.dense_vertex_set = some a := by
          rcases h.held (Finset.card_pos.mp (h.count ▸ hpos)) with hheld | hheld | hheld
          · exact absurd hheld htmp
          · exact Option.isSome_iff_exists.mp hheld
          · rw [hb] at hheld
            cases hheld
        obtain ⟨b, hrun, hsize, hmap⟩ := mark_lists (h.dense a ha) h.inside
        have hall : slice a 0 vs.num_vertices = a.toList := by rw [← h.size_dense ha, slice_all]
        refine ⟨_, b, ?_, rfl, hmade ⟨hsize, hmap⟩⟩
        simp only [if_neg htmp, if_pos hpos, h.range, ha]
        rw [some_bind, forRange_slice (Nat.zero_le _) (h.size_dense ha).ge
          (fun node b => store b node true), hall, hrun]
        rfl
      · have hF : F = ∅ := by
          rw [← Finset.card_eq_zero, ← h.count]
          omega
        refine ⟨_, Array.replicate n false, ?_, rfl, hmade ⟨Array.size_replicate, fun v hv => ?_⟩⟩
        · simp only [if_neg htmp, if_neg hpos, h.range]
          rfl
        · rw [replicate_get n v false hv, hF]
          simp

end Specs

end GraphReorder.GraphIt
