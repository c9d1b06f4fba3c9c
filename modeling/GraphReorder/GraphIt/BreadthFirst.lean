import GraphReorder.GraphIt.Direction
import GraphReorder.GraphIt.SearchPull

/-! The benchmark program `bfs`: every vertex that vertex 0 reaches ends up with a parent one edge
nearer to it. -/
namespace GraphReorder.GraphIt
open Library

namespace Bfs

def start (g : WGraph) : Option Program := do
  let parent ← store (Array.replicate g.num_nodes (-1)) 0 0
  pure ⟨parent, none, (VertexSubset.make g.num_nodes 0).addVertex 0⟩

/-- `edgeset_apply_hybrid_dense_parallel_from_vertexset_to_filter_func_with_frontier`. -/
inductive HybridRound (g : WGraph) (st : Program) : Program → Prop
  | pull {vs : VertexSubset} {degrees : Array Nat} {st' : Program}
      (hsparse : st.frontier.toSparse = some vs) (hdegrees : outDegrees g vs = some degrees)
      (hlarge : vs.num_vertices + degrees.toList.sum > g.num_edges / 20)
      (hround : ScanRound g { st with frontier := vs } st') : HybridRound g st st'
  | push {vs : VertexSubset} {degrees : Array Nat} {st' : Program}
      (hsparse : st.frontier.toSparse = some vs) (hdegrees : outDegrees g vs = some degrees)
      (hsmall : ¬ vs.num_vertices + degrees.toList.sum > g.num_edges / 20)
      (hround : SearchRound g true { st with frontier := vs } st') : HybridRound g st st'

def Apply (g : WGraph) : Direction → Program → Program → Prop
  | .push => SearchRound g false
  | .pull => ScanRound g
  | .pushPull => HybridRound g

/-- No order of steps gets stuck or goes on for ever. -/
def Safe (g : WGraph) (st : Program) : Direction → Prop
  | .push => SearchSafe g false st
  | .pull => ScanSafe g st
  | .pushPull => ∃ vs degrees, st.frontier.toSparse = some vs ∧ outDegrees g vs = some degrees ∧
    SearchSafe g true { st with frontier := vs } ∧ ScanSafe g { st with frontier := vs }

def Loop (g : WGraph) (dir : Direction) (st st' : Program) : Prop :=
  st.frontier.num_vertices ≠ 0 ∧ Apply g dir st st'

end Bfs

section Search
variable {g : WGraph} {n k v : Nat} {st st' st₀ : Program} {F : Finset Nat} {dir : Direction}

theorem leads_lt (hg : g.Wellformed n) (hn : 0 < n) (h : Leads (Edge g) 0 k v) : v < n := by
  induction h with
  | nil => exact hn
  | snoc _ hedge ih =>
    obtain ⟨d, hd, rfl⟩ := hedge
    exact hg.out_lt _ ih d hd

theorem Bfs.start_spec (hg : g.Wellformed n) (hn : 0 < n) (hstart : Bfs.start g = some st₀) :
    Ready n st₀ {0} ∧ Searched (Edge g) 0 0 (st₀.tree n {0}) ∧ ∀ v < n, -1 ≤ st₀.labels[v]! := by
  have hnodes : g.num_nodes = n := hg.out_size
  have hsize : 0 < (Array.replicate n (-1 : Int)).size := by simpa using hn
  rw [Bfs.start, hnodes, store_eq hsize, some_bind] at hstart
  obtain rfl := Option.some.inj hstart
  have hget (v : Nat) (hv : v < n) : ((Array.replicate n (-1 : Int)).setIfInBounds 0 0)[v]! =
      if v = 0 then 0 else -1 := by
    rw [put_get hsize, replicate_get n v (-1) hv]
  have hsome {v u : Nat} (h : (Program.tree ⟨(Array.replicate n (-1)).setIfInBounds 0 0, none,
      (VertexSubset.make n 0).addVertex 0⟩ n {0}).parent v = some u) : v = 0 ∧ u = 0 := by
    obtain ⟨hv, hp, hu⟩ := Program.tree_some.mp h
    rw [hget v hv] at hp hu
    by_cases hv0 : v = 0
    · rw [if_pos hv0] at hu
      exact ⟨hv0, hu.symm⟩
    · rw [if_neg hv0] at hp
      exact absurd rfl hp
  have hroot : (Program.tree ⟨(Array.replicate n (-1)).setIfInBounds 0 0, none,
      (VertexSubset.make n 0).addVertex 0⟩ n {0}).parent 0 = some 0 := by
    refine Program.tree_some.mpr ⟨hn, ?_, ?_⟩
    · rw [hget 0 hn]
      decide
    · rw [hget 0 hn]
      rfl
  have hzero {v : Nat} (h : Leads (Edge g) 0 0 v) : v = 0 := by
    cases h
    rfl
  refine ⟨⟨by simp, fun a ha => (by cases ha), VertexSubset.make_single hn⟩,
    ⟨fun v => ?_, fun v => ?_, hroot, fun v u hv0 hu => absurd (hsome hu).1 hv0⟩, fun v hv => ?_⟩
  · constructor
    · intro hv
      obtain rfl : v = 0 := Finset.mem_singleton.mp hv
      exact ⟨.nil, fun j hj => absurd hj (Nat.not_lt_zero j)⟩
    · rintro ⟨hwalk, _⟩
      exact Finset.mem_singleton.mpr (hzero hwalk)
  · constructor
    · intro hv
      obtain ⟨u, hu⟩ := Option.ne_none_iff_exists'.mp hv
      obtain ⟨rfl, _⟩ := hsome hu
      exact ⟨0, le_rfl, .nil⟩
    · rintro ⟨j, hj, hwalk⟩
      obtain rfl := Nat.le_zero.mp hj
      obtain rfl := hzero hwalk
      rw [hroot]
      exact Option.some_ne_none 0
  · simp only [hget v hv]
    split_ifs <;> decide

theorem Bfs.layer (hg : g.Wellformed n) (hn : 0 < n) (hst : Ready n st F) (hF : F.Nonempty)
    (hpar : ∀ v < n, -1 ≤ st.labels[v]!) (hround : Bfs.Apply g dir st st') :
    ∃ F', Ready n st' F' ∧ Layer (Edge g) (st.tree n F) (st'.tree n F') ∧
      ∀ v < n, -1 ≤ st'.labels[v]! := by
  cases dir with
  | push => exact search_layer hg hn hst hF hpar hround
  | pull => exact scan_layer hg hn hst hpar hround
  | pushPull =>
    obtain ⟨vs, _, hsparse, _, hready⟩ := hst.sparse hF hg
    cases hround with
    | pull hsparse' _ _ hround =>
      obtain rfl := Option.some.inj (hsparse'.symm.trans hsparse)
      have hlayer := scan_layer hg hn hready hpar hround
      exact hlayer
    | push hsparse' _ _ hround =>
      obtain rfl := Option.some.inj (hsparse'.symm.trans hsparse)
      exact search_layer hg hn hready hF hpar hround

theorem Bfs.safe (hg : g.Wellformed n) (hst : Ready n st F) (hF : F.Nonempty) :
    Bfs.Safe g st dir := by
  cases dir with
  | push => exact search_safe hg hst hF
  | pull => exact scan_safe hg hst
  | pushPull =>
    obtain ⟨vs, degs, hsparse, hdegs, hready⟩ := hst.sparse hF hg
    exact ⟨vs, degs, hsparse, hdegs, search_safe hg hready hF, scan_safe hg hready⟩

theorem Bfs.round_exists (hg : g.Wellformed n) (hst : Ready n st F) (hF : F.Nonempty) :
    ∃ st', Bfs.Apply g dir st st' := by
  cases dir with
  | push => exact search_exists false hg hst hF
  | pull => exact scan_exists hg hst
  | pushPull =>
    obtain ⟨vs, degs, hsparse, hdegs, hready⟩ := hst.sparse hF hg
    by_cases hlarge : vs.num_vertices + degs.toList.sum > g.num_edges / 20
    · obtain ⟨st', hround⟩ := scan_exists hg hready
      exact ⟨st', .pull hsparse hdegs hlarge hround⟩
    · obtain ⟨st', hround⟩ := search_exists true hg hready hF
      exact ⟨st', .push hsparse hdegs hlarge hround⟩

theorem Bfs.simulates (hg : g.Wellformed n) (hn : 0 < n) (hstart : Bfs.start g = some st₀)
    (hrun : Repeat (Bfs.Loop g dir) st₀ k st) :
    ∃ F, Ready n st F ∧ Searched (Edge g) 0 k (st.tree n F) ∧ ∀ v < n, -1 ≤ st.labels[v]! := by
  induction hrun with
  | zero => exact ⟨{0}, Bfs.start_spec hg hn hstart⟩
  | succ _ hloop ih =>
    obtain ⟨F, hst, hsearched, hpar⟩ := ih
    obtain ⟨F', hst', hlayer, hpar'⟩ :=
      Bfs.layer hg hn hst (hst.nonempty_iff.mp hloop.1) hpar hloop.2
    exact ⟨F', hst', hsearched.layer hlayer, hpar'⟩

/-- The loop ends after as many rounds as there are vertices at most, no round gets stuck in any
order of its steps, and at the end just the vertices that vertex 0 reaches have a parent, from which
an edge leads to them and which is one edge nearer. -/
theorem bfs_layers (dir : Direction) (hg : g.Wellformed n) (hn : 0 < n)
    (hstart : Bfs.start g = some st₀) (hrun : Repeat (Bfs.Loop g dir) st₀ k st) :
    k ≤ n ∧
    (st.frontier.num_vertices ≠ 0 → Bfs.Safe g st dir ∧ ∃ st', Bfs.Apply g dir st st') ∧
    (st.frontier.num_vertices = 0 → st.labels[0]! = 0 ∧
      ∀ v < n, (st.labels[v]! ≠ -1 ↔ ∃ j, Leads (Edge g) 0 j v) ∧
        (v ≠ 0 → st.labels[v]! ≠ -1 → ∃ u : Nat, st.labels[v]! = u ∧ Edge g u v ∧
          ∃ m, Depth (Edge g) 0 m u ∧ Depth (Edge g) 0 (m + 1) v)) := by
  obtain ⟨F, hst, hsearched, hpar⟩ := Bfs.simulates hg hn hstart hrun
  -- a value that is not -1 is a vertex
  have hvalue {v u : Nat} (h : (st.tree n F).parent v = some u) : st.labels[v]! = u := by
    obtain ⟨hv, hp, hu⟩ := Program.tree_some.mp h
    have := hpar v hv
    omega
  refine ⟨?_, fun hmore => ?_, fun hdone => ⟨hvalue hsearched.root, fun v hv => ⟨?_, ?_⟩⟩⟩
  · cases hrun with
    | zero => exact Nat.zero_le n
    | @succ k t _ hbefore hloop =>
      obtain ⟨F', hst', hsearched', _⟩ := Bfs.simulates hg hn hstart hbefore
      obtain ⟨u, hu⟩ := hst'.nonempty_iff.mp hloop.1
      have hlt := ((hsearched'.frontier u).mp hu).lt_card (S := Finset.range n)
        fun j v hwalk => Finset.mem_range.mpr (leads_lt hg hn hwalk)
      rwa [Finset.card_range] at hlt
  · have hF := hst.nonempty_iff.mp hmore
    exact ⟨Bfs.safe hg hst hF, Bfs.round_exists hg hst hF⟩
  · have hempty : (st.tree n F).frontier = ∅ :=
      Set.eq_empty_iff_forall_notMem.mpr fun u hu => hst.nonempty_iff.mpr ⟨u, hu⟩ hdone
    rw [ne_eq, ← Program.tree_none (F := F) hv]
    constructor
    · intro hfound
      obtain ⟨j, _, hwalk⟩ := (hsearched.seen v).mp hfound
      exact ⟨j, hwalk⟩
    · rintro ⟨j, hwalk⟩
      exact hsearched.closed hempty hwalk
  · intro hv0 hfound
    obtain ⟨u, hu⟩ := Option.ne_none_iff_exists'.mp
      (mt (Program.tree_none (F := F) hv).mp hfound)
    exact ⟨u, hvalue hu, hsearched.tree v u hv0 hu⟩

theorem oneEdge_bfs : Repeat (Bfs.Loop oneEdge .push)
    ⟨#[0, -1], none, (VertexSubset.make 2 0).addVertex 0⟩ 2
    ⟨#[0, 0], none, VertexSubset.make 2 0⟩ := by
  have hfirst : SearchRound oneEdge false ⟨#[0, -1], none, (VertexSubset.make 2 0).addVertex 0⟩
      ⟨#[0, 0], none, ⟨2, 1, some #[1], [], none⟩⟩ :=
    @SearchRound.strands oneEdge false _ ⟨#[0], #[0], 1, #[0, 0]⟩ #[0] [0]
      ⟨#[0, 0], #[1], [.neighbour 1]⟩ rfl (by decide) rfl rfl (by
        intro i pc hi
        match i with
        | 0 =>
          cases hi
          rfl)
  have hsecond : SearchRound oneEdge false ⟨#[0, 0], none, ⟨2, 1, some #[1], [], none⟩⟩
      ⟨#[0, 0], none, VertexSubset.make 2 0⟩ :=
    @SearchRound.quiet oneEdge false _ ⟨#[1], #[0], 0, #[0, 0]⟩ rfl rfl
  exact .succ (.succ .zero ⟨by decide, hfirst⟩) ⟨by decide, hsecond⟩

theorem bfs_layers_oneEdge : ∃ u : Nat, (#[0, 0] : Array Int)[1]! = u ∧ Edge oneEdge u 1 ∧
    ∃ m, Depth (Edge oneEdge) 0 m u ∧ Depth (Edge oneEdge) 0 (m + 1) 1 :=
  (((bfs_layers .push oneEdge_wellformed (by decide) rfl oneEdge_bfs).2.2 rfl).2 1 (by decide)).2
    (by decide) (by decide)

end Search

end GraphReorder.GraphIt
