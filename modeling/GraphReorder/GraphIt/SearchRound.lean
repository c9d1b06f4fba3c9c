import Mathlib.Algebra.Ring.Nat
import Mathlib.Algebra.BigOperators.Ring.List
import GraphReorder.Library.Layers
import GraphReorder.GraphIt.PushSpec

/-! A round of the benchmark program `bfs` in the push direction: the strands give the neighbours of
the frontier that have no parent yet one, by compare-and-swap. The program that chooses the direction
asks a filter first. -/
namespace GraphReorder.GraphIt
open Library

/-- Where a strand is: at its `j`-th neighbour, or there and past the filter. -/
inductive SearchPc
  | neighbour (j : Nat)
  | swap (j : Nat)

structure SearchState where
  parent : Array Int
  outEdges : Array Nat
  strands : List SearchPc

def SearchState.skip (st : SearchState) (i offset j : Nat) : Option SearchState := do
  let outEdges ← store st.outEdges (offset + j) UINT_E_MAX
  pure ⟨st.parent, outEdges, st.strands.set i (.neighbour (j + 1))⟩

def SearchState.swap (st : SearchState) (i offset j src dst : Nat) : Option SearchState := do
  if (← st.parent[dst]?) = -1 then do
    let parent ← store st.parent dst (src : Int)
    let outEdges ← store st.outEdges (offset + j) dst
    pure ⟨parent, outEdges, st.strands.set i (.neighbour (j + 1))⟩
  else st.skip i offset j

section Model
variable (g : WGraph) (filtered : Bool)

/-- A step of a strand, which touches one parent at most. -/
def searchStep (fork : Fork) (i : Nat) (st : SearchState) : Option SearchState := do
  let s ← fork.dense_vertex_set[i]?
  let neigh ← g.out_neigh[s]?
  let offset ← fork.offsets[i]?
  match ← st.strands[i]? with
  | .neighbour j => do
    let d ← neigh[j]?
    if filtered then
      if (← st.parent[d.v]?) = -1 then pure { st with strands := st.strands.set i (.swap j) }
      else st.skip i offset j
    else st.swap i offset j s d.v
  | .swap j => do
    let d ← neigh[j]?
    st.swap i offset j s d.v

def searchStart (fork : Fork) (st : Program) (outEdges : Array Nat) : SearchState where
  parent := st.labels
  outEdges := outEdges
  strands := List.replicate fork.dense_vertex_set.size (.neighbour 0)

def searchJoin (st : Program) (s : SearchState) : Program :=
  let nextIndices := s.outEdges.toList.filter fun d => d != UINT_E_MAX
  { labels := s.parent
    flags := st.flags
    frontier := { VertexSubset.make g.num_nodes 0 with
      num_vertices := nextIndices.length
      dense_vertex_set := some nextIndices.toArray } }

def Through (g : WGraph) (fork : Fork) (s : SearchState) : Prop :=
  ∀ i (pc : SearchPc), s.strands[i]? = some pc → pc = .neighbour (neighbours g fork i).length

/-- `edgeset_apply_push_parallel_from_vertexset_with_frontier`, with the steps of the strands in any
order; `filtered` in the push branch of
`edgeset_apply_hybrid_dense_parallel_from_vertexset_to_filter_func_with_frontier`. -/
inductive SearchRound (st : Program) : Program → Prop
  | quiet {fork : Fork} (hfork : pushFork g st = some fork) (hno : fork.outEdgeCount = 0) :
      SearchRound st ⟨st.labels, st.flags, VertexSubset.make g.num_nodes 0⟩
  | strands {fork : Fork} {outEdges : Array Nat} {sched : List Nat} {s : SearchState}
      (hfork : pushFork g st = some fork) (hsome : fork.outEdgeCount ≠ 0)
      (hsize : outEdges.size = fork.outEdgeCount)
      (hrun : interleave (searchStep g filtered fork) sched (searchStart fork st outEdges) =
        some s)
      (hthrough : Through g fork s) : SearchRound st (searchJoin g st s)

end Model

namespace SearchPc

def place : SearchPc → Nat
  | neighbour j => j
  | swap j => j

@[simp] theorem place_neighbour (j : Nat) : (neighbour j).place = j := rfl

def Within (count : Nat) : SearchPc → Prop
  | neighbour j => j ≤ count
  | swap j => j < count

def left (count : Nat) : SearchPc → Nat
  | neighbour j => (count - j) * 2
  | swap j => (count - j) * 2 - 1

theorem Within.place_le {count : Nat} {pc : SearchPc} (h : pc.Within count) :
    pc.place ≤ count := by
  cases pc with
  | neighbour j => exact h
  | swap j => exact Nat.le_of_lt h

end SearchPc

section Round
variable (g : WGraph) (n : Nat) (p₀ : Nat → Int) (fork : Fork)

def Found (st : SearchState) (i j v : Nat) : Prop :=
  v < n ∧ ∃ pc, st.strands[i]? = some pc ∧ j < pc.place ∧ st.outEdges[cell g fork i j]! = v

/-- The state in the middle of a round: the vertices with a new parent are those found, each once. -/
structure Searching (st : SearchState) : Prop where
  parent : st.parent.size = n
  outEdges : st.outEdges.size = (degrees g fork).sum
  strands : st.strands.length = fork.dense_vertex_set.size
  within : ∀ i (pc : SearchPc), st.strands[i]? = some pc → pc.Within (neighbours g fork i).length
  kept : ∀ v < n, p₀ v ≠ -1 → st.parent[v]! = p₀ v
  found : ∀ v < n, p₀ v = -1 → st.parent[v]! ≠ -1 → ∃ i j, ∃ d : WNode, Found g n fork st i j v ∧
    (neighbours g fork i)[j]? = some d ∧ d.v = v ∧ st.parent[v]! = fork.dense_vertex_set[i]!
  served : ∀ i (pc : SearchPc), st.strands[i]? = some pc → ∀ j < pc.place, ∀ d : WNode,
    (neighbours g fork i)[j]? = some d → st.parent[d.v]! ≠ -1
  written : ∀ i (pc : SearchPc), st.strands[i]? = some pc → ∀ j < pc.place,
    st.outEdges[cell g fork i j]! = UINT_E_MAX ∨ st.outEdges[cell g fork i j]! < n
  first : ∀ i j v, Found g n fork st i j v → p₀ v = -1 ∧ st.parent[v]! ≠ -1
  once : ∀ v i j i' j', Found g n fork st i j v → Found g n fork st i' j' v → i = i' ∧ j = j'

variable {g n p₀ fork} {F : Finset Nat} {st : SearchState} {i j : Nat} {d : WNode}
variable {pc q : SearchPc} {filtered : Bool}

theorem Searching.strand_lt (h : Searching g n p₀ fork st) (hpc : st.strands[i]? = some pc) :
    i < fork.dense_vertex_set.size := h.strands ▸ (List.getElem?_eq_some_iff.mp hpc).1

theorem Searching.found_visit (h : Searching g n p₀ fork st) (hpc : st.strands[i]? = some pc)
    (hplace : pc.place = j) (hj : j < (neighbours g fork i).length) (x : Nat)
    (parent : Array Int) (i' j' v : Nat) :
    Found g n fork ⟨parent, st.outEdges.setIfInBounds (cell g fork i j) x,
        st.strands.set i (.neighbour (j + 1))⟩ i' j' v ↔
      Found g n fork st i' j' v ∨ (i' = i ∧ j' = j ∧ x = v ∧ v < n) :=
  Forked.left_step (fun _ (r : SearchPc) => r.place) h.outEdges h.strands
    (fun k r hr => (h.within k r hr).place_le) hpc hplace rfl hj x v

theorem Searching.visit (h : Searching g n p₀ fork st) (hpc : st.strands[i]? = some pc)
    (hplace : pc.place = j) (hd : (neighbours g fork i)[j]? = some d) (hdn : d.v < n) {x : Nat}
    {parent : Array Int} (hsize : parent.size = n)
    (hold : ∀ v < n, st.parent[v]! ≠ -1 → parent[v]! = st.parent[v]!)
    (hnew : ∀ v < n, parent[v]! ≠ -1 → st.parent[v]! = -1 →
      x = v ∧ d.v = v ∧ parent[v]! = fork.dense_vertex_set[i]!)
    (hhas : parent[d.v]! ≠ -1)
    (hx : x = UINT_E_MAX ∧ n ≤ x ∨ x = d.v ∧ st.parent[d.v]! = -1) :
    Searching g n p₀ fork ⟨parent, st.outEdges.setIfInBounds (cell g fork i j) x,
      st.strands.set i (.neighbour (j + 1))⟩ := by
  have hj : j < (neighbours g fork i).length := (List.getElem?_eq_some_iff.mp hd).1
  have hi := h.strand_lt hpc
  have hcell : cell g fork i j < st.outEdges.size := h.outEdges ▸ Forked.cell_lt hi hj
  have hvisit := h.found_visit hpc hplace hj x parent
  have hne {v : Nat} (hv : v < n) (hp : st.parent[v]! ≠ -1) : parent[v]! ≠ -1 := by
    rwa [hold v hv hp]
  refine ⟨hsize, by simpa using h.outEdges, by simpa using h.strands,
    forall_set (fun i pc => pc.Within (neighbours g fork i).length) hj fun k r _ hr =>
      h.within k r hr, fun v hv hp => ?_, fun v hv hp hnow => ?_,
    fun k r hr j' hj' e he => ?_, fun k r hr j' hj' => ?_, fun i' j' v hf => ?_,
    fun v i₁ j₁ i₂ j₂ hf₁ hf₂ => ?_⟩
  · have hkept := h.kept v hv hp
    rw [← hkept]
    exact hold v hv (by rwa [hkept])
  · by_cases hbefore : st.parent[v]! = -1
    · obtain ⟨hxv, hdv, hpar⟩ := hnew v hv hnow hbefore
      exact ⟨i, j, d, (hvisit i j v).mpr (.inr ⟨rfl, rfl, hxv, hv⟩), hd, hdv, hpar⟩
    · obtain ⟨i', j', e, hf, he, hev, hpar⟩ := h.found v hv hp hbefore
      exact ⟨i', j', e, (hvisit i' j' v).mpr (.inl hf), he, hev, (hold v hv hbefore).trans hpar⟩
  · rw [set_get hpc] at hr
    by_cases hk : k = i
    · rw [if_pos hk] at hr
      cases hr
      subst hk
      rw [SearchPc.place_neighbour] at hj'
      by_cases hjj : j' = j
      · subst hjj
        obtain rfl := Option.some.inj (he.symm.trans hd)
        exact hhas
      · have hserved := h.served k pc hpc j' (by omega) e he
        by_cases hen : e.v < n
        · exact hne hen hserved
        · rw [getElem!_neg _ _ (by rw [hsize]; exact hen)]
          decide
    · rw [if_neg hk] at hr
      have hserved := h.served k r hr j' hj' e he
      by_cases hen : e.v < n
      · exact hne hen hserved
      · rw [getElem!_neg _ _ (by rw [hsize]; exact hen)]
        decide
  · rw [set_get hpc] at hr
    simp only [put_get hcell]
    split_ifs with heq
    · rcases hx with ⟨hx, _⟩ | ⟨hx, _⟩
      · exact .inl hx
      · exact .inr (hx ▸ hdn)
    · by_cases hk : k = i
      · rw [if_pos hk] at hr
        cases hr
        subst hk
        refine h.written k pc hpc j' ?_
        rw [SearchPc.place_neighbour] at hj'
        have hjj : j' ≠ j := by
          rintro rfl
          exact heq rfl
        omega
      · rw [if_neg hk] at hr
        exact h.written k r hr j' hj'
  · rcases (hvisit i' j' v).mp hf with hf | ⟨_, _, hxv, hv⟩
    · exact ⟨(h.first i' j' v hf).1, hne hf.1 (h.first i' j' v hf).2⟩
    · rcases hx with ⟨_, hx⟩ | ⟨hx, hbefore⟩
      · omega
      · obtain rfl : d.v = v := hx.symm.trans hxv
        refine ⟨?_, hhas⟩
        by_contra hp
        exact hp ((h.kept _ hv hp).symm.trans hbefore)
  · -- a vertex that had been found had a parent
    have hnot {i' j' : Nat} (hf : Found g n fork st i' j' v) : x ≠ v := by
      rintro rfl
      rcases hx with ⟨_, hx⟩ | ⟨hx, hbefore⟩
      · exact absurd hf.1 (Nat.not_lt.mpr hx)
      · exact (h.first i' j' x hf).2 (hx ▸ hbefore)
    rcases (hvisit i₁ j₁ v).mp hf₁ with hf₁ | ⟨rfl, rfl, hxv, _⟩
    · rcases (hvisit i₂ j₂ v).mp hf₂ with hf₂ | ⟨_, _, hxv, _⟩
      · exact h.once v i₁ j₁ i₂ j₂ hf₁ hf₂
      · exact absurd hxv (hnot hf₁)
    · rcases (hvisit i₂ j₂ v).mp hf₂ with hf₂ | ⟨rfl, rfl, _, _⟩
      · exact absurd hxv (hnot hf₂)
      · exact ⟨rfl, rfl⟩

theorem Searching.pass (h : Searching g n p₀ fork st) (hpc : st.strands[i]? = some (.neighbour j))
    (hj : j < (neighbours g fork i).length) :
    Searching g n p₀ fork { st with strands := st.strands.set i (.swap j) } := by
  have hsame (i' j' v : Nat) :
      Found g n fork { st with strands := st.strands.set i (.swap j) } i' j' v ↔
        Found g n fork st i' j' v := by
    simp only [Found, set_get hpc]
    by_cases hii : i' = i
    · subst hii
      simp [hpc, SearchPc.place]
    · simp [hii]
  refine ⟨h.parent, h.outEdges, by simpa using h.strands,
    forall_set (fun i pc => pc.Within (neighbours g fork i).length) hj fun k r _ hr =>
      h.within k r hr, h.kept, fun v hv hp hnow => ?_,
    forall_set (fun i (pc : SearchPc) => ∀ j < pc.place, ∀ d : WNode,
      (neighbours g fork i)[j]? = some d → st.parent[d.v]! ≠ -1)
      (h.served i (.neighbour j) hpc) fun k r _ hr => h.served k r hr,
    forall_set (fun i (pc : SearchPc) => ∀ j < pc.place,
      st.outEdges[cell g fork i j]! = UINT_E_MAX ∨ st.outEdges[cell g fork i j]! < n)
      (h.written i (.neighbour j) hpc) fun k r _ hr => h.written k r hr,
    fun i' j' v hf => h.first i' j' v ((hsame i' j' v).mp hf), fun v i₁ j₁ i₂ j₂ hf₁ hf₂ =>
      h.once v i₁ j₁ i₂ j₂ ((hsame i₁ j₁ v).mp hf₁) ((hsame i₂ j₂ v).mp hf₂)⟩
  obtain ⟨i', j', d, hf, hrest⟩ := h.found v hv hp hnow
  exact ⟨i', j', d, (hsame i' j' v).mpr hf, hrest⟩

theorem Searching.skip (hg : g.Wellformed n) (h : Searching g n p₀ fork st)
    (hpc : st.strands[i]? = some pc) (hplace : pc.place = j)
    (hd : (neighbours g fork i)[j]? = some d) (hdn : d.v < n) (htaken : st.parent[d.v]! ≠ -1) :
    ∃ st', st.skip i (rowStart (degrees g fork) i) j = some st' ∧ Searching g n p₀ fork st' ∧
      st'.strands = st.strands.set i (.neighbour (j + 1)) := by
  have hj : j < (neighbours g fork i).length := (List.getElem?_eq_some_iff.mp hd).1
  have hcell : cell g fork i j < st.outEdges.size :=
    h.outEdges ▸ Forked.cell_lt (h.strand_lt hpc) hj
  refine ⟨⟨st.parent, st.outEdges.setIfInBounds (cell g fork i j) UINT_E_MAX,
    st.strands.set i (.neighbour (j + 1))⟩, ?_, ?_, rfl⟩
  · rw [SearchState.skip, ← cell, store_eq hcell]
    rfl
  · exact h.visit hpc hplace hd hdn h.parent (fun v _ _ => rfl)
      (fun v _ hnow hv => absurd hv hnow) htaken (.inl ⟨rfl, hg.max⟩)

theorem Searching.swap (hg : g.Wellformed n) (h : Searching g n p₀ fork st)
    (hpc : st.strands[i]? = some pc) (hplace : pc.place = j)
    (hd : (neighbours g fork i)[j]? = some d) (hdn : d.v < n) :
    ∃ st', st.swap i (rowStart (degrees g fork) i) j fork.dense_vertex_set[i]! d.v = some st' ∧
      Searching g n p₀ fork st' ∧ st'.strands = st.strands.set i (.neighbour (j + 1)) := by
  have hj : j < (neighbours g fork i).length := (List.getElem?_eq_some_iff.mp hd).1
  have hcell : cell g fork i j < st.outEdges.size :=
    h.outEdges ▸ Forked.cell_lt (h.strand_lt hpc) hj
  have hdp : d.v < st.parent.size := h.parent.symm ▸ hdn
  have hs : (fork.dense_vertex_set[i]! : Int) ≠ -1 := by omega
  rw [SearchState.swap, read_eq hdp, some_bind]
  by_cases hfree : st.parent[d.v]! = -1
  · have hget (v : Nat) : (st.parent.setIfInBounds d.v (fork.dense_vertex_set[i]! : Int))[v]! =
        if v = d.v then (fork.dense_vertex_set[i]! : Int) else st.parent[v]! := put_get hdp _ v
    refine ⟨⟨st.parent.setIfInBounds d.v fork.dense_vertex_set[i]!,
      st.outEdges.setIfInBounds (cell g fork i j) d.v, st.strands.set i (.neighbour (j + 1))⟩,
      ?_, h.visit hpc hplace hd hdn (by simpa using h.parent) (fun v _ hv => ?_)
      (fun v _ hnow hv => ?_) ?_ (.inr ⟨rfl, hfree⟩), rfl⟩
    · rw [if_pos hfree, store_eq hdp, some_bind, ← cell, store_eq hcell]
      rfl
    · rw [hget v, if_neg]
      rintro rfl
      exact hv hfree
    · by_cases hvd : v = d.v
      · exact ⟨hvd.symm, hvd.symm, by rw [hget v, if_pos hvd]⟩
      · rw [hget v, if_neg hvd] at hnow
        exact absurd hv hnow
    · rw [hget d.v, if_pos rfl]
      exact hs
  · rw [if_neg hfree]
    exact h.skip hg hpc hplace hd hdn hfree

def searchEffort (g : WGraph) (fork : Fork) (st : SearchState) : Nat :=
  effort (fun i => SearchPc.left (neighbours g fork i).length) st.strands

theorem searchEffort_move {st' : SearchState} (hpc : st.strands[i]? = some pc)
    (hstrands : st'.strands = st.strands.set i q)
    (hlt : q.left (neighbours g fork i).length < pc.left (neighbours g fork i).length) :
    searchEffort g fork st' < searchEffort g fork st := by
  have hset := effort_set (fun i => SearchPc.left (neighbours g fork i).length) hpc q
  rw [searchEffort, searchEffort, hstrands]
  omega

theorem Searching.progress (filtered : Bool) (hg : g.Wellformed n) (hfork : Forked g n F fork)
    (h : Searching g n p₀ fork st) (hpc : st.strands[i]? = some pc)
    (hnot : pc ≠ .neighbour (neighbours g fork i).length) :
    ∃ st', searchStep g filtered fork i st = some st' ∧ Searching g n p₀ fork st' ∧
      searchEffort g fork st' < searchEffort g fork st := by
  have hi := h.strand_lt hpc
  have hwithin := h.within i pc hpc
  have hread {j : Nat} (hj : j < (neighbours g fork i).length) : ∃ d : WNode,
      (neighbours g fork i)[j]? = some d ∧ d.v < n ∧ d.v < st.parent.size := by
    have hd : (neighbours g fork i)[j]? = some _ := List.getElem?_eq_getElem hj
    have hdn := hfork.neighbour_lt hg hi hd
    exact ⟨_, hd, hdn, h.parent.symm ▸ hdn⟩
  rw [searchStep, read_eq hi, some_bind,
    read_eq (by rw [hg.out_size]; exact hfork.source_lt hi), some_bind, hfork.offsets i hi,
    some_bind, hpc, some_bind]
  change ∃ st', (match pc with
    | .neighbour j => (neighbours g fork i)[j]? >>= _
    | .swap j => (neighbours g fork i)[j]? >>= _) = some st' ∧ _
  cases pc with
  | neighbour j =>
    have hj : j < (neighbours g fork i).length :=
      lt_of_le_of_ne hwithin fun heq => hnot (heq ▸ rfl)
    obtain ⟨d, hd, hdn, hdp⟩ := hread hj
    have hleft : SearchPc.left (neighbours g fork i).length (.neighbour (j + 1)) <
        SearchPc.left (neighbours g fork i).length (.neighbour j) := by
      simp only [SearchPc.left]
      omega
    simp only [hd, some_bind]
    cases filtered with
    | false =>
      obtain ⟨st', hswap, hnext, hstrands⟩ := h.swap hg hpc rfl hd hdn
      exact ⟨st', hswap, hnext, searchEffort_move hpc hstrands hleft⟩
    | true =>
      simp only [if_true, read_eq hdp, some_bind]
      by_cases hfree : st.parent[d.v]! = -1
      · rw [if_pos hfree]
        refine ⟨_, rfl, h.pass hpc hj, searchEffort_move hpc rfl ?_⟩
        simp only [SearchPc.left]
        omega
      · rw [if_neg hfree]
        obtain ⟨st', hskip, hnext, hstrands⟩ := h.skip hg hpc rfl hd hdn hfree
        exact ⟨st', hskip, hnext, searchEffort_move hpc hstrands hleft⟩
  | swap j =>
    obtain ⟨d, hd, hdn, _⟩ := hread hwithin
    obtain ⟨st', hswap, hnext, hstrands⟩ := h.swap (j := j) hg hpc rfl hd hdn
    simp only [hd, some_bind]
    refine ⟨st', hswap, hnext, searchEffort_move hpc hstrands ?_⟩
    have hj : j < (neighbours g fork i).length := hwithin
    simp only [SearchPc.left]
    omega

theorem Searching.next (hg : g.Wellformed n) (hfork : Forked g n F fork)
    (h : Searching g n p₀ fork st) {st' : SearchState}
    (hstep : searchStep g filtered fork i st = some st') :
    Searching g n p₀ fork st' ∧ searchEffort g fork st' < searchEffort g fork st := by
  obtain ⟨s, hs, hrest⟩ := Option.bind_eq_some_iff.mp hstep
  obtain ⟨neigh, hneigh, hrest⟩ := Option.bind_eq_some_iff.mp hrest
  obtain ⟨offset, _, hrest⟩ := Option.bind_eq_some_iff.mp hrest
  obtain ⟨pc, hpc, hrest⟩ := Option.bind_eq_some_iff.mp hrest
  have hsame : neighbours g fork i = neigh := by
    simp only [neighbours, getElem!_def, hs, hneigh]
  have hnot : pc ≠ .neighbour (neighbours g fork i).length := by
    rintro rfl
    obtain ⟨d, hd, _⟩ := Option.bind_eq_some_iff.mp hrest
    rw [hsame, List.getElem?_eq_none le_rfl] at hd
    cases hd
  obtain ⟨st'', hstep', hnext⟩ := h.progress filtered hg hfork hpc hnot
  obtain rfl := Option.some.inj (hstep'.symm.trans hstep)
  exact hnext

end Round

def Program.tree (st : Program) (n : Nat) (F : Finset Nat) : SearchTree Nat where
  parent v := if v < n ∧ st.labels[v]! ≠ -1 then some st.labels[v]!.toNat else none
  frontier := fun v => v ∈ F

def Edge (g : WGraph) (u v : Nat) : Prop := ∃ d ∈ g.out_neigh[u]!, d.v = v

/-- Whatever steps the strands have taken, each that is not through has another one, and there are no
more of them than two for each edge. -/
def SearchSafe (g : WGraph) (filtered : Bool) (st : Program) : Prop :=
  ∃ fork, pushFork g st = some fork ∧ ∀ outEdges sched s, outEdges.size = fork.outEdgeCount →
    interleave (searchStep g filtered fork) sched (searchStart fork st outEdges) = some s →
    (∀ i pc, s.strands[i]? = some pc → pc ≠ .neighbour (neighbours g fork i).length →
      ∃ s', searchStep g filtered fork i s = some s') ∧
    sched.length ≤ fork.outEdgeCount * 2

section Run
variable {g : WGraph} {n : Nat} {F : Finset Nat} {fork : Fork} {st : Program} {s : SearchState}
variable {p₀ : Nat → Int} {outEdges : Array Nat} {sched : List Nat} {filtered : Bool}

theorem Searching.start (hst : Ready n st F) (hfork : Forked g n F fork)
    (hsize : outEdges.size = fork.outEdgeCount) :
    Searching g n (fun v => st.labels[v]!) fork (searchStart fork st outEdges) := by
  have hpc {i : Nat} {pc : SearchPc} (h : (searchStart fork st outEdges).strands[i]? = some pc) :
      pc = .neighbour 0 := List.eq_of_mem_replicate (List.mem_of_getElem? h)
  have hnone (i j v : Nat) : ¬ Found g n fork (searchStart fork st outEdges) i j v := by
    rintro ⟨_, pc, h, hj, _⟩
    rw [hpc h] at hj
    exact Nat.not_lt_zero _ hj
  refine ⟨hst.labels, hsize.trans hfork.count, List.length_replicate, fun i j h => ?_,
    fun _ _ _ => rfl, fun v _ hp hnow => absurd hp hnow, fun i k h j hj => ?_,
    fun i k h j hj => ?_, fun i j v hf => absurd hf (hnone i j v),
    fun v i j _ _ hf => absurd hf (hnone i j v)⟩
  · rw [hpc h]
    exact Nat.zero_le _
  · rw [hpc h] at hj
    exact absurd hj (Nat.not_lt_zero j)
  · rw [hpc h] at hj
    exact absurd hj (Nat.not_lt_zero j)

theorem searchEffort_start :
    searchEffort g fork (searchStart fork st outEdges) = (degrees g fork).sum * 2 := by
  have hmap : (searchStart fork st outEdges).strands.mapIdx
      (fun i => SearchPc.left (neighbours g fork i).length) =
        (degrees g fork).map fun deg => deg * 2 := by
    refine List.ext_getElem (by simp [searchStart, degrees]) fun i hi _ => ?_
    have hi' : i < fork.dense_vertex_set.size := by simpa [searchStart] using hi
    obtain ⟨_, hdeg⟩ := Forked.degrees_get (g := g) hi'
    simp only [List.getElem_mapIdx, searchStart, List.getElem_replicate, List.getElem_map, hdeg,
      SearchPc.left, Nat.sub_zero]
  have hsum : ((degrees g fork).map fun deg => deg * 2).sum = (degrees g fork).sum * 2 := by
    rw [List.sum_map_mul_right, List.map_id']
  rw [← hsum, ← hmap]
  rfl

theorem search_run (hg : g.Wellformed n) (hst : Ready n st F) (hfork : Forked g n F fork)
    (hsize : outEdges.size = fork.outEdgeCount)
    (hrun : interleave (searchStep g filtered fork) sched (searchStart fork st outEdges) = some s) :
    Searching g n (fun v => st.labels[v]!) fork s ∧
      sched.length + searchEffort g fork s ≤ fork.outEdgeCount * 2 := by
  obtain ⟨hsearch, hlen⟩ := interleave_effort
    (Searching g n (fun v => st.labels[v]!) fork) (searchEffort g fork)
    (fun _ _ _ hsearch hstep => hsearch.next hg hfork hstep) (.start hst hfork hsize) hrun
  rw [searchEffort_start, ← hfork.count] at hlen
  exact ⟨hsearch, hlen⟩

theorem Searching.strand_through (h : Searching g n p₀ fork s) (hthrough : Through g fork s)
    {i : Nat} (hi : i < fork.dense_vertex_set.size) :
    s.strands[i]? = some (.neighbour (neighbours g fork i).length) := by
  obtain ⟨pc, hget⟩ : ∃ pc, s.strands[i]? = some pc :=
    ⟨_, List.getElem?_eq_getElem (h.strands.symm ▸ hi)⟩
  rw [hget, hthrough i pc hget]

theorem Searching.leaves_iff (h : Searching g n p₀ fork s) (hthrough : Through g fork s)
    {i j v : Nat} : Leaves g n fork s.outEdges i j v ↔ Found g n fork s i j v := by
  constructor
  · rintro ⟨hv, hi, hj, hget⟩
    exact ⟨hv, _, h.strand_through hthrough hi, hj, hget⟩
  · rintro ⟨hv, k, hpc, hj, hget⟩
    exact ⟨hv, h.strand_lt hpc, hj.trans_le (h.within i k hpc).place_le, hget⟩

theorem Searching.join (hg : g.Wellformed n) (hn : 0 < n) (hst : Ready n st F)
    (h : Searching g n p₀ fork s) (hthrough : Through g fork s) :
    ∃ F', Ready n (searchJoin g st s) F' ∧ ∀ v, v ∈ F' ↔ ∃ i j, Found g n fork s i j v := by
  obtain ⟨hnodup, hmem⟩ := Forked.nextIndices h.outEdges hg.max
    (fun i hi j hj => h.written i _ (h.strand_through hthrough hi) j hj)
    fun v i j i' j' hl hl' =>
      h.once v i j i' j' ((h.leaves_iff hthrough).mp hl) ((h.leaves_iff hthrough).mp hl')
  simp only [h.leaves_iff hthrough] at hmem
  generalize hnext : (s.outEdges.toList.filter fun d => d != UINT_E_MAX) = next at hnodup hmem
  have hlists : Lists next next.toFinset := ⟨hnodup, fun v => List.mem_toFinset.symm⟩
  refine ⟨next.toFinset, ⟨h.parent, hst.flags, ?_⟩, fun v => by rw [List.mem_toFinset, hmem]⟩
  rw [searchJoin, hnext, WGraph.num_nodes, hg.out_size]
  refine VertexSubset.make_list hn hlists fun v hv => ?_
  obtain ⟨_, _, hf⟩ := (hmem v).mp (List.mem_toFinset.mp hv)
  exact hf.1

theorem Program.tree_none {v : Nat} (hv : v < n) :
    (st.tree n F).parent v = none ↔ st.labels[v]! = -1 := by
  simp [Program.tree, hv]

theorem Program.tree_some {v u : Nat} :
    (st.tree n F).parent v = some u ↔ v < n ∧ st.labels[v]! ≠ -1 ∧ st.labels[v]!.toNat = u := by
  simp only [Program.tree]
  split_ifs with h
  · simp [h]
  · simp only [false_iff]
    exact fun hu => h ⟨hu.1, hu.2.1⟩

theorem Searching.parent_ge (h : Searching g n p₀ fork s) (hp₀ : ∀ v < n, -1 ≤ p₀ v) {v : Nat}
    (hv : v < n) : -1 ≤ s.parent[v]! := by
  by_cases hp : p₀ v = -1
  · by_cases hnow : s.parent[v]! = -1
    · exact hnow.ge
    · obtain ⟨_, _, _, _, _, _, hpar⟩ := h.found v hv hp hnow
      omega
  · rw [h.kept v hv hp]
    exact hp₀ v hv

/-- A round finds a layer. -/
theorem search_layer (hg : g.Wellformed n) (hn : 0 < n) (hst : Ready n st F) (hF : F.Nonempty)
    (hpar : ∀ v < n, -1 ≤ st.labels[v]!) {st' : Program}
    (hround : SearchRound g filtered st st') :
    ∃ F', Ready n st' F' ∧ Layer (Edge g) (st.tree n F) (st'.tree n F') ∧
      ∀ v < n, -1 ≤ st'.labels[v]! := by
  obtain ⟨fork, hfork, hforked⟩ := pushFork_spec hg hst.frontier hF hst.flags
  cases hround with
  | quiet hfork' hno =>
    obtain rfl := Option.some.inj (hfork.symm.trans hfork')
    -- no strand has a neighbour
    have hnone {u v : Nat} (hu : u ∈ F) : ¬ Edge g u v := by
      rintro ⟨d, hd, _⟩
      obtain ⟨i, hi, rfl⟩ := hforked.strand_of hu
      obtain ⟨j, hj, _⟩ := List.getElem_of_mem hd
      have := Forked.cell_lt (g := g) hi hj
      rw [← hforked.count, hno] at this
      exact absurd this (Nat.not_lt_zero _)
    refine ⟨∅, ⟨hst.labels, hst.flags, ?_⟩, ⟨fun v u hu => hu, fun v => ?_, fun v hv => ?_,
      fun v u hv hu => ?_⟩, hpar⟩
    · rw [WGraph.num_nodes, hg.out_size]
      exact VertexSubset.make_empty hn
    · refine iff_of_false (Finset.notMem_empty v) ?_
      rintro ⟨_, u, hu, hedge⟩
      exact hnone hu hedge
    · exact absurd hv (Finset.notMem_empty v)
    · exact absurd (hv.symm.trans hu) (Option.some_ne_none u).symm
  | strands hfork' _ hsize hrun hthrough =>
    obtain rfl := Option.some.inj (hfork.symm.trans hfork')
    obtain ⟨hsearch, _⟩ := search_run hg hst hforked hsize hrun
    obtain ⟨F', hready, hmem⟩ := hsearch.join hg hn hst hthrough
    refine ⟨F', hready, ⟨fun v u hu => ?_, fun v => ?_, fun v hv => ?_, fun v u hv hu => ?_⟩,
      fun v hv => hsearch.parent_ge hpar hv⟩
    · obtain ⟨hvn, hp, hu⟩ := Program.tree_some.mp hu
      have hkept := hsearch.kept v hvn hp
      refine Program.tree_some.mpr ⟨hvn, ?_, ?_⟩
      · exact hkept.symm ▸ hp
      · exact hkept.symm ▸ hu
    · refine (hmem v).trans ?_
      constructor
      · rintro ⟨i, j, hf⟩
        obtain ⟨hp, hnow⟩ := hsearch.first i j v hf
        obtain ⟨i', j', d, hf', hd, hdv, _⟩ := hsearch.found v hf.1 hp hnow
        obtain ⟨_, k, hpc, _⟩ := hf'
        exact ⟨(Program.tree_none hf.1).mpr hp, _, hforked.source_mem (hsearch.strand_lt hpc),
          d, List.mem_of_getElem? hd, hdv⟩
      · rintro ⟨hv, u, hu, d, hd, hdv⟩
        obtain ⟨i, hi, rfl⟩ := hforked.strand_of hu
        obtain ⟨j, hj, hget⟩ := List.getElem_of_mem hd
        have hdj : (neighbours g fork i)[j]? = some d := by
          rw [← hget]
          exact List.getElem?_eq_getElem hj
        have hvn : v < n := hdv ▸ hforked.neighbour_lt hg hi hdj
        have hnow := hsearch.served i _ (hsearch.strand_through hthrough hi) j hj d hdj
        obtain ⟨i', j', _, hf, _⟩ :=
          hsearch.found v hvn ((Program.tree_none hvn).mp hv) (hdv ▸ hnow)
        exact ⟨i', j', hf⟩
    · obtain ⟨i, j, hf⟩ := (hmem v).mp hv
      exact fun hnone => (hsearch.first i j v hf).2 ((Program.tree_none hf.1).mp hnone)
    · obtain ⟨hvn, hnow, hu⟩ := Program.tree_some.mp hu
      obtain ⟨i, j, d, ⟨_, k, hpc, _⟩, hd, hdv, hpar⟩ :=
        hsearch.found v hvn ((Program.tree_none hvn).mp hv) hnow
      have hui : fork.dense_vertex_set[i]! = u := by
        rw [← hu]
        exact (congrArg Int.toNat hpar).symm
      exact ⟨hui ▸ hforked.source_mem (hsearch.strand_lt hpc), d,
        hui ▸ List.mem_of_getElem? hd, hdv⟩

theorem search_safe (hg : g.Wellformed n) (hst : Ready n st F) (hF : F.Nonempty) :
    SearchSafe g filtered st := by
  obtain ⟨fork, hfork, hforked⟩ := pushFork_spec hg hst.frontier hF hst.flags
  refine ⟨fork, hfork, fun outEdges sched s hsize hrun => ?_⟩
  obtain ⟨hsearch, hlen⟩ := search_run hg hst hforked hsize hrun
  refine ⟨fun i pc hpc hnot => ?_, by omega⟩
  obtain ⟨s', hstep, _⟩ := hsearch.progress filtered hg hforked hpc hnot
  exact ⟨s', hstep⟩

theorem search_exists (filtered : Bool) (hg : g.Wellformed n) (hst : Ready n st F) (hF : F.Nonempty) :
    ∃ st', SearchRound g filtered st st' := by
  obtain ⟨fork, hfork, hforked⟩ := pushFork_spec hg hst.frontier hF hst.flags
  by_cases hno : fork.outEdgeCount = 0
  · exact ⟨_, .quiet hfork hno⟩
  · have hstart : Searching g n (fun v => st.labels[v]!) fork
        (searchStart fork st (Array.replicate fork.outEdgeCount 0)) :=
      .start hst hforked Array.size_replicate
    have hprogress (s : SearchState) (h : Searching g n (fun v => st.labels[v]!) fork s)
        (hnot : ¬ Through g fork s) : ∃ i s', searchStep g filtered fork i s = some s' := by
      rw [Through] at hnot
      push Not at hnot
      obtain ⟨i, pc, hpc, hstay⟩ := hnot
      obtain ⟨s', hstep, _⟩ := h.progress filtered hg hforked hpc hstay
      exact ⟨i, s', hstep⟩
    obtain ⟨sched, s, hrun, _, hthrough⟩ := interleave_finish _ (searchEffort g fork) _ hprogress
      (fun i s s' h hstep => h.next hg hforked hstep) hstart
    exact ⟨_, .strands hfork hno Array.size_replicate hrun hthrough⟩

end Run

end GraphReorder.GraphIt
