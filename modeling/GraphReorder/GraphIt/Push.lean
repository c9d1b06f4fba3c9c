import GraphReorder.Library.Relaxation
import GraphReorder.Library.Interleave
import GraphReorder.Library.Barrier
import GraphReorder.GraphIt.VertexSubset

/-! A round in the push direction: every vertex of the frontier has a strand, which offers the
vertex's label to the neighbours by compare-and-swap, and the next frontier is what the strands have
left in `outEdges`. -/
namespace GraphReorder.GraphIt
open Library

def UINT_E_MAX : Nat := 2 ^ 32 - 1

theorem WGraph.Wellformed.max {g : WGraph} {n : Nat} (hg : g.Wellformed n) : n ≤ UINT_E_MAX := by
  have := hg.fits
  rw [UINT_E_MAX]
  omega

/-- What is there between two rounds: the labels (`SP` or `IDs`), the flags of the graph and the
frontier. -/
structure Program where
  labels : Array Int
  flags : Option (Array Nat)
  frontier : VertexSubset

/-- `sequence::plusScan` in place: the sums of the entries before each, and of all. -/
def plusScan (degrees : Array Nat) : Option (Array Nat × Nat) :=
  forRange 0 degrees.size (fun i st => do
    let t ← st.1[i]?
    let Out ← store st.1 i st.2
    pure (Out, st.2 + t)) (degrees, 0)

structure Fork where
  dense_vertex_set : Array Nat
  offsets : Array Nat
  outEdgeCount : Nat
  flags : Array Nat

def outDegrees (g : WGraph) (from_vertexset : VertexSubset) : Option (Array Nat) := do
  let dense ← from_vertexset.dense_vertex_set
  forRange 0 from_vertexset.num_vertices (fun i degrees => do
    store degrees i (← g.out_degree (← dense[i]?))) (Array.replicate from_vertexset.num_vertices 0)

/-- `edgeset_apply_push_parallel_deduplicatied_from_vertexset_with_frontier` up to its loop. -/
def pushFork (g : WGraph) (st : Program) : Option Fork := do
  let from_vertexset ← st.frontier.toSparse
  let dense ← from_vertexset.dense_vertex_set
  let degrees ← outDegrees g from_vertexset
  if g.num_nodes ≠ from_vertexset.vertices_range then none
  else do
    let scan ← plusScan degrees
    pure ⟨dense, scan.1, scan.2, st.flags.getD (Array.replicate g.num_nodes 0)⟩

/-- Where a strand is: at the head of its loop, or at its `j`-th neighbour in `writeMin`, about to
read the label there or to swap it for `b`, or past it, about to flag the neighbour. -/
inductive PushPc
  | neighbour (j : Nat)
  | load (j : Nat) (b : Int)
  | swap (j : Nat) (b c : Int)
  | mark (j : Nat)
  | joined

structure PushState where
  labels : Array Int
  flags : Array Nat
  outEdges : Array Nat
  strands : List PushPc

def PushState.goto (st : PushState) (i : Nat) (pc : PushPc) : PushState :=
  { st with strands := st.strands.set i pc }

def PushState.record (st : PushState) (i offset j d : Nat) : Option PushState := do
  let outEdges ← store st.outEdges (offset + j) d
  pure { st with outEdges := outEdges, strands := st.strands.set i (.neighbour (j + 1)) }

section Model
variable (g : WGraph) (updateEdge : Int → Int → Option Int)

/-- A step of the strand of `s`, which touches one cell of the labels or the flags at most.
`updateEdge` is what the label of `s` is offered as over an edge of a weight. -/
def advance (s : Nat) (neigh : List WNode) (offset i : Nat) (pc : PushPc) (st : PushState) :
    Option PushState :=
  match pc with
  | .neighbour j =>
    match neigh[j]? with
    | none => pure (st.goto i .joined)
    | some d => do
      let b ← updateEdge d.w (← st.labels[s]?)
      pure (st.goto i (.load j b))
  | .load j b => do
    let d ← neigh[j]?
    let c ← st.labels[d.v]?
    if c > b then pure (st.goto i (.swap j b c)) else st.record i offset j UINT_E_MAX
  | .swap j b c => do
    let d ← neigh[j]?
    if (← st.labels[d.v]?) = c then do
      let labels ← store st.labels d.v b
      pure { st with labels := labels, strands := st.strands.set i (.mark j) }
    else pure (st.goto i (.load j b))
  | .mark j => do
    let d ← neigh[j]?
    if (← st.flags[d.v]?) = 0 then do
      let flags ← store st.flags d.v 1
      PushState.record { st with flags := flags } i offset j d.v
    else st.record i offset j UINT_E_MAX
  | .joined => none

def pushStep (fork : Fork) (i : Nat) (st : PushState) : Option PushState := do
  let s ← fork.dense_vertex_set[i]?
  let neigh ← g.out_neigh[s]?
  let offset ← fork.offsets[i]?
  advance updateEdge s neigh offset i (← st.strands[i]?) st

/-- `outEdges` is not initialised. -/
def pushStart (fork : Fork) (st : Program) (outEdges : Array Nat) : PushState where
  labels := st.labels
  flags := fork.flags
  outEdges := outEdges
  strands := List.replicate fork.dense_vertex_set.size (.neighbour 0)

def pushJoin (s : PushState) : Option Program := do
  let nextIndices := s.outEdges.toList.filter fun d => d != UINT_E_MAX
  let flags ← nextIndices.foldlM (fun flags d => store flags d 0) s.flags
  let next_frontier := VertexSubset.make g.num_nodes 0
  pure ⟨s.labels, some flags, { next_frontier with
    num_vertices := nextIndices.length
    dense_vertex_set := some nextIndices.toArray }⟩

/-- A round, with the steps of the strands in any order. -/
inductive PushRound (st : Program) : Program → Prop
  | quiet {fork : Fork} (hfork : pushFork g st = some fork) (hno : fork.outEdgeCount = 0) :
      PushRound st ⟨st.labels, some fork.flags, VertexSubset.make g.num_nodes 0⟩
  | strands {fork : Fork} {outEdges : Array Nat} {sched : List Nat} {s : PushState} {st' : Program}
      (hfork : pushFork g st = some fork) (hsome : fork.outEdgeCount ≠ 0)
      (hsize : outEdges.size = fork.outEdgeCount)
      (hrun : interleave (pushStep g updateEdge fork) sched (pushStart fork st outEdges) = some s)
      (hjoined : ∀ pc ∈ s.strands, pc = .joined) (hjoin : pushJoin g s = some st') :
      PushRound st st'

end Model

section Forks
variable {g : WGraph} {n : Nat} {F : Finset Nat} {fork : Fork} {st : Program} {i j i' j' : Nat}

def neighbours (g : WGraph) (fork : Fork) (i : Nat) : List WNode :=
  g.out_neigh[fork.dense_vertex_set[i]!]!

def degrees (g : WGraph) (fork : Fork) : List Nat :=
  fork.dense_vertex_set.toList.map fun s => (g.out_neigh[s]!).length

def cell (g : WGraph) (fork : Fork) (i j : Nat) : Nat := rowStart (degrees g fork) i + j

def Leaves (g : WGraph) (n : Nat) (fork : Fork) (outEdges : Array Nat) (i j v : Nat) : Prop :=
  v < n ∧ i < fork.dense_vertex_set.size ∧ j < (neighbours g fork i).length ∧
    outEdges[cell g fork i j]! = v

def Unflagged (flags : Array Nat) (n : Nat) : Prop := flags.size = n ∧ ∀ v < n, flags[v]! = 0

structure Forked (g : WGraph) (n : Nat) (F : Finset Nat) (fork : Fork) : Prop where
  lists : Lists fork.dense_vertex_set.toList F
  inside : ∀ v ∈ F, v < n
  offsets : ∀ i < fork.dense_vertex_set.size,
    fork.offsets[i]? = some (rowStart (degrees g fork) i)
  count : fork.outEdgeCount = (degrees g fork).sum
  unflagged : Unflagged fork.flags n

theorem plusScan_spec (a : Array Nat) : ∃ scan, plusScan a = some scan ∧
    scan.1.size = a.size ∧ (∀ i < a.size, scan.1[i]! = rowStart a.toList i) ∧
    scan.2 = a.toList.sum := by
  let Summed (i : Nat) (st : Array Nat × Nat) : Prop := st.1.size = a.size ∧
    (∀ k < a.size, st.1[k]! = if k < i then rowStart a.toList k else a[k]!) ∧
    st.2 = rowStart a.toList i
  obtain ⟨scan, hrun, hsize, hcells, htotal⟩ :
      ∃ scan, plusScan a = some scan ∧ Summed a.size scan :=
    forRange_rule Summed (Nat.zero_le a.size) ⟨rfl, by simp, rfl⟩ fun i st _ hi hst => by
      obtain ⟨hsize, hcells, hsum⟩ := hst
      have hlt : i < st.1.size := hsize ▸ hi
      have hread : st.1[i]! = a[i] := by
        rw [hcells i hi, if_neg (Nat.lt_irrefl i), getElem!_pos a i hi]
      refine ⟨(st.1.setIfInBounds i st.2, st.2 + st.1[i]!), ?_, by simpa using hsize, ?_, ?_⟩
      · rw [read_eq hlt, some_bind, store_eq hlt]
        rfl
      · intro k hk
        rw [put_get hlt]
        by_cases hki : k = i
        · rw [if_pos hki, if_pos (by omega), hsum, hki]
        · rw [if_neg hki, hcells k hk]
          by_cases hlt' : k < i
          · rw [if_pos hlt', if_pos (by omega)]
          · rw [if_neg hlt', if_neg (by omega)]
      · rw [hsum, hread, rowStart_succ (by simpa using hi), Array.getElem_toList]
  refine ⟨scan, hrun, hsize, fun i hi => by rw [hcells i hi, if_pos hi], ?_⟩
  rw [htotal, ← rowStart_length, Array.length_toList]

theorem outDegrees_spec (hg : g.Wellformed n) {vs : VertexSubset} (hvs : vs.Holds n F)
    {dense : Array Nat} (hdense : vs.dense_vertex_set = some dense) :
    ∃ degs, outDegrees g vs = some degs ∧ degs.size = dense.size ∧
      degs.toList = dense.toList.map fun s => (g.out_neigh[s]!).length := by
  have hm : dense.size = vs.num_vertices := hvs.size_dense hdense
  have hread (i : Nat) (hi : i < vs.num_vertices) :
      g.out_degree dense[i]! = some (g.out_neigh[dense[i]!]!).length := by
    have hmem : dense[i]! ∈ F := by
      rw [← (hvs.dense dense hdense).mem, getElem!_pos dense i (by omega)]
      exact Array.getElem_mem_toList _
    rw [WGraph.out_degree, read_eq (by rw [hg.out_size]; exact hvs.inside _ hmem), some_bind]
    rfl
  obtain ⟨degs, hrun, hsize, hcells⟩ := forRange_fill (n := vs.num_vertices)
    (a := Array.replicate vs.num_vertices 0) Array.size_replicate.ge
    (f := fun i => do g.out_degree (← dense[i]?))
    (g := fun i => (g.out_neigh[dense[i]!]!).length) fun i hi => by
      rw [read_eq (by omega), some_bind, hread i hi]
  rw [Array.size_replicate] at hsize
  refine ⟨degs, ?_, hsize.trans hm.symm, ?_⟩
  · rw [outDegrees, hdense, some_bind, ← hrun]
    congr 1
    funext i a
    cases dense[i]? <;> rfl
  · refine List.ext_getElem (by simp [hsize, hm]) fun i hi hi' => ?_
    have hid : i < degs.size := by simpa using hi
    have hcell := hcells i
    rw [if_pos (by omega), getElem!_pos degs i hid, getElem!_pos dense i (by omega)] at hcell
    rw [Array.getElem_toList, hcell, List.getElem_map, Array.getElem_toList]

theorem pushFork_spec (hg : g.Wellformed n) (hfrontier : st.frontier.Holds n F)
    (hF : F.Nonempty) (hflags : ∀ a, st.flags = some a → Unflagged a n) :
    ∃ fork, pushFork g st = some fork ∧ Forked g n F fork := by
  obtain ⟨vs, dense, hsparse, hdense, hvs⟩ := VertexSubset.toSparse_spec hfrontier hF
  obtain ⟨degs, hrun, hsize, hdegs⟩ := outDegrees_spec hg hvs hdense
  obtain ⟨scan, hscan, hscansize, hoff, htotal⟩ := plusScan_spec degs
  have hzero : Unflagged (st.flags.getD (Array.replicate g.num_nodes 0)) n := by
    cases hst : st.flags with
    | some a => exact hflags a hst
    | none =>
      rw [Option.getD_none, WGraph.num_nodes, hg.out_size]
      exact ⟨Array.size_replicate, fun v hv => replicate_get n v 0 hv⟩
  have hrange : ¬ g.num_nodes ≠ vs.vertices_range := by
    rw [not_not, hvs.range]
    exact hg.out_size
  refine ⟨⟨dense, scan.1, scan.2, st.flags.getD (Array.replicate g.num_nodes 0)⟩, ?_,
    hvs.dense dense hdense, hvs.inside, fun i hi => ?_, ?_, hzero⟩
  · rw [pushFork, hsparse, some_bind, hdense, some_bind, hrun, some_bind, if_neg hrange, hscan]
    rfl
  · have hi' : i < degs.size := hsize ▸ hi
    rw [read_eq (hscansize ▸ hi'), hoff i hi', degrees, hdegs]
  · rw [htotal, degrees, hdegs]

namespace Forked
variable (h : Forked g n F fork)
include h

theorem source_mem (hi : i < fork.dense_vertex_set.size) : fork.dense_vertex_set[i]! ∈ F := by
  rw [← h.lists.mem, getElem!_pos fork.dense_vertex_set i hi]
  exact Array.getElem_mem_toList hi

theorem source_lt (hi : i < fork.dense_vertex_set.size) : fork.dense_vertex_set[i]! < n :=
  h.inside _ (h.source_mem hi)

theorem strand_of {s : Nat} (hs : s ∈ F) :
    ∃ i < fork.dense_vertex_set.size, fork.dense_vertex_set[i]! = s := by
  obtain ⟨i, hi, hget⟩ := List.getElem_of_mem ((h.lists.mem s).mpr hs)
  have hi' : i < fork.dense_vertex_set.size := by simpa using hi
  exact ⟨i, hi', by rw [getElem!_pos _ i hi', ← hget, Array.getElem_toList]⟩

omit h in
theorem degrees_get (hi : i < fork.dense_vertex_set.size) :
    ∃ hi' : i < (degrees g fork).length, (degrees g fork)[i] = (neighbours g fork i).length := by
  refine ⟨by simpa [degrees] using hi, ?_⟩
  simp only [degrees, neighbours, List.getElem_map, Array.getElem_toList,
    getElem!_pos fork.dense_vertex_set i hi]

omit h in
theorem cell_lt (hi : i < fork.dense_vertex_set.size) (hj : j < (neighbours g fork i).length) :
    cell g fork i j < (degrees g fork).sum := by
  obtain ⟨hi', hdeg⟩ := degrees_get (g := g) hi
  exact rowStart_cell hi' (hdeg ▸ hj)

omit h in
theorem cell_inj (hi : i < fork.dense_vertex_set.size) (hi' : i' < fork.dense_vertex_set.size)
    (hj : j < (neighbours g fork i).length) (hj' : j' < (neighbours g fork i').length)
    (heq : cell g fork i j = cell g fork i' j') : i = i' ∧ j = j' := by
  obtain ⟨hlt, hdeg⟩ := degrees_get (g := g) hi
  obtain ⟨hlt', hdeg'⟩ := degrees_get (g := g) hi'
  exact rowStart_inj hlt hlt' (hdeg ▸ hj) (hdeg' ▸ hj') heq

omit h in
theorem cell_cover {p : Nat} (hp : p < (degrees g fork).sum) :
    ∃ i j, i < fork.dense_vertex_set.size ∧ j < (neighbours g fork i).length ∧
      p = cell g fork i j := by
  obtain ⟨i, j, hi, hj, hpos⟩ := rowStart_cover hp
  have hi' : i < fork.dense_vertex_set.size := by simpa [degrees] using hi
  obtain ⟨_, hdeg⟩ := degrees_get (g := g) hi'
  exact ⟨i, j, hi', hdeg ▸ hj, hpos⟩

omit h in
theorem left_step {P : Type} {strands : List P} {outEdges : Array Nat} {pc q : P}
    (place : Nat → P → Nat) (hsize : outEdges.size = (degrees g fork).sum)
    (hstrands : strands.length = fork.dense_vertex_set.size)
    (hwithin : ∀ k r, strands[k]? = some r → place k r ≤ (neighbours g fork k).length)
    (hpc : strands[i]? = some pc) (hplace : place i pc = j) (hnext : place i q = j + 1)
    (hj : j < (neighbours g fork i).length) (x v : Nat) :
    (v < n ∧ ∃ r, (strands.set i q)[i']? = some r ∧ j' < place i' r ∧
        (outEdges.setIfInBounds (cell g fork i j) x)[cell g fork i' j']! = v) ↔
      (v < n ∧ ∃ r, strands[i']? = some r ∧ j' < place i' r ∧ outEdges[cell g fork i' j']! = v) ∨
        (i' = i ∧ j' = j ∧ x = v ∧ v < n) := by
  have hlt {k : Nat} {r : P} (hr : strands[k]? = some r) : k < fork.dense_vertex_set.size :=
    hstrands ▸ (List.getElem?_eq_some_iff.mp hr).1
  have hcell : cell g fork i j < outEdges.size := hsize ▸ cell_lt (hlt hpc) hj
  simp only [set_get hpc, put_get hcell]
  by_cases hii : i' = i
  · subst hii
    simp only [if_pos, hpc, Option.some.injEq, exists_eq_left', hplace, hnext, true_and]
    by_cases hjj : j' = j
    · subst hjj
      simp [and_comm]
    · have hne : ¬ cell g fork i' j' = cell g fork i' j := by
        rw [cell, cell]
        omega
      have hle : j' < j + 1 ↔ j' < j := by omega
      simp [hne, hjj, hle]
  · simp only [hii, if_false, false_and, or_false]
    refine and_congr_right fun _ => exists_congr fun r => and_congr_right fun hr =>
      and_congr_right fun hj' => ?_
    have hne : ¬ cell g fork i' j' = cell g fork i j := fun heq =>
      hii (cell_inj (hlt hr) (hlt hpc) (hj'.trans_le (hwithin i' r hr)) hj heq).1
    rw [if_neg hne]

omit h in
theorem nextIndices {outEdges : Array Nat} (hsize : outEdges.size = (degrees g fork).sum)
    (hmax : n ≤ UINT_E_MAX)
    (hwritten : ∀ i < fork.dense_vertex_set.size, ∀ j < (neighbours g fork i).length,
      outEdges[cell g fork i j]! = UINT_E_MAX ∨ outEdges[cell g fork i j]! < n)
    (honce : ∀ v i j i' j', Leaves g n fork outEdges i j v → Leaves g n fork outEdges i' j' v →
      i = i' ∧ j = j') :
    (outEdges.toList.filter fun d => d != UINT_E_MAX).Nodup ∧
      ∀ v, v ∈ (outEdges.toList.filter fun d => d != UINT_E_MAX) ↔
        ∃ i j, Leaves g n fork outEdges i j v := by
  have hleft {p : Nat} (hp : p < outEdges.size) (hne : outEdges[p]! ≠ UINT_E_MAX) :
      ∃ i j, p = cell g fork i j ∧ Leaves g n fork outEdges i j outEdges[p]! := by
    obtain ⟨i, j, hi, hj, rfl⟩ := cell_cover (hsize ▸ hp)
    exact ⟨i, j, rfl, (hwritten i hi j hj).resolve_left hne, hi, hj, rfl⟩
  constructor
  · refine List.pairwise_filter.mpr (List.pairwise_iff_getElem.mpr ?_)
    intro p q hp hq hpq hpmax hqmax heq
    have hp' : p < outEdges.size := by simpa using hp
    have hq' : q < outEdges.size := by simpa using hq
    rw [Array.getElem_toList, ← getElem!_pos outEdges p hp'] at hpmax heq
    rw [Array.getElem_toList, ← getElem!_pos outEdges q hq'] at hqmax heq
    obtain ⟨i, j, rfl, hl⟩ := hleft hp' (bne_iff_ne.mp hpmax)
    obtain ⟨i', j', rfl, hl'⟩ := hleft hq' (bne_iff_ne.mp hqmax)
    rw [heq] at hl
    obtain ⟨rfl, rfl⟩ := honce _ _ _ _ _ hl hl'
    exact Nat.lt_irrefl _ hpq
  · intro v
    rw [List.mem_filter, bne_iff_ne]
    constructor
    · rintro ⟨hmem, hne⟩
      obtain ⟨p, hp, hget⟩ := List.getElem_of_mem hmem
      have hp' : p < outEdges.size := by simpa using hp
      rw [Array.getElem_toList, ← getElem!_pos outEdges p hp'] at hget
      obtain ⟨i, j, _, hl⟩ := hleft hp' (by rw [hget]; exact hne)
      exact ⟨i, j, hget ▸ hl⟩
    · rintro ⟨i, j, hv, hi, hj, hget⟩
      have hlt : cell g fork i j < outEdges.size := hsize ▸ cell_lt hi hj
      refine ⟨?_, (hv.trans_le hmax).ne⟩
      rw [← hget, getElem!_pos outEdges _ hlt]
      exact Array.getElem_mem_toList hlt

theorem neighbour_lt (hg : g.Wellformed n) (hi : i < fork.dense_vertex_set.size) {d : WNode}
    (hd : (neighbours g fork i)[j]? = some d) : d.v < n :=
  hg.out_lt _ (h.source_lt hi) d (List.mem_of_getElem? hd)

theorem step_eq (hg : g.Wellformed n) (updateEdge : Int → Int → Option Int)
    (hi : i < fork.dense_vertex_set.size) {pc : PushPc} {s : PushState}
    (hpc : s.strands[i]? = some pc) : pushStep g updateEdge fork i s =
      advance updateEdge fork.dense_vertex_set[i]! (neighbours g fork i)
        (rowStart (degrees g fork) i) i pc s := by
  rw [pushStep, read_eq hi, some_bind,
    read_eq (by rw [hg.out_size]; exact h.source_lt hi), some_bind, h.offsets i hi, some_bind, hpc,
    some_bind]
  rfl

end Forked

end Forks

end GraphReorder.GraphIt
