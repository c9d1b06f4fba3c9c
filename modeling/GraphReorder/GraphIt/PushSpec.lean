import GraphReorder.GraphIt.PushRound

/-! A whole round in the push direction: every order of steps ends, and what it ends with is a round
of the relaxation. -/
namespace GraphReorder.GraphIt
open Library

structure Ready (n : Nat) (st : Program) (F : Finset Nat) : Prop where
  labels : st.labels.size = n
  flags : ∀ a, st.flags = some a → Unflagged a n
  frontier : st.frontier.Holds n F

def Program.view (st : Program) (F : Finset Nat) : Labels Nat Int :=
  ⟨fun v => st.labels[v]!, fun v => v ∈ F⟩

section Run
variable {g : WGraph} {n : Nat} {updateEdge : Int → Int → Option Int} {f : Int → Int → Int}
variable {P : Nat → Int → Prop} {F : Finset Nat} {fork : Fork} {st : Program} {s : PushState}
variable {outEdges : Array Nat} {sched : List Nat}

theorem Pushing.start (hst : Ready n st F) (hfork : Forked g n F fork)
    (hsize : outEdges.size = fork.outEdgeCount) :
    Pushing g n f P (fun v => st.labels[v]!) fork (pushStart fork st outEdges) := by
  have hpc {i : Nat} {pc : PushPc} (h : (pushStart fork st outEdges).strands[i]? = some pc) :
      pc = .neighbour 0 := List.eq_of_mem_replicate (List.mem_of_getElem? h)
  have hnone (i j v : Nat) : ¬ Recorded g n fork (pushStart fork st outEdges) i j v := by
    rintro ⟨_, pc, h, hj, _⟩
    rw [hpc h] at hj
    exact Nat.not_lt_zero _ hj
  refine ⟨hst.labels, hfork.unflagged.1, hsize.trans hfork.count, List.length_replicate,
    fun _ => le_rfl, fun _ => .inl rfl, fun i pc h => ?_,
    fun v hv => .inl (hfork.unflagged.2 v hv), fun i pc j h hj => ?_, fun v hv => ?_,
    fun v i j _ _ h => absurd h (hnone i j v), fun v hv => ?_⟩
  · rw [hpc h]
    exact ⟨fun j hj => absurd hj (Nat.not_lt_zero j), Nat.zero_le _⟩
  · rw [hpc h] at hj
    exact absurd hj (Nat.not_lt_zero j)
  · have hflag : (pushStart fork st outEdges).flags[v]! = 0 := hfork.unflagged.2 v hv
    rw [hflag]
    exact iff_of_false Nat.zero_ne_one fun ⟨i, j, h⟩ => hnone i j v h
  · have hflag : (pushStart fork st outEdges).flags[v]! = 0 := hfork.unflagged.2 v hv
    rw [hflag]
    refine iff_of_false (lt_irrefl _) ?_
    rintro (h | ⟨i, pc, h, hm⟩)
    · exact Nat.zero_ne_one h
    · rw [hpc h] at hm
      exact hm

theorem pushEffort_start : pushEffort g fork (pushStart fork st outEdges) =
    (degrees g fork).sum * (2 * fork.dense_vertex_set.size + 4) + fork.dense_vertex_set.size := by
  have hleft (i : Nat) : PushPc.left (2 * fork.dense_vertex_set.size + 4)
      (fun v => st.labels[v]!) (neighbours g fork i) (.neighbour 0) =
      (neighbours g fork i).length * (2 * fork.dense_vertex_set.size + 4) + 1 := rfl
  have hmap : (pushStart fork st outEdges).strands.mapIdx (fun i => PushPc.left
      (2 * fork.dense_vertex_set.size + 4) (fun v => st.labels[v]!) (neighbours g fork i)) =
      (degrees g fork).map fun deg => deg * (2 * fork.dense_vertex_set.size + 4) + 1 := by
    refine List.ext_getElem (by simp [pushStart, degrees]) fun i hi _ => ?_
    have hi' : i < fork.dense_vertex_set.size := by simpa [pushStart] using hi
    obtain ⟨_, hdeg⟩ := Forked.degrees_get (g := g) hi'
    simp only [List.getElem_mapIdx, pushStart, List.getElem_replicate, List.getElem_map, hleft, hdeg]
  have hlen : (degrees g fork).length = fork.dense_vertex_set.size := by simp [degrees]
  rw [← hlen, ← sum_mul_add_one, hlen, ← hmap]
  rfl

theorem push_run (hg : g.Wellformed n) (hst : Ready n st F) (hfork : Forked g n F fork)
    (ho : Offers g updateEdge f P F fun v => st.labels[v]!)
    (hsize : outEdges.size = fork.outEdgeCount)
    (hrun : interleave (pushStep g updateEdge fork) sched (pushStart fork st outEdges) = some s) :
    Pushing g n f P (fun v => st.labels[v]!) fork s ∧ sched.length + pushEffort g fork s ≤
      (degrees g fork).sum * (2 * fork.dense_vertex_set.size + 4) + fork.dense_vertex_set.size := by
  obtain ⟨hpush, hlen⟩ := interleave_effort
    (Pushing g n f P (fun v => st.labels[v]!) fork) (pushEffort g fork)
    (fun _ _ _ hpush hstep => hpush.next hg hfork ho hstep) (.start hst hfork hsize) hrun
  rw [pushEffort_start] at hlen
  exact ⟨hpush, hlen⟩

theorem Pushing.strand_joined {l₀ : Nat → Int} (h : Pushing g n f P l₀ fork s)
    (hjoined : ∀ pc ∈ s.strands, pc = .joined) {i : Nat} (hi : i < fork.dense_vertex_set.size) :
    s.strands[i]? = some .joined := by
  rw [List.getElem?_eq_getElem (h.strands.symm ▸ hi)]
  exact congrArg some (hjoined _ (List.getElem_mem _))

theorem Pushing.leaves_iff {l₀ : Nat → Int} (h : Pushing g n f P l₀ fork s)
    (hjoined : ∀ pc ∈ s.strands, pc = .joined) {i j v : Nat} :
    Leaves g n fork s.outEdges i j v ↔ Recorded g n fork s i j v := by
  constructor
  · rintro ⟨hv, hi, hj, hget⟩
    exact ⟨hv, .joined, h.strand_joined hjoined hi, hj, hget⟩
  · rintro ⟨hv, pc, hpc, hj, hget⟩
    exact ⟨hv, h.strand_lt hpc, hj.trans_le (h.work i pc hpc).progress_le, hget⟩

theorem Pushing.nextIndices {l₀ : Nat → Int} (hg : g.Wellformed n)
    (h : Pushing g n f P l₀ fork s) (hjoined : ∀ pc ∈ s.strands, pc = .joined) :
    (s.outEdges.toList.filter fun d => d != UINT_E_MAX).Nodup ∧
      ∀ v, v ∈ (s.outEdges.toList.filter fun d => d != UINT_E_MAX) ↔
        v < n ∧ s.labels[v]! < l₀ v := by
  obtain ⟨hnodup, hmem⟩ := Forked.nextIndices h.outEdges hg.max
    (fun i hi j hj => h.written i .joined j (h.strand_joined hjoined hi) hj)
    fun v i j i' j' hl hl' =>
      h.once v i j i' j' ((h.leaves_iff hjoined).mp hl) ((h.leaves_iff hjoined).mp hl')
  refine ⟨hnodup, fun v => ?_⟩
  rw [hmem v]
  simp only [h.leaves_iff hjoined]
  constructor
  · rintro ⟨i, j, hr⟩
    exact ⟨hr.1, (h.lowered v hr.1).mpr (.inl ((h.flagged v hr.1).mpr ⟨i, j, hr⟩))⟩
  · rintro ⟨hv, hlow⟩
    refine (h.flagged v hv).mp (((h.lowered v hv).mp hlow).resolve_right ?_)
    rintro ⟨i, pc, hpc, hm⟩
    rw [hjoined pc (List.mem_of_getElem? hpc)] at hm
    exact hm

theorem Pushing.served {l₀ : Nat → Int} (hfork : Forked g n F fork)
    (h : Pushing g n f P l₀ fork s) (hjoined : ∀ pc ∈ s.strands, pc = .joined) {u : Nat}
    (hu : u ∈ F) {d : WNode} (hd : d ∈ g.out_neigh[u]!) : s.labels[d.v]! ≤ f d.w (l₀ u) := by
  obtain ⟨i, hi, rfl⟩ := hfork.strand_of hu
  obtain ⟨j, hj, hget⟩ := List.getElem_of_mem hd
  exact h.work i .joined (h.strand_joined hjoined hi) j hj d
    (by rw [← hget]; exact List.getElem?_eq_getElem hj)

theorem Pushing.join {l₀ : Nat → Int} (hg : g.Wellformed n) (hn : 0 < n)
    (h : Pushing g n f P l₀ fork s) (hjoined : ∀ pc ∈ s.strands, pc = .joined) :
    ∃ st' F', pushJoin g s = some st' ∧ st'.labels = s.labels ∧ Ready n st' F' ∧
      ∀ v, v ∈ F' ↔ v < n ∧ s.labels[v]! < l₀ v := by
  obtain ⟨hnodup, hmem⟩ := h.nextIndices hg hjoined
  generalize hnext : (s.outEdges.toList.filter fun d => d != UINT_E_MAX) = next at hnodup hmem
  obtain ⟨flags, hclear, hsize, hcells⟩ := mark_run (a := s.flags) (l := next) 0 fun v hv => by
    rw [h.flags]
    exact ((hmem v).mp hv).1
  have hlists : Lists next next.toFinset := ⟨hnodup, fun v => List.mem_toFinset.symm⟩
  refine ⟨_, next.toFinset, by rw [pushJoin, hnext, hclear]; rfl, rfl,
    ⟨h.labels, fun a ha => ?_, ?_⟩, fun v => by rw [List.mem_toFinset, hmem]⟩
  · cases ha
    refine ⟨hsize.trans h.flags, fun v hv => ?_⟩
    rw [hcells v]
    split_ifs with hin
    · rfl
    · refine (h.bits v hv).resolve_right fun hflag => hin ((hmem v).mpr ⟨hv, ?_⟩)
      exact (h.lowered v hv).mpr (.inl hflag)
  · rw [WGraph.num_nodes, hg.out_size]
    exact VertexSubset.make_list hn hlists fun v hv => ((hmem v).mp (List.mem_toFinset.mp hv)).1

theorem Offers.and {l₀ : Nat → Int} (ho : Offers g updateEdge f P F l₀) (hin : ∀ v ∈ F, v < n)
    {Q : Nat → Int → Prop} (hstart : ∀ v ∈ F, Q v (l₀ v))
    (hQ : ∀ e ∈ arcs g n f, e.src ∈ F → ∀ x ≤ l₀ e.src, Q e.src x → Q e.dst (e.offer x)) :
    Offers g updateEdge f (fun v x => P v x ∧ Q v x) F l₀ where
  start s hs := ⟨ho.start s hs, hstart s hs⟩
  mono := ho.mono
  keeps s hs d hd x y hx hle hupd := by
    obtain ⟨rfl, hP⟩ := ho.keeps s hs d hd x y hx.1 hle hupd
    exact ⟨rfl, hP, hQ _ ⟨s, hin s hs, d, hd, rfl⟩ hs x hle hx.2⟩

theorem Offers.monotone {l₀ : Nat → Int} (ho : Offers g updateEdge f P F l₀) :
    ∀ e ∈ arcs g n f, Monotone e.offer := by
  rintro e ⟨s, _, d, _, rfl⟩
  exact ho.mono d.w

/-- A round of the strands is a round of the relaxation. -/
theorem push_relaxes (hg : g.Wellformed n) (hn : 0 < n) (hst : Ready n st F) (hF : F.Nonempty)
    (ho : Offers g updateEdge f P F fun v => st.labels[v]!) {st' : Program}
    (hround : PushRound g updateEdge st st') :
    ∃ F', Ready n st' F' ∧ Round (arcs g n f) (st.view F) (st'.view F') := by
  obtain ⟨fork, hfork, hforked⟩ := pushFork_spec hg hst.frontier hF hst.flags
  cases hround with
  | quiet hfork' hno =>
    obtain rfl := Option.some.inj (hfork'.symm.trans hfork)
    refine ⟨∅, ⟨hst.labels, fun a ha => by cases ha; exact hforked.unflagged, ?_⟩, ?_⟩
    · rw [WGraph.num_nodes, hg.out_size]
      exact VertexSubset.make_empty hn
    · refine ⟨fun _ => le_rfl, fun v => ?_, ?_, fun _ _ _ v => .inl rfl⟩
      · exact iff_of_false (Finset.notMem_empty v) (lt_irrefl _)
      · -- no strand has a neighbour
        rintro e ⟨u, _, d, hd, rfl⟩ hu
        obtain ⟨i, hi, rfl⟩ := hforked.strand_of hu
        obtain ⟨j, hj, _⟩ := List.getElem_of_mem hd
        have := Forked.cell_lt (g := g) hi hj
        rw [← hforked.count, hno] at this
        exact absurd this (Nat.not_lt_zero _)
  | strands hfork' _ hsize hrun hjoined hjoin =>
    obtain rfl := Option.some.inj (hfork'.symm.trans hfork)
    obtain ⟨hpush, _⟩ := push_run hg hst hforked ho hsize hrun
    obtain ⟨st₁, F', hmade, hlabels, hready, hmem⟩ := hpush.join hg hn hjoined
    obtain rfl : st₁ = _ := Option.some.inj (hmade.symm.trans hjoin)
    refine ⟨F', hready, ?_⟩
    simp only [Program.view, hlabels]
    refine ⟨hpush.lower, fun v => ⟨fun hv => ((hmem v).mp hv).2, fun hlow => ?_⟩, ?_,
      fun Q hstart hQ v => ?_⟩
    · refine (hmem v).mpr ⟨?_, hlow⟩
      by_contra hv
      have h₁ := hpush.labels
      have h₂ := hst.labels
      simp only [getElem!_def, Array.getElem?_eq_none (Nat.not_lt.mp (h₁ ▸ hv)),
        Array.getElem?_eq_none (Nat.not_lt.mp (h₂ ▸ hv)), lt_irrefl] at hlow
    · rintro e ⟨u, _, d, hd, rfl⟩ hu
      exact hpush.served hforked hjoined hu hd
    · obtain ⟨hpush', _⟩ := push_run hg hst hforked
        (ho.and (n := n) hst.frontier.inside hstart hQ) hsize hrun
      exact (hpush'.sound v).imp_right And.right

/-- Whatever steps the strands have taken, each that has not joined has another one, and there are
no more of them than a bound. -/
def PushSafe (g : WGraph) (updateEdge : Int → Int → Option Int) (st : Program) : Prop :=
  ∃ fork, pushFork g st = some fork ∧ ∀ outEdges sched s, outEdges.size = fork.outEdgeCount →
    interleave (pushStep g updateEdge fork) sched (pushStart fork st outEdges) = some s →
    (∀ i pc, s.strands[i]? = some pc → pc ≠ .joined →
      ∃ s', pushStep g updateEdge fork i s = some s') ∧
    sched.length ≤ fork.outEdgeCount * (2 * st.frontier.num_vertices + 4) +
      st.frontier.num_vertices

theorem push_safe (hg : g.Wellformed n) (hst : Ready n st F) (hF : F.Nonempty)
    (ho : Offers g updateEdge f P F fun v => st.labels[v]!)
    (hdef : Defined g updateEdge P F fun v => st.labels[v]!) : PushSafe g updateEdge st := by
  obtain ⟨fork, hfork, hforked⟩ := pushFork_spec hg hst.frontier hF hst.flags
  refine ⟨fork, hfork, fun outEdges sched s hsize hrun => ?_⟩
  obtain ⟨hpush, hlen⟩ := push_run hg hst hforked ho hsize hrun
  have hcard : fork.dense_vertex_set.size = st.frontier.num_vertices := by
    rw [hst.frontier.count, ← hforked.lists.length, Array.length_toList]
  rw [hcard, ← hforked.count] at hlen
  exact ⟨fun i pc hpc hnot => hpush.progress hg hforked ho hdef hpc hnot, by omega⟩

theorem push_exists (hg : g.Wellformed n) (hn : 0 < n) (hst : Ready n st F) (hF : F.Nonempty)
    (ho : Offers g updateEdge f P F fun v => st.labels[v]!)
    (hdef : Defined g updateEdge P F fun v => st.labels[v]!) :
    ∃ st', PushRound g updateEdge st st' := by
  obtain ⟨fork, hfork, hforked⟩ := pushFork_spec hg hst.frontier hF hst.flags
  by_cases hno : fork.outEdgeCount = 0
  · exact ⟨_, .quiet hfork hno⟩
  · have hstart : Pushing g n f P (fun v => st.labels[v]!) fork
        (pushStart fork st (Array.replicate fork.outEdgeCount 0)) :=
      .start hst hforked Array.size_replicate
    have hprogress (s : PushState) (hpush : Pushing g n f P (fun v => st.labels[v]!) fork s)
        (hnot : ¬ ∀ pc ∈ s.strands, pc = .joined) :
        ∃ i s', pushStep g updateEdge fork i s = some s' := by
      push Not at hnot
      obtain ⟨pc, hmem, hpc⟩ := hnot
      obtain ⟨i, hi⟩ := List.mem_iff_getElem?.mp hmem
      exact ⟨i, hpush.progress hg hforked ho hdef hi hpc⟩
    obtain ⟨sched, s, hrun, hpush, hjoined⟩ := interleave_finish _ (pushEffort g fork) _ hprogress
      (fun i s s' hpush hstep => hpush.next hg hforked ho hstep) hstart
    obtain ⟨st', _, hjoin, _⟩ := hpush.join hg hn hjoined
    exact ⟨st', .strands hfork hno Array.size_replicate hrun hjoined hjoin⟩

end Run

end GraphReorder.GraphIt
