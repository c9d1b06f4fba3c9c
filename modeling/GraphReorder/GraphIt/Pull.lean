import GraphReorder.GraphIt.PushSpec

/-! A round in the pull direction: every vertex has a strand, which reads the labels of its sources in
the frontier and writes its own. -/
namespace GraphReorder.GraphIt
open Library

/-- Where the strand of a vertex is: at the head of its loop, or at its `j`-th source, about to read
the label there once more, or to write its own. -/
inductive PullPc
  | neighbour (j : Nat)
  | assign (j : Nat)
  | write (j : Nat) (x : Int)
  | joined

structure PullState where
  labels : Array Int
  next : Array Bool
  strands : List PullPc

def PullState.goto (st : PullState) (d : Nat) (pc : PullPc) : PullState :=
  { st with strands := st.strands.set d pc }

section Model
variable (g : WGraph) (updateEdge : Int → Int → Option Int)

/-- A step of the strand of `d`, which touches one label of another vertex at most. No other strand
writes the cells of `d`. -/
def fetch (bool_map : Array Bool) (neigh : List WNode) (d : Nat) (pc : PullPc) (st : PullState) :
    Option PullState :=
  match pc with
  | .neighbour j =>
    match neigh[j]? with
    | none => pure (st.goto d .joined)
    | some s => do
      if ← bool_map[s.v]? then do
        let b ← updateEdge s.w (← st.labels[s.v]?)
        if (← st.labels[d]?) > b then pure (st.goto d (.assign j))
        else pure (st.goto d (.neighbour (j + 1)))
      else pure (st.goto d (.neighbour (j + 1)))
  | .assign j => do
    let s ← neigh[j]?
    let x ← updateEdge s.w (← st.labels[s.v]?)
    pure (st.goto d (.write j x))
  | .write j x => do
    let labels ← store st.labels d x
    let next ← store st.next d true
    pure ⟨labels, next, st.strands.set d (.neighbour (j + 1))⟩
  | .joined => none

def pullStep (bool_map : Array Bool) (d : Nat) (st : PullState) : Option PullState := do
  let neigh ← g.in_neigh[d]?
  fetch updateEdge bool_map neigh d (← st.strands[d]?) st

def pullStart (st : Program) : PullState where
  labels := st.labels
  next := Array.replicate g.num_nodes false
  strands := List.replicate g.num_nodes (.neighbour 0)

def pullJoin (st : Program) (s : PullState) : Program where
  labels := s.labels
  flags := st.flags
  frontier := { VertexSubset.make g.num_nodes 0 with
    num_vertices := s.next.toList.count true
    bool_map := some s.next }

/-- `edgeset_apply_pull_parallel_deduplicatied_from_vertexset_with_frontier`, with the steps of the
strands in any order. -/
inductive PullRound (st : Program) : Program → Prop
  | strands {vs : VertexSubset} {bool_map : Array Bool} {sched : List Nat} {s : PullState}
      (hdense : st.frontier.toDense = some vs) (hmap : vs.bool_map = some bool_map)
      (hrun : interleave (pullStep g updateEdge bool_map) sched (pullStart g st) = some s)
      (hjoined : ∀ pc ∈ s.strands, pc = .joined) : PullRound st (pullJoin g st s)

end Model

section Strand
variable (f : Int → Int → Int) (P : Nat → Int → Prop) (F : Finset Nat) (l₀ l : Nat → Int)

def Fetched (d : Nat) (neigh : List WNode) (k : Nat) : Prop :=
  ∀ j < k, ∀ s, neigh[j]? = some s → s.v ∈ F → l d ≤ f s.w (l₀ s.v)

def PullPc.Work (d : Nat) (neigh : List WNode) : PullPc → Prop
  | .neighbour j => Fetched f F l₀ l d neigh j ∧ j ≤ neigh.length
  | .assign j => Fetched f F l₀ l d neigh j ∧
    ∃ s, neigh[j]? = some s ∧ s.v ∈ F ∧ f s.w (l s.v) < l d
  | .write j x => Fetched f F l₀ l d neigh j ∧
    ∃ s, neigh[j]? = some s ∧ s.v ∈ F ∧ P d x ∧ x ≤ f s.w (l₀ s.v) ∧ x < l d
  | .joined => Fetched f F l₀ l d neigh neigh.length

variable {f P F l₀ l} {l' : Nat → Int} {d j : Nat} {neigh : List WNode} {pc : PullPc} {s : WNode}

theorem Fetched.lower (hd : l' d ≤ l d) (h : Fetched f F l₀ l d neigh j) :
    Fetched f F l₀ l' d neigh j := fun i hi s hs hF => hd.trans (h i hi s hs hF)

theorem Fetched.succ (h : Fetched f F l₀ l d neigh j) (hs : neigh[j]? = some s)
    (hle : s.v ∈ F → l d ≤ f s.w (l₀ s.v)) : Fetched f F l₀ l d neigh (j + 1) := by
  intro i hi s' hs' hF
  by_cases hij : i = j
  · obtain rfl : s' = s := Option.some.inj (hs'.symm.trans (hij ▸ hs))
    exact hle hF
  · exact h i (by omega) s' hs' hF

theorem PullPc.Work.frame (hmono : ∀ w, Monotone (f w)) (hl : ∀ v, l' v ≤ l v) (hd : l' d = l d)
    (h : pc.Work f P F l₀ l d neigh) : pc.Work f P F l₀ l' d neigh := by
  cases pc with
  | neighbour j => exact ⟨h.1.lower hd.le, h.2⟩
  | assign j =>
    obtain ⟨hfetched, s, hs, hF, hlt⟩ := h
    exact ⟨hfetched.lower hd.le, s, hs, hF, hd.symm ▸ (hmono s.w (hl s.v)).trans_lt hlt⟩
  | write j x =>
    obtain ⟨hfetched, s, hs, hF, hP, hx, hlt⟩ := h
    exact ⟨hfetched.lower hd.le, s, hs, hF, hP, hx, hd.symm ▸ hlt⟩
  | joined => exact Fetched.lower hd.le h

def PullPc.left (neigh : List WNode) : PullPc → Nat
  | .neighbour j => (neigh.length - j) * 3 + 1
  | .assign j => (neigh.length - (j + 1)) * 3 + 3
  | .write j _ => (neigh.length - (j + 1)) * 3 + 2
  | .joined => 0

end Strand

def pullEffort (g : WGraph) (st : PullState) : Nat :=
  effort (fun d => PullPc.left g.in_neigh[d]!) st.strands

structure Pulling (g : WGraph) (n : Nat) (f : Int → Int → Int) (P : Nat → Int → Prop)
    (F : Finset Nat) (l₀ : Nat → Int) (st : PullState) : Prop where
  labels : st.labels.size = n
  next : st.next.size = n
  strands : st.strands.length = n
  lower : ∀ v : Nat, st.labels[v]! ≤ l₀ v
  sound : ∀ v : Nat, st.labels[v]! = l₀ v ∨ P v st.labels[v]!
  work : ∀ d (pc : PullPc), st.strands[d]? = some pc →
    pc.Work f P F l₀ (fun v => st.labels[v]!) d g.in_neigh[d]!
  lowered : ∀ v < n, st.next[v]! = true ↔ st.labels[v]! < l₀ v

section Step
variable {g : WGraph} {n : Nat} {updateEdge : Int → Int → Option Int} {f : Int → Int → Int}
variable {P : Nat → Int → Prop} {F : Finset Nat} {l₀ : Nat → Int} {st : PullState}
variable {bool_map : Array Bool} {d : Nat} {pc : PullPc}

def Mapped (bool_map : Array Bool) (n : Nat) (F : Finset Nat) : Prop :=
  bool_map.size = n ∧ ∀ v < n, bool_map[v]! = true ↔ v ∈ F

def Fetching (g : WGraph) (n : Nat) (updateEdge : Int → Int → Option Int) (f : Int → Int → Int)
    (P : Nat → Int → Prop) (F : Finset Nat) (l₀ : Nat → Int) (bool_map : Array Bool) (d : Nat)
    (st : PullState) : Prop :=
  ∃ st', pullStep g updateEdge bool_map d st = some st' ∧ Pulling g n f P F l₀ st' ∧
    pullEffort g st' < pullEffort g st

theorem pullStep_eq (hg : g.Wellformed n) (hd : d < n) (hpc : st.strands[d]? = some pc) :
    pullStep g updateEdge bool_map d st =
      fetch updateEdge bool_map g.in_neigh[d]! d pc st := by
  rw [pullStep, read_eq (by rw [hg.in_size]; exact hd), some_bind, hpc, some_bind]

theorem pullEffort_move {st' : PullState} {q : PullPc} (hpc : st.strands[d]? = some pc)
    (hstrands : st'.strands = st.strands.set d q)
    (hlt : q.left g.in_neigh[d]! < pc.left g.in_neigh[d]!) :
    pullEffort g st' < pullEffort g st := by
  have hset := effort_set (fun d => PullPc.left g.in_neigh[d]!) hpc q
  rw [pullEffort, pullEffort, hstrands]
  omega

theorem Pulling.strand_lt (h : Pulling g n f P F l₀ st) (hpc : st.strands[d]? = some pc) : d < n :=
  h.strands ▸ (List.getElem?_eq_some_iff.mp hpc).1

theorem Pulling.goto (h : Pulling g n f P F l₀ st) {q : PullPc}
    (hwork : q.Work f P F l₀ (fun v => st.labels[v]!) d g.in_neigh[d]!) :
    Pulling g n f P F l₀ (st.goto d q) :=
  ⟨h.labels, h.next, by simpa [PullState.goto] using h.strands, h.lower, h.sound,
    forall_set _ hwork fun k r _ hr => h.work k r hr, h.lowered⟩

theorem Pulling.label_ok (ho : Offers g updateEdge f P F l₀) (h : Pulling g n f P F l₀ st) {v : Nat}
    (hv : v ∈ F) : P v st.labels[v]! := by
  cases h.sound v with
  | inl hsame =>
    rw [hsame]
    exact ho.start v hv
  | inr hP => exact hP

/-- What a vertex of the frontier offers now. Edges that stand at the target stand at the source. -/
theorem Pulling.offer (hg : g.Wellformed n) (hF : ∀ v ∈ F, v < n)
    (ho : Offers g updateEdge f P F l₀) (h : Pulling g n f P F l₀ st) (hd : d < n) {s : WNode}
    (hs : s ∈ g.in_neigh[d]!) (hsF : s.v ∈ F) {y : Int}
    (hupd : updateEdge s.w st.labels[s.v]! = some y) : y = f s.w st.labels[s.v]! ∧ P d y :=
  ho.keeps s.v hsF ⟨d, s.w⟩ ((hg.transposed s.v (hF _ hsF) d hd s.w).mpr hs) _ _
    (h.label_ok ho hsF) (h.lower _) hupd

theorem Pulling.step_neighbour (hg : g.Wellformed n) (hF : ∀ v ∈ F, v < n)
    (hmap : Mapped bool_map n F) (ho : Offers g updateEdge f P F l₀) (h : Pulling g n f P F l₀ st)
    {j : Nat} (hpc : st.strands[d]? = some (.neighbour j))
    (hdef : ∀ s, (g.in_neigh[d]!)[j]? = some s → s.v ∈ F →
      ∃ y, updateEdge s.w st.labels[s.v]! = some y) :
    Fetching g n updateEdge f P F l₀ bool_map d st := by
  have hd := h.strand_lt hpc
  obtain ⟨hfetched, hj⟩ := h.work d _ hpc
  rw [Fetching, pullStep_eq hg hd hpc, fetch]
  cases hs : (g.in_neigh[d]!)[j]? with
  | none =>
    have hlen : j = (g.in_neigh[d]!).length := le_antisymm hj (List.getElem?_eq_none_iff.mp hs)
    have hall : Fetched f F l₀ (fun v => st.labels[v]!) d g.in_neigh[d]!
        (g.in_neigh[d]!).length := by
      rw [← hlen]
      exact hfetched
    exact ⟨_, rfl, h.goto (q := .joined) hall, pullEffort_move hpc rfl (Nat.succ_pos _)⟩
  | some s =>
    have hlt : j < (g.in_neigh[d]!).length := (List.getElem?_eq_some_iff.mp hs).1
    have hmem := List.mem_of_getElem? hs
    have hsn : s.v < n := hg.in_lt d hd s hmem
    have hpass (hle : s.v ∈ F → st.labels[d]! ≤ f s.w (l₀ s.v)) :
        Pulling g n f P F l₀ (st.goto d (.neighbour (j + 1))) ∧
          pullEffort g (st.goto d (.neighbour (j + 1))) < pullEffort g st := by
      refine ⟨h.goto ⟨hfetched.succ hs hle, hlt⟩, pullEffort_move hpc rfl ?_⟩
      simp only [PullPc.left]
      omega
    simp only [read_eq (hmap.1.symm ▸ hsn), some_bind]
    by_cases hsF : s.v ∈ F
    · obtain ⟨y, hupd⟩ := hdef s hs hsF
      obtain ⟨rfl, _⟩ := h.offer hg hF ho hd hmem hsF hupd
      rw [if_pos ((hmap.2 _ hsn).mpr hsF), read_eq (h.labels ▸ hsn), some_bind, hupd, some_bind,
        read_eq (h.labels ▸ hd), some_bind]
      by_cases hgt : st.labels[d]! > f s.w st.labels[s.v]!
      · rw [if_pos hgt]
        refine ⟨_, rfl, h.goto (q := .assign j) ⟨hfetched, s, hs, hsF, hgt⟩,
          pullEffort_move hpc rfl ?_⟩
        simp only [PullPc.left]
        omega
      · rw [if_neg hgt]
        exact ⟨_, rfl, hpass fun _ => (Int.not_lt.mp hgt).trans (ho.mono s.w (h.lower _))⟩
    · rw [if_neg fun hm => hsF ((hmap.2 _ hsn).mp hm)]
      exact ⟨_, rfl, hpass fun hin => absurd hin hsF⟩

theorem Pulling.step_assign (hg : g.Wellformed n) (hF : ∀ v ∈ F, v < n)
    (ho : Offers g updateEdge f P F l₀) (h : Pulling g n f P F l₀ st)
    {j : Nat} (hpc : st.strands[d]? = some (.assign j))
    (hdef : ∀ s, (g.in_neigh[d]!)[j]? = some s → s.v ∈ F →
      ∃ y, updateEdge s.w st.labels[s.v]! = some y) :
    Fetching g n updateEdge f P F l₀ bool_map d st := by
  have hd := h.strand_lt hpc
  obtain ⟨hfetched, s, hs, hsF, hlt⟩ := h.work d _ hpc
  have hmem := List.mem_of_getElem? hs
  have hsn : s.v < n := hg.in_lt d hd s hmem
  obtain ⟨y, hupd⟩ := hdef s hs hsF
  obtain ⟨rfl, hP⟩ := h.offer hg hF ho hd hmem hsF hupd
  rw [Fetching, pullStep_eq hg hd hpc, fetch]
  simp only [hs, some_bind, read_eq (h.labels ▸ hsn : s.v < st.labels.size), hupd]
  refine ⟨_, rfl, h.goto (q := .write j _)
    ⟨hfetched, s, hs, hsF, hP, ho.mono s.w (h.lower _), hlt⟩, pullEffort_move hpc rfl ?_⟩
  simp only [PullPc.left]
  omega

theorem Pulling.step_write (hg : g.Wellformed n) (ho : Offers g updateEdge f P F l₀)
    (h : Pulling g n f P F l₀ st) {j : Nat} {x : Int}
    (hpc : st.strands[d]? = some (.write j x)) :
    Fetching g n updateEdge f P F l₀ bool_map d st := by
  have hd := h.strand_lt hpc
  obtain ⟨hfetched, s, hs, hsF, hP, hx, hlt⟩ := h.work d _ hpc
  have hsize : d < st.labels.size := h.labels ▸ hd
  have hsize' : d < st.next.size := h.next ▸ hd
  have hnew : (st.labels.setIfInBounds d x)[d]! = x := put_get_self hsize x
  have hlow (v : Nat) : (st.labels.setIfInBounds d x)[v]! ≤ st.labels[v]! := by
    rw [put_get hsize]
    split_ifs with hvd
    · exact hvd ▸ hlt.le
    · exact le_rfl
  rw [Fetching, pullStep_eq hg hd hpc, fetch, store_eq hsize, some_bind, store_eq hsize', some_bind]
  refine ⟨_, rfl, ⟨by simpa using h.labels, by simpa using h.next, by simpa using h.strands,
    fun v => (hlow v).trans (h.lower v), fun v => ?_, forall_set _ ⟨?_, ?_⟩ fun k r hk hr => ?_,
    fun v hv => ?_⟩, pullEffort_move hpc rfl ?_⟩
  · rw [put_get hsize]
    split_ifs with hvd
    · exact .inr (hvd ▸ hP)
    · exact h.sound v
  · refine Fetched.succ (hfetched.lower (hlow d)) hs fun _ => ?_
    simp only [hnew]
    exact hx
  · exact (List.getElem?_eq_some_iff.mp hs).1
  · exact (h.work k r hr).frame ho.mono hlow (put_get_ne hk x)
  · rw [put_get hsize', put_get hsize]
    split_ifs with hvd
    · exact iff_of_true rfl (hvd ▸ hlt.trans_le (h.lower d))
    · exact h.lowered v hv
  · simp only [PullPc.left]
    omega

def PullPc.At (neigh : List WNode) (s : WNode) (pc : PullPc) : Prop :=
  ∃ j, (pc = .neighbour j ∨ pc = .assign j) ∧ neigh[j]? = some s

theorem Pulling.step (hg : g.Wellformed n) (hF : ∀ v ∈ F, v < n) (hmap : Mapped bool_map n F)
    (ho : Offers g updateEdge f P F l₀) (h : Pulling g n f P F l₀ st)
    (hpc : st.strands[d]? = some pc) (hnot : pc ≠ .joined)
    (hdef : ∀ s, pc.At g.in_neigh[d]! s → s.v ∈ F →
      ∃ y, updateEdge s.w st.labels[s.v]! = some y) :
    Fetching g n updateEdge f P F l₀ bool_map d st := by
  cases pc with
  | neighbour j =>
    exact h.step_neighbour hg hF hmap ho hpc fun s hs => hdef s ⟨j, .inl rfl, hs⟩
  | assign j => exact h.step_assign hg hF ho hpc fun s hs => hdef s ⟨j, .inr rfl, hs⟩
  | write j x => exact h.step_write hg ho hpc
  | joined => exact absurd rfl hnot

theorem Pulling.progress (hg : g.Wellformed n) (hF : ∀ v ∈ F, v < n) (hmap : Mapped bool_map n F)
    (ho : Offers g updateEdge f P F l₀) (hdef : Defined g updateEdge P F l₀)
    (h : Pulling g n f P F l₀ st) (hpc : st.strands[d]? = some pc) (hnot : pc ≠ .joined) :
    ∃ st', pullStep g updateEdge bool_map d st = some st' := by
  have hd := h.strand_lt hpc
  obtain ⟨st', hstep, _⟩ := h.step hg hF hmap ho hpc hnot fun s hat hsF => by
    obtain ⟨j, _, hs⟩ := hat
    exact hdef s.v hsF ⟨d, s.w⟩
      ((hg.transposed s.v (hF _ hsF) d hd s.w).mpr (List.mem_of_getElem? hs)) _ (h.label_ok ho hsF)
      (h.lower _)
  exact ⟨st', hstep⟩

theorem Pulling.next_step (hg : g.Wellformed n) (hF : ∀ v ∈ F, v < n) (hmap : Mapped bool_map n F)
    (ho : Offers g updateEdge f P F l₀) (h : Pulling g n f P F l₀ st) {st' : PullState}
    (hstep : pullStep g updateEdge bool_map d st = some st') :
    Pulling g n f P F l₀ st' ∧ pullEffort g st' < pullEffort g st := by
  obtain ⟨pc, hpc⟩ : ∃ pc, st.strands[d]? = some pc := by
    obtain ⟨_, _, hrest⟩ := Option.bind_eq_some_iff.mp hstep
    obtain ⟨pc, hpc, _⟩ := Option.bind_eq_some_iff.mp hrest
    exact ⟨pc, hpc⟩
  have hd := h.strand_lt hpc
  have hfetch := hstep
  rw [pullStep_eq hg hd hpc] at hfetch
  have hnot : pc ≠ .joined := by
    rintro rfl
    cases hfetch
  obtain ⟨st₁, hone, hnext⟩ := h.step hg hF hmap ho hpc hnot fun s hat hsF => by
    have hsn := hF _ hsF
    obtain ⟨j, rfl | rfl, hs⟩ := hat
    · simp only [fetch, hs, read_eq (hmap.1.symm ▸ hsn : s.v < bool_map.size), some_bind,
        (hmap.2 _ hsn).mpr hsF, if_true, read_eq (h.labels.symm ▸ hsn : s.v < st.labels.size)]
        at hfetch
      obtain ⟨y, hy, _⟩ := Option.bind_eq_some_iff.mp hfetch
      exact ⟨y, hy⟩
    · simp only [fetch, hs, some_bind,
        read_eq (h.labels.symm ▸ hsn : s.v < st.labels.size)] at hfetch
      obtain ⟨y, hy, _⟩ := Option.bind_eq_some_iff.mp hfetch
      exact ⟨y, hy⟩
  obtain rfl : st₁ = st' := Option.some.inj (hone.symm.trans hstep)
  exact hnext

end Step

section Spec
variable {g : WGraph} {n : Nat} {updateEdge : Int → Int → Option Int} {f : Int → Int → Int}
variable {P : Nat → Int → Prop} {F : Finset Nat} {st st' : Program} {s : PullState}
variable {bool_map : Array Bool} {sched : List Nat}

theorem Pulling.start (hg : g.Wellformed n) (hst : Ready n st F) :
    Pulling g n f P F (fun v => st.labels[v]!) (pullStart g st) := by
  have hnodes : g.num_nodes = n := hg.out_size
  refine ⟨hst.labels, Array.size_replicate.trans hnodes, List.length_replicate.trans hnodes,
    fun _ => le_rfl, fun _ => .inl rfl, fun d pc h => ?_, fun v hv => ?_⟩
  · obtain rfl : pc = .neighbour 0 := List.eq_of_mem_replicate (List.mem_of_getElem? h)
    exact ⟨fun j hj => absurd hj (Nat.not_lt_zero j), Nat.zero_le _⟩
  · have hfalse : (pullStart g st).next[v]! = false := replicate_get _ v false (hnodes ▸ hv)
    rw [hfalse]
    exact iff_of_false Bool.false_ne_true (lt_irrefl _)

theorem pull_run (hg : g.Wellformed n) (hst : Ready n st F) (hmap : Mapped bool_map n F)
    (ho : Offers g updateEdge f P F fun v => st.labels[v]!)
    (hrun : interleave (pullStep g updateEdge bool_map) sched (pullStart g st) = some s) :
    Pulling g n f P F (fun v => st.labels[v]!) s ∧
      sched.length + pullEffort g s ≤ pullEffort g (pullStart g st) :=
  interleave_effort _ (pullEffort g)
    (fun _ _ _ h hstep => h.next_step hg hst.frontier.inside hmap ho hstep) (.start hg hst) hrun

theorem Pulling.join {l₀ : Nat → Int} (hg : g.Wellformed n) (hn : 0 < n) (hst : Ready n st F)
    (h : Pulling g n f P F l₀ s) :
    ∃ F', Ready n (pullJoin g st s) F' ∧ ∀ v, v ∈ F' ↔ v < n ∧ s.labels[v]! < l₀ v := by
  have hmem (v : Nat) : v ∈ (Finset.range n).filter (fun v => s.next[v]! = true) ↔
      v < n ∧ s.labels[v]! < l₀ v := by
    rw [Finset.mem_filter, Finset.mem_range]
    exact and_congr_right fun hv => h.lowered v hv
  refine ⟨_, ⟨h.labels, hst.flags, ?_⟩, hmem⟩
  rw [pullJoin, WGraph.num_nodes, hg.out_size]
  exact VertexSubset.make_map hn h.next

theorem Pulling.served {l₀ : Nat → Int} (hg : g.Wellformed n) (hF : ∀ v ∈ F, v < n)
    (h : Pulling g n f P F l₀ s) (hjoined : ∀ pc ∈ s.strands, pc = .joined) {u : Nat}
    (hu : u ∈ F) {d : WNode} (hd : d ∈ g.out_neigh[u]!) : s.labels[d.v]! ≤ f d.w (l₀ u) := by
  have hdn : d.v < n := hg.out_lt u (hF u hu) d hd
  have hpc : s.strands[d.v]? = some .joined := by
    rw [List.getElem?_eq_getElem (h.strands.symm ▸ hdn)]
    exact congrArg some (hjoined _ (List.getElem_mem _))
  obtain ⟨j, hj, hget⟩ := List.getElem_of_mem ((hg.transposed u (hF u hu) d.v hdn d.w).mp hd)
  exact h.work d.v .joined hpc j hj ⟨u, d.w⟩ (by rw [← hget]; exact List.getElem?_eq_getElem hj) hu

/-- A round of the strands is a round of the relaxation. -/
theorem pull_relaxes (hg : g.Wellformed n) (hn : 0 < n) (hst : Ready n st F)
    (ho : Offers g updateEdge f P F fun v => st.labels[v]!)
    (hround : PullRound g updateEdge st st') :
    ∃ F', Ready n st' F' ∧ Round (arcs g n f) (st.view F) (st'.view F') := by
  obtain ⟨vs, b, hdense, hb, hvs⟩ := VertexSubset.toDense_spec hst.frontier
  cases hround with
  | strands hdense' hb' hrun hjoined =>
    obtain rfl := Option.some.inj (hdense'.symm.trans hdense)
    obtain rfl := Option.some.inj (hb'.symm.trans hb)
    have hmap : Mapped _ n F := hvs.map _ hb
    obtain ⟨hpull, _⟩ := pull_run hg hst hmap ho hrun
    obtain ⟨F', hready, hmem⟩ := hpull.join hg hn hst
    refine ⟨F', hready, hpull.lower, fun v => ⟨fun hv => ((hmem v).mp hv).2, fun hlow => ?_⟩, ?_,
      fun Q hstart hQ v => ?_⟩
    · refine (hmem v).mpr ⟨?_, hlow⟩
      by_contra hv
      have h₁ := hpull.labels
      have h₂ := hst.labels
      simp only [Program.view, pullJoin, getElem!_def,
        Array.getElem?_eq_none (Nat.not_lt.mp (h₁ ▸ hv)),
        Array.getElem?_eq_none (Nat.not_lt.mp (h₂ ▸ hv)), lt_irrefl] at hlow
    · rintro e ⟨u, _, d, hd, rfl⟩ hu
      exact hpull.served hg hst.frontier.inside hjoined hu hd
    · obtain ⟨hpull', _⟩ := pull_run hg hst hmap
        (ho.and (n := n) hst.frontier.inside hstart hQ) hrun
      exact (hpull'.sound v).imp_right And.right

theorem pullEffort_start (hg : g.Wellformed n) : pullEffort g (pullStart g st) =
    (g.in_neigh.toList.map List.length).sum * 3 + g.num_nodes := by
  have hsize : g.in_neigh.size = g.num_nodes := hg.in_size.trans hg.out_size.symm
  have hmap : (pullStart g st).strands.mapIdx (fun d => PullPc.left g.in_neigh[d]!) =
      (g.in_neigh.toList.map List.length).map fun deg => deg * 3 + 1 := by
    refine List.ext_getElem (by simp [pullStart, hsize]) fun d hd _ => ?_
    have hd' : d < g.in_neigh.size := by simpa [pullStart, hsize] using hd
    simp only [List.getElem_mapIdx, pullStart, List.getElem_replicate, List.getElem_map,
      Array.getElem_toList, getElem!_pos g.in_neigh d hd', PullPc.left, Nat.sub_zero]
  have hlen : (g.in_neigh.toList.map List.length).length = g.num_nodes := by simp [hsize]
  rw [← hlen, ← sum_mul_add_one, ← hmap]
  rfl

/-- Whatever steps the strands have taken, each that has not joined has another one, and there are
no more of them than a bound. -/
def PullSafe (g : WGraph) (updateEdge : Int → Int → Option Int) (st : Program) : Prop :=
  ∃ vs bool_map, st.frontier.toDense = some vs ∧ vs.bool_map = some bool_map ∧ ∀ sched s,
    interleave (pullStep g updateEdge bool_map) sched (pullStart g st) = some s →
    (∀ d pc, s.strands[d]? = some pc → pc ≠ .joined →
      ∃ s', pullStep g updateEdge bool_map d s = some s') ∧
    sched.length ≤ (g.in_neigh.toList.map List.length).sum * 3 + g.num_nodes

theorem pull_safe (hg : g.Wellformed n) (hst : Ready n st F)
    (ho : Offers g updateEdge f P F fun v => st.labels[v]!)
    (hdef : Defined g updateEdge P F fun v => st.labels[v]!) : PullSafe g updateEdge st := by
  obtain ⟨vs, b, hdense, hb, hvs⟩ := VertexSubset.toDense_spec hst.frontier
  have hmap : Mapped b n F := hvs.map b hb
  refine ⟨vs, b, hdense, hb, fun sched s hrun => ?_⟩
  obtain ⟨hpull, hlen⟩ := pull_run hg hst hmap ho hrun
  rw [pullEffort_start hg] at hlen
  exact ⟨fun d pc hpc hnot => hpull.progress hg hst.frontier.inside hmap ho hdef hpc hnot,
    by omega⟩

theorem pull_exists (hg : g.Wellformed n) (hst : Ready n st F)
    (ho : Offers g updateEdge f P F fun v => st.labels[v]!)
    (hdef : Defined g updateEdge P F fun v => st.labels[v]!) :
    ∃ st', PullRound g updateEdge st st' := by
  obtain ⟨vs, b, hdense, hb, hvs⟩ := VertexSubset.toDense_spec hst.frontier
  have hmap : Mapped b n F := hvs.map b hb
  have hprogress (s : PullState) (hpull : Pulling g n f P F (fun v => st.labels[v]!) s)
      (hnot : ¬ ∀ pc ∈ s.strands, pc = .joined) :
      ∃ d s', pullStep g updateEdge b d s = some s' := by
    push Not at hnot
    obtain ⟨pc, hmem, hpc⟩ := hnot
    obtain ⟨d, hd⟩ := List.mem_iff_getElem?.mp hmem
    exact ⟨d, hpull.progress hg hst.frontier.inside hmap ho hdef hd hpc⟩
  obtain ⟨sched, s, hrun, _, hjoined⟩ := interleave_finish _ (pullEffort g) _ hprogress
    (fun d s s' hpull hstep => hpull.next_step hg hst.frontier.inside hmap ho hstep)
    (Pulling.start hg hst)
  exact ⟨_, .strands hdense hb hrun hjoined⟩

end Spec

end GraphReorder.GraphIt
