import GraphReorder.GraphIt.Pull
import GraphReorder.GraphIt.SearchRound

/-! A round of the benchmark program `bfs` in the pull direction: every vertex that has no parent yet
looks for one among its sources in the frontier. -/
namespace GraphReorder.GraphIt
open Library

/-- Where the strand of a vertex is: at the filter, at its `j`-th source, or at the end. -/
inductive ScanPc
  | filter
  | neighbour (j : Nat)
  | joined

structure ScanState where
  parent : Array Int
  next : Array Bool
  strands : List ScanPc

def ScanState.goto (st : ScanState) (d : Nat) (pc : ScanPc) : ScanState :=
  { st with strands := st.strands.set d pc }

section Model
variable (g : WGraph)

/-- A step of the strand of `d`. No other strand reads or writes the cells of `d`. -/
def scan (bool_map : Array Bool) (neigh : List WNode) (d : Nat) (pc : ScanPc) (st : ScanState) :
    Option ScanState :=
  match pc with
  | .filter => do
    if (← st.parent[d]?) = -1 then pure (st.goto d (.neighbour 0)) else pure (st.goto d .joined)
  | .neighbour j =>
    match neigh[j]? with
    | none => pure (st.goto d .joined)
    | some s => do
      if ← bool_map[s.v]? then do
        let parent ← store st.parent d (s.v : Int)
        let next ← store st.next d true
        -- `if (!to_func(d)) break;`
        if (← parent[d]?) = -1 then pure ⟨parent, next, st.strands.set d (.neighbour (j + 1))⟩
        else pure ⟨parent, next, st.strands.set d .joined⟩
      else pure (st.goto d (.neighbour (j + 1)))
  | .joined => none

def scanStep (bool_map : Array Bool) (d : Nat) (st : ScanState) : Option ScanState := do
  let neigh ← g.in_neigh[d]?
  scan bool_map neigh d (← st.strands[d]?) st

def scanStart (st : Program) : ScanState where
  parent := st.labels
  next := Array.replicate g.num_nodes false
  strands := List.replicate g.num_nodes .filter

def scanJoin (st : Program) (s : ScanState) : Program where
  labels := s.parent
  flags := st.flags
  frontier := { VertexSubset.make g.num_nodes 0 with
    num_vertices := s.next.toList.count true
    bool_map := some s.next }

/-- `edgeset_apply_pull_parallel_from_vertexset_to_filter_func_with_frontier`, with the steps of the
strands in any order. -/
inductive ScanRound (st : Program) : Program → Prop
  | strands {vs : VertexSubset} {bool_map : Array Bool} {sched : List Nat} {s : ScanState}
      (hdense : st.frontier.toDense = some vs) (hmap : vs.bool_map = some bool_map)
      (hrun : interleave (scanStep g bool_map) sched (scanStart g st) = some s)
      (hjoined : ∀ pc ∈ s.strands, pc = .joined) : ScanRound st (scanJoin g st s)

end Model

def ScanPc.Work (F : Finset Nat) (neigh : List WNode) (p₀ p : Int) (b : Bool) : ScanPc → Prop
  | .filter => p = p₀ ∧ b = false
  | .neighbour j => p = p₀ ∧ b = false ∧ p₀ = -1 ∧ j ≤ neigh.length ∧
    ∀ i < j, ∀ s, neigh[i]? = some s → s.v ∉ F
  | .joined => p = p₀ ∧ b = false ∧ (p₀ = -1 → ∀ s ∈ neigh, s.v ∉ F) ∨
    p₀ = -1 ∧ b = true ∧ ∃ s ∈ neigh, s.v ∈ F ∧ p = s.v

def ScanPc.left (neigh : List WNode) : ScanPc → Nat
  | .filter => neigh.length + 2
  | .neighbour j => neigh.length - j + 1
  | .joined => 0

def scanEffort (g : WGraph) (st : ScanState) : Nat :=
  effort (fun d => ScanPc.left g.in_neigh[d]!) st.strands

structure Scanning (g : WGraph) (n : Nat) (F : Finset Nat) (p₀ : Nat → Int) (st : ScanState) :
    Prop where
  parent : st.parent.size = n
  next : st.next.size = n
  strands : st.strands.length = n
  work : ∀ d (pc : ScanPc), st.strands[d]? = some pc →
    pc.Work F g.in_neigh[d]! (p₀ d) st.parent[d]! st.next[d]!

section Step
variable {g : WGraph} {n : Nat} {F : Finset Nat} {p₀ : Nat → Int} {st : ScanState}
variable {bool_map : Array Bool} {d : Nat} {pc q : ScanPc}

theorem Scanning.strand_lt (h : Scanning g n F p₀ st) (hpc : st.strands[d]? = some pc) : d < n :=
  h.strands ▸ (List.getElem?_eq_some_iff.mp hpc).1

theorem Scanning.move (h : Scanning g n F p₀ st) (hpc : st.strands[d]? = some pc)
    {parent : Array Int} {next : Array Bool} (hparent : parent.size = n) (hnext : next.size = n)
    (hother : ∀ v, v ≠ d → parent[v]! = st.parent[v]! ∧ next[v]! = st.next[v]!)
    (hwork : q.Work F g.in_neigh[d]! (p₀ d) parent[d]! next[d]!)
    (hlt : q.left g.in_neigh[d]! < pc.left g.in_neigh[d]!) :
    Scanning g n F p₀ ⟨parent, next, st.strands.set d q⟩ ∧
      scanEffort g ⟨parent, next, st.strands.set d q⟩ < scanEffort g st := by
  refine ⟨⟨hparent, hnext, by simpa using h.strands, ?_⟩, ?_⟩
  · refine forall_set _ hwork fun v r hv hr => ?_
    obtain ⟨hp, hb⟩ := hother v hv
    simp only [hp, hb]
    exact h.work v r hr
  · have hset := effort_set (fun d => ScanPc.left g.in_neigh[d]!) hpc q
    simp only [scanEffort]
    omega

theorem Scanning.goto (h : Scanning g n F p₀ st) (hpc : st.strands[d]? = some pc)
    (hwork : q.Work F g.in_neigh[d]! (p₀ d) st.parent[d]! st.next[d]!)
    (hlt : q.left g.in_neigh[d]! < pc.left g.in_neigh[d]!) :
    Scanning g n F p₀ (st.goto d q) ∧ scanEffort g (st.goto d q) < scanEffort g st :=
  h.move hpc h.parent h.next (fun _ _ => ⟨rfl, rfl⟩) hwork hlt

theorem Scanning.progress (hg : g.Wellformed n) (hmap : Mapped bool_map n F)
    (h : Scanning g n F p₀ st) (hpc : st.strands[d]? = some pc) (hnot : pc ≠ .joined) :
    ∃ st', scanStep g bool_map d st = some st' ∧ Scanning g n F p₀ st' ∧
      scanEffort g st' < scanEffort g st := by
  have hd := h.strand_lt hpc
  have hdp : d < st.parent.size := h.parent.symm ▸ hd
  have hdb : d < st.next.size := h.next.symm ▸ hd
  have hwork := h.work d pc hpc
  rw [scanStep, read_eq (by rw [hg.in_size]; exact hd), some_bind, hpc, some_bind]
  cases pc with
  | filter =>
    obtain ⟨hp, hb⟩ := hwork
    simp only [scan, read_eq hdp, some_bind]
    by_cases hfree : st.parent[d]! = -1
    · rw [if_pos hfree]
      refine ⟨_, rfl, h.goto hpc (q := .neighbour 0) ?_ ?_⟩
      · exact ⟨hp, hb, hp.symm.trans hfree, Nat.zero_le _, fun i hi => absurd hi (Nat.not_lt_zero i)⟩
      · simp only [ScanPc.left]
        omega
    · rw [if_neg hfree]
      refine ⟨_, rfl, h.goto hpc (q := .joined) ?_ ?_⟩
      · exact .inl ⟨hp, hb, fun hp₀ => absurd (hp.trans hp₀) hfree⟩
      · simp only [ScanPc.left]
        omega
  | neighbour j =>
    obtain ⟨hp, hb, hp₀, hj, hnone⟩ := hwork
    rw [scan]
    cases hs : (g.in_neigh[d]!)[j]? with
    | none =>
      have hlen : (g.in_neigh[d]!).length ≤ j := List.getElem?_eq_none_iff.mp hs
      refine ⟨_, rfl, h.goto hpc (q := .joined) (.inl ⟨hp, hb, fun _ s hmem => ?_⟩) ?_⟩
      · obtain ⟨i, hi, hget⟩ := List.getElem_of_mem hmem
        exact hnone i (hi.trans_le hlen) s (hget ▸ List.getElem?_eq_getElem hi)
      · exact Nat.succ_pos _
    | some s =>
      have hlt : j < (g.in_neigh[d]!).length := (List.getElem?_eq_some_iff.mp hs).1
      have hmem := List.mem_of_getElem? hs
      have hsn : s.v < n := hg.in_lt d hd s hmem
      simp only [read_eq (hmap.1.symm ▸ hsn), some_bind]
      by_cases hsF : s.v ∈ F
      · have hget : (st.parent.setIfInBounds d (s.v : Int))[d]! = s.v := put_get_self hdp _
        have hne : (s.v : Int) ≠ -1 := by omega
        rw [if_pos ((hmap.2 _ hsn).mpr hsF), store_eq hdp, some_bind, store_eq hdb, some_bind,
          read_eq (by simpa using hdp), some_bind, hget, if_neg hne]
        refine ⟨_, rfl, h.move hpc (q := .joined) (by simpa using h.parent)
          (by simpa using h.next) (fun v hv => ⟨put_get_ne hv _, put_get_ne hv _⟩) ?_ ?_⟩
        · exact .inr ⟨hp₀, put_get_self hdb _, s, hmem, hsF, hget⟩
        · exact Nat.succ_pos _
      · rw [if_neg fun hm => hsF ((hmap.2 _ hsn).mp hm)]
        refine ⟨_, rfl, h.goto hpc (q := .neighbour (j + 1))
          ⟨hp, hb, hp₀, hlt, fun i hi s' hs' => ?_⟩ ?_⟩
        · by_cases hij : i = j
          · obtain rfl : s' = s := Option.some.inj (hs'.symm.trans (hij ▸ hs))
            exact hsF
          · exact hnone i (by omega) s' hs'
        · simp only [ScanPc.left]
          omega
  | joined => exact absurd rfl hnot

theorem Scanning.next_step (hg : g.Wellformed n) (hmap : Mapped bool_map n F)
    (h : Scanning g n F p₀ st) {st' : ScanState} (hstep : scanStep g bool_map d st = some st') :
    Scanning g n F p₀ st' ∧ scanEffort g st' < scanEffort g st := by
  obtain ⟨neigh, _, hrest⟩ := Option.bind_eq_some_iff.mp hstep
  obtain ⟨pc, hpc, hscan⟩ := Option.bind_eq_some_iff.mp hrest
  have hnot : pc ≠ .joined := by
    rintro rfl
    cases hscan
  obtain ⟨st₁, hone, hnext⟩ := h.progress hg hmap hpc hnot
  obtain rfl := Option.some.inj (hone.symm.trans hstep)
  exact hnext

end Step

def ScanSafe (g : WGraph) (st : Program) : Prop :=
  ∃ vs bool_map, st.frontier.toDense = some vs ∧ vs.bool_map = some bool_map ∧ ∀ sched s,
    interleave (scanStep g bool_map) sched (scanStart g st) = some s →
    (∀ d pc, s.strands[d]? = some pc → pc ≠ .joined →
      ∃ s', scanStep g bool_map d s = some s') ∧
    sched.length ≤ scanEffort g (scanStart g st)

section Spec
variable {g : WGraph} {n : Nat} {F : Finset Nat} {st st' : Program} {s : ScanState}
variable {bool_map : Array Bool} {sched : List Nat}

theorem Scanning.start (hg : g.Wellformed n) (hst : Ready n st F) :
    Scanning g n F (fun v => st.labels[v]!) (scanStart g st) := by
  have hnodes : g.num_nodes = n := hg.out_size
  refine ⟨hst.labels, Array.size_replicate.trans hnodes, List.length_replicate.trans hnodes,
    fun d pc h => ?_⟩
  have hd : d < g.num_nodes := by simpa [scanStart] using (List.getElem?_eq_some_iff.mp h).1
  obtain rfl : pc = .filter := List.eq_of_mem_replicate (List.mem_of_getElem? h)
  exact ⟨rfl, replicate_get _ d false hd⟩

theorem scan_run (hg : g.Wellformed n) (hst : Ready n st F) (hmap : Mapped bool_map n F)
    (hrun : interleave (scanStep g bool_map) sched (scanStart g st) = some s) :
    Scanning g n F (fun v => st.labels[v]!) s ∧
      sched.length + scanEffort g s ≤ scanEffort g (scanStart g st) :=
  interleave_effort _ (scanEffort g) (fun _ _ _ h hstep => h.next_step hg hmap hstep)
    (.start hg hst) hrun

theorem Scanning.outcome {p₀ : Nat → Int} (h : Scanning g n F p₀ s)
    (hjoined : ∀ pc ∈ s.strands, pc = .joined) {v : Nat} (hv : v < n) :
    ScanPc.Work F g.in_neigh[v]! (p₀ v) s.parent[v]! s.next[v]! .joined := by
  refine h.work v .joined ?_
  rw [List.getElem?_eq_getElem (h.strands.symm ▸ hv)]
  exact congrArg some (hjoined _ (List.getElem_mem _))

theorem edge_iff (hg : g.Wellformed n) {u v : Nat} (hu : u < n) (hv : v < n) :
    Edge g u v ↔ ∃ s ∈ g.in_neigh[v]!, s.v = u := by
  constructor
  · rintro ⟨d, hd, rfl⟩
    exact ⟨⟨u, d.w⟩, (hg.transposed u hu d.v hv d.w).mp hd, rfl⟩
  · rintro ⟨s, hs, rfl⟩
    exact ⟨⟨v, s.w⟩, (hg.transposed s.v hu v hv s.w).mpr hs, rfl⟩

/-- A round finds a layer. -/
theorem scan_layer (hg : g.Wellformed n) (hn : 0 < n) (hst : Ready n st F)
    (hpar : ∀ v < n, -1 ≤ st.labels[v]!) (hround : ScanRound g st st') :
    ∃ F', Ready n st' F' ∧ Layer (Edge g) (st.tree n F) (st'.tree n F') ∧
      ∀ v < n, -1 ≤ st'.labels[v]! := by
  obtain ⟨vs, b, hdense, hb, hvs⟩ := VertexSubset.toDense_spec hst.frontier
  cases hround with
  | @strands _ _ _ s hdense' hb' hrun hjoined =>
    obtain rfl := Option.some.inj (hdense'.symm.trans hdense)
    obtain rfl := Option.some.inj (hb'.symm.trans hb)
    have hmap : Mapped _ n F := hvs.map _ hb
    obtain ⟨hscan, _⟩ := scan_run hg hst hmap hrun
    have hmem (v : Nat) : v ∈ (Finset.range n).filter (fun v => s.next[v]! = true) ↔
        v < n ∧ s.next[v]! = true := by rw [Finset.mem_filter, Finset.mem_range]
    refine ⟨(Finset.range n).filter fun v => s.next[v]! = true,
      ⟨hscan.parent, hst.flags, ?_⟩, ⟨fun v u hu => ?_, fun v => ?_, fun v hv => ?_,
      fun v u hv hu => ?_⟩, fun v hv => ?_⟩
    · rw [scanJoin, WGraph.num_nodes, hg.out_size]
      exact VertexSubset.make_map hn hscan.next
    · obtain ⟨hvn, hp, hu⟩ := Program.tree_some.mp hu
      rcases hscan.outcome hjoined hvn with ⟨hsame, _⟩ | ⟨hp₀, _⟩
      · refine Program.tree_some.mpr ⟨hvn, ?_, ?_⟩
        · exact hsame.symm ▸ hp
        · exact hsame.symm ▸ hu
      · exact absurd hp₀ hp
    · refine (hmem v).trans ?_
      constructor
      · rintro ⟨hvn, hnext⟩
        rcases hscan.outcome hjoined hvn with ⟨_, hfalse, _⟩ | ⟨hp₀, _, e, he, heF, _⟩
        · exact absurd (hfalse.symm.trans hnext) Bool.false_ne_true
        · have hen := hg.in_lt v hvn e he
          exact ⟨(Program.tree_none hvn).mpr hp₀, e.v, heF, (edge_iff hg hen hvn).mpr ⟨e, he, rfl⟩⟩
      · rintro ⟨hv, u, hu, hedge⟩
        have hun := hst.frontier.inside u hu
        obtain ⟨d, hd, rfl⟩ := hedge
        have hvn := hg.out_lt u hun d hd
        obtain ⟨e, he, heu⟩ := (edge_iff hg hun hvn).mp ⟨d, hd, rfl⟩
        rcases hscan.outcome hjoined hvn with ⟨_, _, hnone⟩ | ⟨_, hnext, _⟩
        · exact absurd (heu ▸ hu) (hnone ((Program.tree_none hvn).mp hv) e he)
        · exact ⟨hvn, hnext⟩
    · obtain ⟨hvn, hnext⟩ := (hmem v).mp hv
      rcases hscan.outcome hjoined hvn with ⟨_, hfalse, _⟩ | ⟨_, _, e, _, _, hp⟩
      · exact absurd (hfalse.symm.trans hnext) Bool.false_ne_true
      · intro hnone
        have hminus : s.parent[v]! = -1 := (Program.tree_none hvn).mp hnone
        omega
    · obtain ⟨hvn, hnow, hu⟩ := Program.tree_some.mp hu
      have hp₀ : st.labels[v]! = -1 := (Program.tree_none hvn).mp hv
      rcases hscan.outcome hjoined hvn with ⟨hsame, _⟩ | ⟨_, _, e, he, heF, hp⟩
      · exact absurd (hsame.trans hp₀) hnow
      · have heu : e.v = u := by
          rw [← hu]
          exact (congrArg Int.toNat hp).symm
        exact heu ▸ ⟨heF, (edge_iff hg (hg.in_lt v hvn e he) hvn).mpr ⟨e, he, rfl⟩⟩
    · change -1 ≤ s.parent[v]!
      rcases hscan.outcome hjoined hv with ⟨hsame, _⟩ | ⟨_, _, e, _, _, hp⟩
      · rw [hsame]
        exact hpar v hv
      · omega

theorem scan_safe (hg : g.Wellformed n) (hst : Ready n st F) : ScanSafe g st := by
  obtain ⟨vs, b, hdense, hb, hvs⟩ := VertexSubset.toDense_spec hst.frontier
  have hmap : Mapped b n F := hvs.map b hb
  refine ⟨vs, b, hdense, hb, fun sched s hrun => ?_⟩
  obtain ⟨hscan, hlen⟩ := scan_run hg hst hmap hrun
  refine ⟨fun d pc hpc hnot => ?_, by omega⟩
  obtain ⟨s', hstep, _⟩ := hscan.progress hg hmap hpc hnot
  exact ⟨s', hstep⟩

theorem scan_exists (hg : g.Wellformed n) (hst : Ready n st F) : ∃ st', ScanRound g st st' := by
  obtain ⟨vs, b, hdense, hb, hvs⟩ := VertexSubset.toDense_spec hst.frontier
  have hmap : Mapped b n F := hvs.map b hb
  have hprogress (s : ScanState) (h : Scanning g n F (fun v => st.labels[v]!) s)
      (hnot : ¬ ∀ pc ∈ s.strands, pc = .joined) : ∃ d s', scanStep g b d s = some s' := by
    push Not at hnot
    obtain ⟨pc, hmem, hpc⟩ := hnot
    obtain ⟨d, hd⟩ := List.mem_iff_getElem?.mp hmem
    obtain ⟨s', hstep, _⟩ := h.progress hg hmap hd hpc
    exact ⟨d, s', hstep⟩
  obtain ⟨sched, s, hrun, _, hjoined⟩ := interleave_finish _ (scanEffort g) _ hprogress
    (fun _ _ _ h hstep => h.next_step hg hmap hstep) (Scanning.start hg hst)
  exact ⟨_, .strands hdense hb hrun hjoined⟩

end Spec

end GraphReorder.GraphIt
