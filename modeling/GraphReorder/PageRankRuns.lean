import Mathlib.Algebra.Ring.Nat
import Mathlib.Algebra.BigOperators.Ring.List
import Mathlib.Data.Rat.Defs
import GraphReorder.PageRankBarrier

/-! Whole runs of the threads of PageRank: what the out-degrees are, that every run ends after the
same number of steps with the ranks of the sequential program, and that no step races another. -/
namespace GraphReorder.PageRank
open Library

section Degrees
variable {G : Graph} {n : Nat}

theorem findOutDeg_spec (hG : G.Wellformed n) :
    ∃ degArr, findOutDeg G (Array.replicate n 0) = some degArr ∧ degArr.size = n ∧
      ∀ w : Nat, w < n → degArr[w]! = G.EI.toList.count (w : Int) := by
  have hsize : G.numEdges.toNat = G.EI.size := by
    have := hG.edges
    omega
  let Counted (i : Nat) (degArr : Array Int) : Prop :=
    degArr.size = n ∧ ∀ w : Nat, w < n → degArr[w]! = (slice G.EI 0 i).count (w : Int)
  have hzero : Counted 0 (Array.replicate n 0) :=
    ⟨by simp, fun w hw => by rw [replicate_get n w 0 hw, slice_empty _ le_rfl]; rfl⟩
  obtain ⟨degArr, hrun, hs, hcount⟩ : ∃ degArr, findOutDeg G (Array.replicate n 0) = some degArr ∧
      Counted G.numEdges.toNat degArr := forRange_rule Counted (Nat.zero_le G.numEdges.toNat) hzero
    fun i degArr _ hi hI => by
      have hlt : i < G.EI.size := hsize ▸ hi
      have hmem : G.EI[i]! ∈ G.EI.toList := by
        rw [getElem!_pos G.EI i hlt]
        exact Array.getElem_mem_toList hlt
      obtain ⟨h0, hn⟩ := hG.inside _ hmem
      obtain ⟨v, hv⟩ := Int.eq_ofNat_of_zero_le h0
      have hvn : v < degArr.size := by
        rw [hI.1]
        omega
      refine ⟨degArr.setIfInBounds v (degArr[v]! + 1), ?_, by simpa using hI.1, fun w hw => ?_⟩
      · rw [read_eq hlt, some_bind, hv, readAt_nat hvn, some_bind, writeAt_nat hvn]
      · rw [put_get hvn, slice_succ _ (Nat.zero_le i), List.count_append, hv, List.count_singleton]
        by_cases hwv : w = v
        · subst hwv
          rw [if_pos rfl, hI.2 w hw, if_pos (beq_self_eq_true _)]
          exact (Int.natCast_succ _).symm
        · have hne : ¬ ((v : Int) == (w : Int)) = true := by
            rw [beq_iff_eq, Int.ofNat_inj]
            exact Ne.symm hwv
          rw [if_neg hwv, if_neg hne, hI.2 w hw, Nat.add_zero]
  refine ⟨degArr, hrun, hs, fun w hw => ?_⟩
  rw [hcount w hw, hsize, slice_all]

end Degrees

section Runs
variable {V : Type} {A : Doubles V} {G : Graph} {n : Nat} {degArr : Array Int}
variable {TD : List ThreadData} {st : Array V × Array V} {s s' : Shared V} {k tid : Nat}

theorem working_of_step (h : threadStep A G degArr TD tid s = some s') :
    ∃ pc, s.threads[tid]? = some pc ∧ pc.isWorking = true := by
  obtain ⟨td, _, h⟩ := Option.bind_eq_some_iff.mp h
  obtain ⟨pc, hpc, h⟩ := Option.bind_eq_some_iff.mp h
  refine ⟨pc, hpc, ?_⟩
  cases pc with
  | vertex iter i => rfl
  | row iter i j lastId tempVal => rfl
  | waiting iter => cases h
  | ended => cases h

variable [Inhabited V]

def Going (A : Doubles V) (G : Graph) (degArr : Array Int) (n : Nat) (TD : List ThreadData)
    (st : Array V × Array V) (s : Shared V) : Prop :=
  (∃ k, Phase A G degArr n TD st k s) ∨ Ended A G degArr n TD st s

structure Given (G : Graph) (n : Nat) (degArr : Array Int) (TD : List ThreadData)
    (st : Array V × Array V) : Prop where
  graph : G.Wellformed n
  degrees : degArr.size = n
  parts : Partitions G n TD
  some_thread : TD ≠ []
  arrays : st.1.size = n ∧ st.2.size = n

theorem Given.start (h : Given G n degArr TD
      (Array.replicate G.numVertex.toNat A.zero, Array.replicate G.numVertex.toNat A.one)) :
    Going A G degArr n TD
      (Array.replicate G.numVertex.toNat A.zero, Array.replicate G.numVertex.toNat A.one)
      (startThreads A G TD) := by
  refine .inl ⟨0, by decide, by simp [startThreads], rfl, h.arrays.1, fun tid td pc htd hpc => ?_, ?_⟩
  · rw [startThreads, List.getElem?_map, htd] at hpc
    cases hpc
    exact ⟨rfl, le_rfl, fun c hc hlt => absurd (mem_vertices.mp hc).1 (Nat.not_le_of_lt hlt)⟩
  · obtain ⟨td, htd⟩ := List.exists_mem_of_ne_nil _ h.some_thread
    exact ⟨_, List.mem_map_of_mem htd, rfl⟩

theorem Going.step (hgiven : Given G n degArr TD st) (h : Going A G degArr n TD st s)
    (hstep : threadStep A G degArr TD tid s = some s') : Going A G degArr n TD st s' := by
  obtain ⟨pc, hpc, hwork⟩ := working_of_step hstep
  cases h with
  | inl h =>
    obtain ⟨k, h⟩ := h
    obtain ⟨s₁, hrun, _, hnext⟩ :=
      h.step hgiven.graph hgiven.degrees hgiven.parts hgiven.arrays hpc hwork
    obtain rfl : s₁ = s' := Option.some.inj (hrun.symm.trans hstep)
    rcases hnext with h | h | h
    · exact .inl ⟨k, h⟩
    · exact .inl ⟨k + 1, h⟩
    · exact .inr h
  | inr h =>
    rw [h.all pc (List.mem_of_getElem? hpc)] at hwork
    cases hwork

theorem Going.run (hgiven : Given G n degArr TD st) (h : Going A G degArr n TD st s)
    {sched : List Nat} (hrun : runThreads A G degArr TD sched s = some s') :
    Going A G degArr n TD st s' := by
  induction sched generalizing s with
  | nil =>
    cases hrun
    exact h
  | cons tid sched ih =>
    rw [runThreads, List.foldlM_cons] at hrun
    obtain ⟨s₁, hstep, hrest⟩ := Option.bind_eq_some_iff.mp hrun
    exact ih (h.step hgiven hstep) hrest

theorem Going.progress (hgiven : Given G n degArr TD st) (h : Going A G degArr n TD st s) {pc : Pc V}
    (hpc : s.threads[tid]? = some pc) (hwork : pc.isWorking = true) :
    ∃ s', threadStep A G degArr TD tid s = some s' := by
  cases h with
  | inl h =>
    obtain ⟨k, h⟩ := h
    obtain ⟨s', hrun, _⟩ :=
      h.step hgiven.graph hgiven.degrees hgiven.parts hgiven.arrays hpc hwork
    exact ⟨s', hrun⟩
  | inr h =>
    rw [h.all pc (List.mem_of_getElem? hpc)] at hwork
    cases hwork

theorem Going.stopped (h : Going A G degArr n TD st s)
    (hidle : ∀ pc ∈ s.threads, pc.isWorking = false) : Ended A G degArr n TD st s := by
  cases h with
  | inl h =>
    obtain ⟨k, h⟩ := h
    obtain ⟨pc, hmem, hawake⟩ := h.awake
    obtain ⟨tid, hpc⟩ := List.mem_iff_getElem?.mp hmem
    obtain ⟨hlt, _⟩ := List.getElem?_eq_some_iff.mp hpc
    have hwork := h.work tid _ pc (List.getElem?_eq_getElem (h.count ▸ hlt)) hpc
    have hidle := hidle pc hmem
    cases pc with
    | vertex iter i => cases hidle
    | row iter i j lastId tempVal => cases hidle
    | waiting iter => cases hawake
    | ended => exact absurd hwork not_false
  | inr h => exact h

theorem Going.effort_run (hgiven : Given G n degArr TD st) (h : Going A G degArr n TD st s)
    {sched : List Nat} (hrun : runThreads A G degArr TD sched s = some s') :
    sched.length + effort (stepsLeft G TD) s'.threads = effort (stepsLeft G TD) s.threads := by
  induction sched generalizing s with
  | nil =>
    cases hrun
    exact Nat.zero_add _
  | cons tid sched ih =>
    rw [runThreads, List.foldlM_cons] at hrun
    obtain ⟨s₁, hstep, hrest⟩ := Option.bind_eq_some_iff.mp hrun
    have hih := ih (h.step hgiven hstep) hrest
    obtain ⟨pc, hpc, hwork⟩ := working_of_step hstep
    cases h with
    | inl h =>
      obtain ⟨k, h⟩ := h
      obtain ⟨s₂, hrun, heffort, _⟩ :=
        h.step hgiven.graph hgiven.degrees hgiven.parts hgiven.arrays hpc hwork
      obtain rfl : s₂ = s₁ := Option.some.inj (hrun.symm.trans hstep)
      rw [List.length_cons]
      omega
    | inr h =>
      rw [h.all pc (List.mem_of_getElem? hpc)] at hwork
      cases hwork

/-- A cell of the shared arrays that a step touches: of `srcArr` or not, and where. -/
inductive Access
  | read (src : Bool) (cell : Int)
  | write (src : Bool) (cell : Int)

def access (G : Graph) (s : Shared V) (tid : Nat) : Option Access := do
  match ← s.threads[tid]? with
  | .row iter i j lastId _ =>
    if j < lastId then pure (.read (decide (iter % 2 = 1)) (← readAt G.EI j))
    else pure (.write (decide (iter % 2 ≠ 1)) i)
  | _ => none

/-- In iteration `k` all reads go to one of the arrays, and a thread writes its own cells of the
other. -/
theorem Phase.access_cases (h : Phase A G degArr n TD st k s) {a : Access}
    (ha : access G s tid = some a) : (∃ cell, a = .read (decide (k % 2 = 1)) cell) ∨
      ∃ i td, TD[tid]? = some td ∧ i ∈ td.vertices G ∧ a = .write (decide (k % 2 ≠ 1)) (i : Nat) := by
  obtain ⟨pc, hpc, ha⟩ := Option.bind_eq_some_iff.mp ha
  obtain ⟨hlt, _⟩ := List.getElem?_eq_some_iff.mp hpc
  obtain ⟨td, htd⟩ : ∃ td, TD[tid]? = some td :=
    ⟨_, List.getElem?_eq_getElem (h.count ▸ hlt : tid < TD.length)⟩
  have hwork := h.work tid td pc htd hpc
  cases pc with
  | vertex iter i => cases ha
  | row iter i j lastId tempVal =>
    obtain ⟨rfl, hmem, _⟩ := hwork
    simp only at ha
    by_cases hj : j < lastId
    · rw [if_pos hj] at ha
      obtain ⟨cell, _, ha⟩ := Option.bind_eq_some_iff.mp ha
      cases ha
      exact .inl ⟨cell, rfl⟩
    · rw [if_neg hj] at ha
      cases ha
      exact .inr ⟨i, td, htd, hmem, rfl⟩
  | waiting iter => cases ha
  | ended => cases ha

theorem Going.apart (hgiven : Given G n degArr TD st) (h : Going A G degArr n TD st s)
    {tid tid' : Nat} (hne : tid ≠ tid') {src : Bool} {cell : Int}
    (hwrite : access G s tid = some (.write src cell)) :
    access G s tid' ≠ some (.read src cell) ∧ access G s tid' ≠ some (.write src cell) := by
  cases h with
  | inl h =>
    obtain ⟨k, h⟩ := h
    obtain ⟨_, hread⟩ | ⟨i, td, htd, hi, hw⟩ := h.access_cases hwrite
    · cases hread
    · cases hw
      refine ⟨fun hother => ?_, fun hother => ?_⟩
      · obtain ⟨_, hread⟩ | ⟨_, _, _, _, hw⟩ := h.access_cases hother
        · have hside := (Access.read.inj hread).1
          by_cases hk : k % 2 = 1 <;> simp [hk] at hside
        · cases hw
      · obtain ⟨_, hread⟩ | ⟨i', td', htd', hi', hw⟩ := h.access_cases hother
        · cases hread
        · have hcell : i = i' := Int.ofNat_inj.mp (Access.write.inj hw).2
          exact hgiven.parts.apart htd htd' hne hi (hcell ▸ hi')
  | inr h =>
    obtain ⟨pc, hpc, hwrite⟩ := Option.bind_eq_some_iff.mp hwrite
    rw [h.all pc (List.mem_of_getElem? hpc)] at hwrite
    cases hwrite

end Runs

theorem given_start {V : Type} (A : Doubles V) {G : Graph} {n : Nat} {TD : List ThreadData}
    (hG : G.Wellformed n) (hTD : Partitions G n TD) (hne : TD ≠ []) {degArr : Array Int}
    (hdeg : degArr.size = n) : Given G n degArr TD
      (Array.replicate G.numVertex.toNat A.zero, Array.replicate G.numVertex.toNat A.one) :=
  ⟨hG, hdeg, hTD, hne, by simp [hG.numVertex]⟩

theorem stepsLeft_first {td : ThreadData} (htd : TD[tid]? = some td) :
    stepsLeft G TD tid (.vertex 0 td.startVertex : Pc V) = MAX_ITER * stepsOf G td := by
  obtain ⟨m, hm⟩ : ∃ m, MAX_ITER = m + 1 := ⟨9, rfl⟩
  rw [stepsLeft, htd, Option.elim_some, hm]
  simp only [Nat.sub_zero, Nat.add_sub_cancel, Nat.succ_mul]
  rfl

theorem effort_start (A : Doubles V) (G : Graph) (TD : List ThreadData) :
    effort (stepsLeft G TD) (startThreads A G TD).threads =
      MAX_ITER * (TD.map (stepsOf G)).sum := by
  rw [← List.sum_map_mul_left, effort]
  refine congrArg List.sum (List.ext_getElem (by simp [startThreads]) fun i hi hi' => ?_)
  have hlt : i < TD.length := by simpa using hi'
  simp only [startThreads, List.getElem_mapIdx, List.getElem_map]
  exact stepsLeft_first (List.getElem?_eq_getElem hlt)

theorem effort_ended {threads : List (Pc V)} (h : ∀ pc ∈ threads, pc = .ended) :
    effort (stepsLeft G TD) threads = 0 := by
  refine List.sum_eq_zero fun x hx => ?_
  obtain ⟨i, hi, rfl⟩ := List.mem_mapIdx.mp hx
  rw [h _ (List.getElem_mem hi), stepsLeft]
  cases TD[i]? <;> rfl

section Example

/-- The rows of three vertices, and the division of them that two threads get: the first has 0 and
1, which stand in each other's row, the second has 2, which stands in the row of 0 as well. -/
def twoThreads : Graph × List ThreadData :=
  (⟨3, 3, #[0, 2, 3, 3], #[1, 2, 0]⟩, [⟨0, 1⟩, ⟨2, 2⟩])

def exact : Doubles Rat where
  zero := 0
  one := 1
  add x y := x + y
  quot x deg := x / deg
  damp x := 17 / 20 + (1 - 17 / 20) * x

theorem twoThreads_wellformed : twoThreads.1.Wellformed 3 where
  numVertex := rfl
  numEdges := by decide
  size := rfl
  mono i j hij hj := by
    have hall : ∀ j < 4, ∀ i < 4, i ≤ j → twoThreads.1.VI[i]! ≤ twoThreads.1.VI[j]! := by decide
    exact hall j (by omega) i (by omega) hij
  last := rfl
  first := by decide
  edges := rfl
  inside := by decide

theorem twoThreads_partitions : Partitions twoThreads.1 3 twoThreads.2 :=
  ⟨by decide, by decide, by decide⟩

end Example

section Program
variable {V : Type} [Inhabited V] (A : Doubles V) {G : Graph} {n : Nat} {TD : List ThreadData}

/-- No rank is divided by zero. Whatever the order in which the threads take their steps: none of
them faults, and when none of them has a step left, all have ended, and the arrays hold what
`MAX_ITER` iterations one after the other make of them. The sequential program is two iterations
ahead of that, those of its warm-up. -/
theorem threads_agree (hG : G.Wellformed n) (hTD : Partitions G n TD) (hne : TD ≠ []) :
    ∃ degArr temp attr last, findOutDeg G (Array.replicate n 0) = some degArr ∧
      (∀ w ∈ G.EI.toList, 0 < degArr[w.toNat]!) ∧
      iterations A G degArr MAX_ITER (Array.replicate n A.zero, Array.replicate n A.one) =
        some (temp, attr) ∧
      iterations A G degArr 2 (temp, attr) = some last ∧
      prST A G degArr (Array.replicate n A.zero, Array.replicate n A.one) = some last ∧
      ∀ sched s, runThreads A G degArr TD sched (startThreads A G TD) = some s →
        (∀ tid pc, s.threads[tid]? = some pc → pc.isWorking = true →
          ∃ s', threadStep A G degArr TD tid s = some s') ∧
        ((∀ pc ∈ s.threads, pc.isWorking = false) →
          (∀ pc ∈ s.threads, pc = .ended) ∧ s.srcArr = temp ∧ s.dstArr = attr) := by
  obtain ⟨degArr, hdegrees, hdeg, hcount⟩ := findOutDeg_spec hG
  have hgiven := given_start A hG hTD hne hdeg
  have hpos (w : Int) (hw : w ∈ G.EI.toList) : 0 < degArr[w.toNat]! := by
    obtain ⟨h0, hlt⟩ := hG.inside w hw
    rw [hcount w.toNat (by omega), Int.toNat_of_nonneg h0]
    exact_mod_cast List.count_pos_iff.mpr hw
  have hn : G.numVertex.toNat = n := by rw [hG.numVertex, Int.toNat_natCast]
  have hiter := iterations_eq A hG hdeg (Array.replicate n A.zero, Array.replicate n A.one)
    Array.size_replicate Array.size_replicate MAX_ITER
  generalize hlast : after A G degArr n (Array.replicate n A.zero, Array.replicate n A.one)
    MAX_ITER = st at hiter
  have hsizes : st.1.size = n ∧ st.2.size = n := by
    rw [← hlast]
    exact after_size A G degArr Array.size_replicate Array.size_replicate MAX_ITER
  obtain ⟨temp, attr⟩ := st
  have hmore := iterations_eq A hG hdeg (temp, attr) hsizes.1 hsizes.2 2
  refine ⟨degArr, temp, attr, _, hdegrees, hpos, hiter, hmore,
    by rw [prST_eq, hiter, some_bind, hmore], fun sched s hrun => ?_⟩
  have hgoing := hgiven.start.run hgiven hrun
  refine ⟨fun tid pc hpc hwork => hgoing.progress hgiven hpc hwork, fun hidle => ?_⟩
  obtain ⟨_, hall, harrays⟩ := hgoing.stopped hidle
  rw [hn, hlast] at harrays
  obtain ⟨htemp, hattr⟩ := Prod.mk.inj harrays
  exact ⟨hall, htemp, hattr⟩

theorem threads_agree_two :
    assignThreads twoThreads.1 2 = some twoThreads.2 ∧
    ∃ degArr temp attr last, findOutDeg twoThreads.1 (Array.replicate 3 0) = some degArr ∧
      (∀ w ∈ twoThreads.1.EI.toList, 0 < degArr[w.toNat]!) ∧
      iterations exact twoThreads.1 degArr MAX_ITER
        (Array.replicate 3 exact.zero, Array.replicate 3 exact.one) = some (temp, attr) ∧
      iterations exact twoThreads.1 degArr 2 (temp, attr) = some last ∧
      prST exact twoThreads.1 degArr
        (Array.replicate 3 exact.zero, Array.replicate 3 exact.one) = some last ∧
      last ≠ (temp, attr) ∧
      ∀ sched s, runThreads exact twoThreads.1 degArr twoThreads.2 sched
          (startThreads exact twoThreads.1 twoThreads.2) = some s →
        (∀ tid pc, s.threads[tid]? = some pc → pc.isWorking = true →
          ∃ s', threadStep exact twoThreads.1 degArr twoThreads.2 tid s = some s') ∧
        ((∀ pc ∈ s.threads, pc.isWorking = false) →
          (∀ pc ∈ s.threads, pc = .ended) ∧ s.srcArr = temp ∧ s.dstArr = attr) := by
  obtain ⟨degArr, temp, attr, last, hdegrees, hpos, hiter, hmore, hprST, hruns⟩ :=
    threads_agree exact twoThreads_wellformed twoThreads_partitions (by decide)
  refine ⟨by decide, degArr, temp, attr, last, hdegrees, hpos, hiter, hmore, hprST,
    fun hsame => ?_, hruns⟩
  obtain rfl : #[1, 1, 1] = degArr := Option.some.inj hdegrees
  rw [hsame, ← hiter] at hprST
  exact absurd hprST (by decide +kernel)

/-- Every run is as long as what its steps have taken off, and a run that stops has had them all:
ten times the steps of all threads in one iteration. -/
theorem threads_length (hG : G.Wellformed n) (hTD : Partitions G n TD) (hne : TD ≠ [])
    {degArr : Array Int} (hdeg : degArr.size = n) {sched : List Nat} {s : Shared V}
    (hrun : runThreads A G degArr TD sched (startThreads A G TD) = some s) :
    sched.length ≤ MAX_ITER * (TD.map (stepsOf G)).sum ∧
      ((∀ pc ∈ s.threads, pc.isWorking = false) →
        sched.length = MAX_ITER * (TD.map (stepsOf G)).sum) := by
  have hgiven := given_start A hG hTD hne hdeg
  have hlen := hgiven.start.effort_run hgiven hrun
  rw [effort_start] at hlen
  refine ⟨by omega, fun hidle => ?_⟩
  have hended := (hgiven.start.run hgiven hrun).stopped hidle
  rw [effort_ended hended.all] at hlen
  exact hlen

theorem threads_length_two :
    ∃ s, runThreads exact twoThreads.1 #[1, 1, 1] twoThreads.2 [0, 1, 1]
        (startThreads exact twoThreads.1 twoThreads.2) = some s ∧
      [0, 1, 1].length ≤ MAX_ITER * (twoThreads.2.map (stepsOf twoThreads.1)).sum ∧
      ((∀ pc ∈ s.threads, pc.isWorking = false) →
        [0, 1, 1].length = MAX_ITER * (twoThreads.2.map (stepsOf twoThreads.1)).sum) :=
  ⟨_, rfl, threads_length exact twoThreads_wellformed twoThreads_partitions (by decide)
    (show (#[1, 1, 1] : Array Int).size = 3 from rfl) rfl⟩

/-- At no time can a thread write a cell that another one is about to read or to write. -/
theorem threads_apart (hG : G.Wellformed n) (hTD : Partitions G n TD) (hne : TD ≠ [])
    {degArr : Array Int} (hdeg : degArr.size = n) {sched : List Nat} {s : Shared V}
    (hrun : runThreads A G degArr TD sched (startThreads A G TD) = some s) {tid tid' : Nat}
    (hother : tid ≠ tid') {src : Bool} {cell : Int}
    (hwrite : access G s tid = some (.write src cell)) :
    access G s tid' ≠ some (.read src cell) ∧ access G s tid' ≠ some (.write src cell) :=
  have hgiven := given_start A hG hTD hne hdeg
  (hgiven.start.run hgiven hrun).apart hgiven hother hwrite

theorem threads_apart_two :
    ∃ s, runThreads exact twoThreads.1 #[1, 1, 1] twoThreads.2 [0, 0, 0]
        (startThreads exact twoThreads.1 twoThreads.2) = some s ∧
      access twoThreads.1 s 1 ≠ some (.read true 0) ∧
      access twoThreads.1 s 1 ≠ some (.write true 0) :=
  ⟨_, rfl, threads_apart exact twoThreads_wellformed twoThreads_partitions (by decide)
    (show (#[1, 1, 1] : Array Int).size = 3 from rfl)
    (show runThreads exact twoThreads.1 #[1, 1, 1] twoThreads.2 [0, 0, 0]
      (startThreads exact twoThreads.1 twoThreads.2) = some _ from rfl)
    (show 0 ≠ 1 by decide) rfl⟩

end Program

end GraphReorder.PageRank
