import GraphReorder.PageRankIter

/-! The threads of PageRank in every interleaving: no two of them touch one cell at a time, none is
left behind, and what they compute together are the iterations of the sequential program. -/
namespace GraphReorder.PageRank
open Library

section Sides
variable {V : Type} {s : Shared V} {k : Nat}

theorem source_setTarget (arr : Array V) : (s.setTarget k arr).source k = s.source k := by
  rw [Shared.setTarget, Shared.source, Shared.source]
  split_ifs <;> rfl

theorem target_setTarget (arr : Array V) : (s.setTarget k arr).target k = arr := by
  rw [Shared.setTarget, Shared.target]
  split_ifs <;> rfl

end Sides

section Steps
variable {V : Type} {G : Graph} {TD : List ThreadData}

def stepsFrom (G : Graph) (td : ThreadData) (i : Nat) : Nat :=
  ((List.range' i (td.last G + 1 - i)).map fun i => rowLength G i + 2).sum

def stepsOf (G : Graph) (td : ThreadData) : Nat := stepsFrom G td td.startVertex + 1

def stepsLeft (G : Graph) (TD : List ThreadData) (tid : Nat) (pc : Pc V) : Nat :=
  TD[tid]?.elim 0 fun td => match pc with
    | .vertex iter i => (MAX_ITER - iter - 1) * stepsOf G td + stepsFrom G td i + 1
    | .row iter i j lastId _ => (MAX_ITER - iter - 1) * stepsOf G td + (lastId - j).toNat + 1 +
      stepsFrom G td (i + 1) + 1
    | .waiting iter => (MAX_ITER - iter) * stepsOf G td
    | .ended => 0

theorem stepsFrom_next {td : ThreadData} {i : Nat} (hi : i ≤ td.last G) :
    stepsFrom G td i = rowLength G i + 2 + stepsFrom G td (i + 1) := by
  have hlen : td.last G + 1 - i = (td.last G + 1 - (i + 1)) + 1 := by omega
  rw [stepsFrom, hlen, List.range'_succ, List.map_cons, List.sum_cons, stepsFrom]

theorem stepsFrom_end {td : ThreadData} {i : Nat} (hi : ¬ i ≤ td.last G) : stepsFrom G td i = 0 := by
  have hlen : td.last G + 1 - i = 0 := by omega
  rw [stepsFrom, hlen]
  rfl

theorem stepsLeft_resume (G : Graph) (TD : List ThreadData) (tid : Nat) (pc : Pc V) :
    stepsLeft G TD tid (resume TD tid pc) = stepsLeft G TD tid pc := by
  cases pc with
  | waiting iter =>
    rw [resume]
    by_cases hiter : iter < MAX_ITER
    · rw [if_pos hiter, stepsLeft, stepsLeft]
      cases TD[tid]? with
      | none => rfl
      | some td =>
        obtain ⟨m, hm⟩ : ∃ m, MAX_ITER - iter = m + 1 := ⟨MAX_ITER - iter - 1, by omega⟩
        simp only [Option.elim_some, hm, Nat.add_sub_cancel, Nat.succ_mul]
        rw [stepsOf]
        omega
    · rw [if_neg hiter, stepsLeft, stepsLeft]
      cases TD[tid]? with
      | none => rfl
      | some td =>
        have hm : MAX_ITER - iter = 0 := by omega
        simp only [Option.elim_some, hm, Nat.zero_mul]
  | vertex iter i => rfl
  | row iter i j lastId tempVal => rfl
  | ended => rfl

end Steps

section Threads
variable {V : Type} [Inhabited V] {A : Doubles V} {G : Graph} {n : Nat} {degArr : Array Int}
variable {TD : List ThreadData} {st : Array V × Array V} {s : Shared V} {k tid : Nat}

/-- What a thread has done of iteration `k`, which reads `from` and writes `made`. -/
def Working (A : Doubles V) (G : Graph) (degArr : Array Int) (k : Nat) (arr made : Array V)
    (td : ThreadData) : Pc V → Prop
  | .vertex iter i => iter = k ∧ td.startVertex ≤ i ∧
    ∀ c ∈ td.vertices G, c < i → made[c]! = rank A G degArr arr c
  | .row iter i j lastId tempVal => iter = k ∧ i ∈ td.vertices G ∧ lastId = G.VI[i + 1]! ∧
    G.VI[i]! ≤ j ∧ j ≤ lastId ∧ rowPart A G degArr arr i (j - G.VI[i]!).toNat = some tempVal ∧
    ∀ c ∈ td.vertices G, c < i → made[c]! = rank A G degArr arr c
  | .waiting iter => iter = k + 1 ∧ ∀ c ∈ td.vertices G, made[c]! = rank A G degArr arr c
  | .ended => False

structure Phase (A : Doubles V) (G : Graph) (degArr : Array Int) (n : Nat) (TD : List ThreadData)
    (st : Array V × Array V) (k : Nat) (s : Shared V) : Prop where
  early : k < MAX_ITER
  count : s.threads.length = TD.length
  source : s.source k = if k % 2 = 1 then (after A G degArr n st k).1 else (after A G degArr n st k).2
  target : (s.target k).size = n
  work : ∀ (tid : Nat) (td : ThreadData) (pc : Pc V), TD[tid]? = some td → s.threads[tid]? = some pc →
    Working A G degArr k (s.source k) (s.target k) td pc
  awake : ∃ pc ∈ s.threads, pc.isWaiting = false

structure Ended (A : Doubles V) (G : Graph) (degArr : Array Int) (n : Nat)
    (TD : List ThreadData) (st : Array V × Array V) (s : Shared V) : Prop where
  count : s.threads.length = TD.length
  all : ∀ pc ∈ s.threads, pc = .ended
  arrays : (s.srcArr, s.dstArr) = after A G degArr n st MAX_ITER

theorem Partitions.lt (hTD : Partitions G n TD) {td : ThreadData} (htd : TD[tid]? = some td) {c : Nat}
    (hc : c ∈ td.vertices G) : c < n := hTD.inside td (List.mem_of_getElem? htd) c hc

theorem Partitions.apart (hTD : Partitions G n TD) {tid tid' : Nat} {td td' : ThreadData}
    (htd : TD[tid]? = some td) (htd' : TD[tid']? = some td') (hne : tid ≠ tid') {c : Nat}
    (hc : c ∈ td.vertices G) : c ∉ td'.vertices G := by
  obtain ⟨h, rfl⟩ := List.getElem?_eq_some_iff.mp htd
  obtain ⟨h', rfl⟩ := List.getElem?_eq_some_iff.mp htd'
  have hd := List.pairwise_iff_getElem.mp hTD.disjoint
  rcases Nat.lt_or_gt_of_ne hne with hlt | hgt
  · exact Finset.disjoint_left.mp (hd tid tid' h h' hlt) hc
  · exact Finset.disjoint_right.mp (hd tid' tid h' h hgt) hc

theorem mem_vertices {td : ThreadData} {c : Nat} :
    c ∈ td.vertices G ↔ td.startVertex ≤ c ∧ c ≤ td.last G := Finset.mem_Icc

theorem Working.frame {arr made : Array V} {td : ThreadData} {pc : Pc V}
    (h : Working A G degArr k arr made td pc) {i : Nat} (hi : i ∉ td.vertices G) (x : V) :
    Working A G degArr k arr (made.setIfInBounds i x) td pc := by
  have hkeep (c : Nat) (hc : c ∈ td.vertices G) : (made.setIfInBounds i x)[c]! = made[c]! :=
    put_get_ne (fun he : c = i => hi (he ▸ hc)) x
  cases pc with
  | vertex iter j => exact ⟨h.1, h.2.1, fun c hc hlt => (hkeep c hc).trans (h.2.2 c hc hlt)⟩
  | row iter j j' lastId tempVal =>
    obtain ⟨h₁, h₂, h₃, h₄, h₅, h₆, h₇⟩ := h
    exact ⟨h₁, h₂, h₃, h₄, h₅, h₆, fun c hc hlt => (hkeep c hc).trans (h₇ c hc hlt)⟩
  | waiting iter => exact ⟨h.1, fun c hc => (hkeep c hc).trans (h.2 c hc)⟩
  | ended => exact h

theorem Phase.move (h : Phase A G degArr n TD st k s) {td : ThreadData} (pc : Pc V)
    (htd : TD[tid]? = some td) (hawake : ∃ q ∈ s.threads.set tid pc, q.isWaiting = false)
    (hwork : Working A G degArr k (s.source k) (s.target k) td pc) :
    Phase A G degArr n TD st k { s with threads := s.threads.set tid pc } where
  early := h.early
  count := by simpa using h.count
  source := h.source
  target := h.target
  work tid' td' pc' htd' hpc' := by
    rw [List.getElem?_set] at hpc'
    split_ifs at hpc' with he
    · subst he
      obtain rfl : td' = td := Option.some.inj (htd'.symm.trans htd)
      cases hpc'
      exact hwork
    · exact h.work tid' td' pc' htd' hpc'
  awake := hawake

theorem Phase.write (hTD : Partitions G n TD) (h : Phase A G degArr n TD st k s) {td : ThreadData}
    {i : Nat} (htd : TD[tid]? = some td) (hi : i ∈ td.vertices G) (ht : tid < s.threads.length)
    (hdone : ∀ c ∈ td.vertices G, c < i → (s.target k)[c]! = rank A G degArr (s.source k) c) :
    Phase A G degArr n TD st k { s.setTarget k ((s.target k).setIfInBounds i
      (rank A G degArr (s.source k) i)) with threads := s.threads.set tid (.vertex k (i + 1)) } := by
  have hlt : i < (s.target k).size := h.target.symm ▸ hTD.lt htd hi
  generalize hx : rank A G degArr (s.source k) i = x
  have hsource : ({ s.setTarget k ((s.target k).setIfInBounds i x) with
      threads := s.threads.set tid (.vertex k (i + 1)) } : Shared V).source k = s.source k :=
    source_setTarget _
  have htarget : ({ s.setTarget k ((s.target k).setIfInBounds i x) with
      threads := s.threads.set tid (.vertex k (i + 1)) } : Shared V).target k =
      (s.target k).setIfInBounds i x := target_setTarget _
  refine ⟨h.early, by simpa using h.count, hsource.trans h.source, by simpa [htarget] using h.target,
    fun tid' td' pc' htd' hpc' => ?_, ⟨_, List.mem_set ht _, rfl⟩⟩
  rw [hsource, htarget]
  change (s.threads.set tid (.vertex k (i + 1)))[tid']? = some pc' at hpc'
  rw [List.getElem?_set] at hpc'
  split_ifs at hpc' with he
  · subst he
    obtain rfl : td' = td := Option.some.inj (htd'.symm.trans htd)
    cases hpc'
    refine ⟨rfl, (mem_vertices.mp hi).1.trans (Nat.le_succ i), fun c hc hci => ?_⟩
    rw [put_get hlt]
    split_ifs with hce
    · rw [hce, hx]
    · exact hdone c hc (by omega)
  · exact (h.work tid' td' pc' htd' hpc').frame (hTD.apart htd htd' he hi) x

theorem Phase.complete (hTD : Partitions G n TD) (h : Phase A G degArr n TD st k s)
    (hdone : ∀ td ∈ TD, ∀ c ∈ td.vertices G, (s.target k)[c]! = rank A G degArr (s.source k) c) :
    (s.srcArr, s.dstArr) = after A G degArr n st (k + 1) := by
  have hmade : s.target k = ranks A G degArr n (s.source k) := eq_ranks h.target fun c hc => by
    obtain ⟨td, htd, hmem⟩ := hTD.cover c hc
    exact hdone td htd c hmem
  have hsource := h.source
  rw [after, next]
  rw [Shared.target, Shared.source] at hmade
  rw [Shared.source] at hsource
  by_cases hk : k % 2 = 1
  · rw [if_pos hk] at hsource
    rw [if_pos hk, if_pos hk] at hmade
    rw [if_pos hk] at hsource
    rw [if_pos hk, hmade, hsource]
  · rw [if_neg hk] at hsource
    rw [if_neg hk, if_neg hk] at hmade
    rw [if_neg hk] at hsource
    rw [if_neg hk, hmade, hsource]

theorem Phase.thread (h : Phase A G degArr n TD st k s) {td : ThreadData} (htd : TD[tid]? = some td) :
    ∃ pc, s.threads[tid]? = some pc ∧ Working A G degArr k (s.source k) (s.target k) td pc := by
  obtain ⟨hlt, _⟩ := List.getElem?_eq_some_iff.mp htd
  have hpc := List.getElem?_eq_getElem (h.count.symm ▸ hlt : tid < s.threads.length)
  exact ⟨_, hpc, h.work tid td _ htd hpc⟩

theorem Phase.arrive (hTD : Partitions G n TD) (h : Phase A G degArr n TD st k s)
    (hst : st.1.size = n ∧ st.2.size = n) {td : ThreadData} (htd : TD[tid]? = some td)
    (hdone : ∀ c ∈ td.vertices G, (s.target k)[c]! = rank A G degArr (s.source k) c) :
    Phase A G degArr n TD st k { s with
      threads := arrive Pc.isWaiting (resume TD) tid (.waiting (k + 1)) s.threads } ∨
    Phase A G degArr n TD st (k + 1) { s with
      threads := arrive Pc.isWaiting (resume TD) tid (.waiting (k + 1)) s.threads } ∨
    Ended A G degArr n TD st { s with
      threads := arrive Pc.isWaiting (resume TD) tid (.waiting (k + 1)) s.threads } := by
  have hwait : Working A G degArr k (s.source k) (s.target k) td (.waiting (k + 1)) := ⟨rfl, hdone⟩
  obtain ⟨hall, harrive⟩ | ⟨hawake, harrive⟩ := arrive_cases Pc.isWaiting (resume TD)
    tid (.waiting (k + 1)) s.threads
  · right
    -- all of them wait for the next iteration, with their cells written
    have hparked (t : Nat) (td' : ThreadData) (htd' : TD[t]? = some td') :
        (s.threads.set tid (.waiting (k + 1)))[t]? = some (.waiting (k + 1)) ∧
          ∀ c ∈ td'.vertices G, (s.target k)[c]! = rank A G degArr (s.source k) c := by
      obtain ⟨pc, hpc, hwork⟩ := h.thread htd'
      obtain ⟨hlt, _⟩ := List.getElem?_eq_some_iff.mp hpc
      by_cases he : tid = t
      · subst he
        obtain rfl : td' = td := Option.some.inj (htd'.symm.trans htd)
        exact ⟨by rw [List.getElem?_set, if_pos rfl, if_pos hlt], hdone⟩
      · have hset : (s.threads.set tid (.waiting (k + 1)))[t]? = some pc := by
          rw [List.getElem?_set, if_neg he, hpc]
        have hw := hall pc (List.mem_of_getElem? hset)
        cases pc with
        | waiting iter =>
          obtain ⟨rfl, hcells⟩ := hwork
          exact ⟨hset, hcells⟩
        | vertex iter i => cases hw
        | row iter i j lastId tempVal => cases hw
        | ended => cases hw
    have harrays : (s.srcArr, s.dstArr) = after A G degArr n st (k + 1) :=
      h.complete hTD fun td' htd' => by
        obtain ⟨t, htd'⟩ := List.mem_iff_getElem?.mp htd'
        exact (hparked t td' htd').2
    have hresumed (t : Nat) (td' : ThreadData) (htd' : TD[t]? = some td') :
        ((s.threads.set tid (.waiting (k + 1))).mapIdx (resume TD))[t]? =
          some (if k + 1 < MAX_ITER then .vertex (k + 1) td'.startVertex else .ended) := by
      rw [List.getElem?_mapIdx, (hparked t td' htd').1]
      simp only [Option.map_some, resume, htd', Option.elim_some]
    have hcount : ((s.threads.set tid (.waiting (k + 1))).mapIdx (resume TD)).length = TD.length := by
      simpa using h.count
    rw [harrive]
    by_cases hlast : k + 1 < MAX_ITER
    · left
      refine ⟨hlast, hcount, ?_, ?_, fun t td' pc htd' hpc => ?_, ?_⟩
      · rw [← harrays]
        rfl
      · have hsizes := after_size A G degArr hst.1 hst.2 (k + 1)
        rw [← harrays] at hsizes
        rw [Shared.target]
        split_ifs
        · exact hsizes.2
        · exact hsizes.1
      · obtain rfl := Option.some.inj (hpc.symm.trans (hresumed t td' htd'))
        rw [if_pos hlast]
        exact ⟨rfl, le_rfl, fun c hc hlt => absurd (mem_vertices.mp hc).1 (Nat.not_le_of_lt hlt)⟩
      · have hr := hresumed tid td htd
        rw [if_pos hlast] at hr
        exact ⟨_, List.mem_of_getElem? hr, rfl⟩
    · right
      refine ⟨hcount, fun pc hpc => ?_, ?_⟩
      · obtain ⟨t, hpc⟩ := List.mem_iff_getElem?.mp hpc
        obtain ⟨hlt, _⟩ := List.getElem?_eq_some_iff.mp hpc
        have htd' := List.getElem?_eq_getElem (hcount ▸ hlt : t < TD.length)
        have hr := hresumed t _ htd'
        rw [if_neg hlast] at hr
        exact Option.some.inj (hpc.symm.trans hr)
      · have hk : k + 1 = MAX_ITER := by
          have := h.early
          omega
        rw [← hk]
        exact harrays
  · left
    rw [harrive]
    exact h.move _ htd hawake hwait

theorem Phase.source_size (h : Phase A G degArr n TD st k s)
    (hst : st.1.size = n ∧ st.2.size = n) : (s.source k).size = n := by
  obtain ⟨h₁, h₂⟩ := after_size A G degArr hst.1 hst.2 k
  rw [h.source]
  split_ifs
  · exact h₁
  · exact h₂

/-- A thread that does not wait can take its next step. It leaves one step less to take, and all are
at work on the same iteration again, or on the next one, or have ended. -/
theorem Phase.step (hG : G.Wellformed n) (hdeg : degArr.size = n) (hTD : Partitions G n TD)
    (hst : st.1.size = n ∧ st.2.size = n) (h : Phase A G degArr n TD st k s)
    {pc : Pc V} (hpc : s.threads[tid]? = some pc) (hwork : pc.isWorking = true) :
    ∃ s', threadStep A G degArr TD tid s = some s' ∧
      effort (stepsLeft G TD) s'.threads + 1 = effort (stepsLeft G TD) s.threads ∧
      (Phase A G degArr n TD st k s' ∨ Phase A G degArr n TD st (k + 1) s' ∨
        Ended A G degArr n TD st s') := by
  obtain ⟨ht, _⟩ := List.getElem?_eq_some_iff.mp hpc
  obtain ⟨td, htd⟩ : ∃ td, TD[tid]? = some td :=
    ⟨_, List.getElem?_eq_getElem (h.count ▸ ht : tid < TD.length)⟩
  have hw := h.work tid td pc htd hpc
  have hsize := h.source_size hst
  have hearly := h.early
  cases pc with
  | vertex iter i =>
    obtain ⟨rfl, hstart, hdone⟩ := hw
    have hleft : stepsLeft G TD tid (.vertex iter i : Pc V) =
        (MAX_ITER - iter - 1) * stepsOf G td + stepsFrom G td i + 1 := by
      rw [stepsLeft, htd]
      rfl
    by_cases hi : i ≤ td.last G
    · have hmem : i ∈ td.vertices G := mem_vertices.mpr ⟨hstart, hi⟩
      have hin := hTD.lt htd hmem
      obtain ⟨hlo, _, _⟩ := hG.offset hin.le
      obtain ⟨hhi, _, _⟩ := hG.offset (show i + 1 ≤ n from hin)
      have hinner : ¬ (i : Int) = G.numVertex := by
        rw [hG.numVertex]
        omega
      have hcost := effort_set (stepsLeft G TD) hpc
        (.row iter i G.VI[i]! G.VI[i + 1]! A.zero)
      have hrow : stepsLeft G TD tid (.row iter i G.VI[i]! G.VI[i + 1]! A.zero) =
          (MAX_ITER - iter - 1) * stepsOf G td + rowLength G i + 1 + stepsFrom G td (i + 1) + 1 := by
        rw [stepsLeft, htd]
        rfl
      rw [hleft, hrow, stepsFrom_next hi] at hcost
      refine ⟨_, ?_, by simp only; omega, .inl (h.move (.row iter i G.VI[i]! G.VI[i + 1]! A.zero) htd
        ⟨_, List.mem_set ht _, rfl⟩
        ⟨rfl, hmem, rfl, le_rfl, hG.mono i (i + 1) (Nat.le_succ i) hin, ?_, hdone⟩)⟩
      · simp only [threadStep, htd, hpc, some_bind]
        rw [if_pos hi, hlo, some_bind, if_neg hinner, hhi]
        rfl
      · rw [Int.sub_self]
        exact forRange_empty le_rfl _ _
    · have hcost := effort_arrive Pc.isWaiting (stepsLeft_resume G TD) hpc
        (.waiting (iter + 1))
      have hwait : stepsLeft G TD tid (.waiting (iter + 1) : Pc V) =
          (MAX_ITER - iter - 1) * stepsOf G td := by
        rw [stepsLeft, htd]
        rfl
      rw [hleft, hwait, stepsFrom_end hi] at hcost
      refine ⟨_, ?_, by simp only; omega, h.arrive hTD hst htd fun c hc => hdone c hc ?_⟩
      · simp only [threadStep, htd, hpc, some_bind]
        rw [if_neg hi]
        rfl
      · have := (mem_vertices.mp hc).2
        omega
  | row iter i j lastId tempVal =>
    obtain ⟨rfl, hmem, hlast, hlo, hle, hpart, hdone⟩ := hw
    have hin := hTD.lt htd hmem
    obtain ⟨_, h0, _⟩ := hG.offset hin.le
    obtain ⟨_, _, htop⟩ := hG.offset (show i + 1 ≤ n from hin)
    have hleft (j : Int) (x : V) : stepsLeft G TD tid (.row iter i j lastId x) =
        (MAX_ITER - iter - 1) * stepsOf G td + (lastId - j).toNat + 1 + stepsFrom G td (i + 1) +
          1 := by
      rw [stepsLeft, htd]
      rfl
    by_cases hj : j < lastId
    · obtain ⟨x, hx⟩ := addRank_total (A := A) hG hdeg hsize (h0.trans hlo)
        (lt_of_lt_of_le hj (hlast ▸ htop)) tempVal
      have hcost := effort_set (stepsLeft G TD) hpc (.row iter i (j + 1) lastId x)
      rw [hleft, hleft] at hcost
      refine ⟨_, ?_, by simp only; omega, .inl (h.move (.row iter i (j + 1) lastId x) htd
        ⟨_, List.mem_set ht _, rfl⟩ ⟨rfl, hmem, hlast, by omega, by omega, ?_, hdone⟩)⟩
      · simp only [threadStep, htd, hpc, some_bind]
        rw [if_pos hj, hx]
        rfl
      · have hnext : (j + 1 - G.VI[i]!).toNat = (j - G.VI[i]!).toNat + 1 := by omega
        have hat : G.VI[i]! + ((j - G.VI[i]!).toNat : Int) = j := by omega
        rw [hnext, rowPart_succ, hpart, some_bind, hat, hx]
    · have hend : j = G.VI[i + 1]! := by omega
      have hrank : A.damp tempVal = rank A G degArr (s.source iter) i := by
        rw [rank, rowLength, ← hend, hpart]
        rfl
      have hcost := effort_set (stepsLeft G TD) hpc (.vertex iter (i + 1))
      have hvertex : stepsLeft G TD tid (.vertex iter (i + 1) : Pc V) =
          (MAX_ITER - iter - 1) * stepsOf G td + stepsFrom G td (i + 1) + 1 := by
        rw [stepsLeft, htd]
        rfl
      rw [hleft, hvertex] at hcost
      refine ⟨_, ?_, by simp only; omega, .inl (h.write hTD htd hmem ht hdone)⟩
      simp only [threadStep, htd, hpc, some_bind]
      rw [if_neg hj, store_eq (h.target.symm ▸ hin), hrank]
      rfl
  | waiting iter => cases hwork
  | ended => cases hwork

end Threads

end GraphReorder.PageRank
