import GraphReorder.PageRank

/-! The static workload balancing of the multi-threaded PageRank: which vertices each thread is
given. -/
namespace GraphReorder.PageRank
open Library

/-- The fields of `threadData` that say which vertices are the thread's, both ends included. -/
structure ThreadData where
  startVertex : Nat
  endVertex : Nat
  deriving DecidableEq

/-- `while(G.VI[vcount] < quota) { vcount++; if (vcount == G.numVertex-1) break; }` -/
def scan (G : Graph) (quota : Int) : Nat → Nat → Option Nat :=
  loop fun vcount => do
    if (← G.VI[vcount]?) < quota then
      if (vcount + 1 : Int) = G.numVertex - 1 then return .inr (vcount + 1)
      return .inl (vcount + 1)
    return .inr vcount

/-- Thread `i`. The counter that is kept is `vcount + 1`, since `vcount` starts at -1. The quota
does not overflow, being at most `numEdges`. -/
def assignThread (G : Graph) (numEdgesPerThread : Int) (i : Nat) (st : Nat × List ThreadData) :
    Option (Nat × List ThreadData) := do
  let vcount ← scan G ((i + 1 : Int) * numEdgesPerThread) (G.VI.size + 1) st.1
  some (vcount + 1, st.2 ++ [⟨st.1, vcount⟩])

def assignFirst (G : Graph) (numEdgesPerThread : Int) (numThreads : Nat) :
    Option (Nat × List ThreadData) :=
  forRange 0 numThreads (assignThread G numEdgesPerThread) (0, [])

/-- The loop of `main`; C division. -/
def assignThreads (G : Graph) (NUM_THREADS : Nat) : Option (List ThreadData) := do
  let st ← assignFirst G (G.numEdges.tdiv NUM_THREADS) NUM_THREADS
  some st.2

/-- The vertices that `prIter` goes through: `end` is cut down to `numVertex`, and included. -/
def ThreadData.vertices (G : Graph) (TD : ThreadData) : Finset Nat :=
  Finset.Icc TD.startVertex
    (if (TD.endVertex : Int) > G.numVertex then G.numVertex.toNat else TD.endVertex)

structure Partitions (G : Graph) (n : Nat) (TD : List ThreadData) : Prop where
  inside : ∀ t ∈ TD, ∀ v ∈ t.vertices G, v < n
  disjoint : TD.Pairwise fun t t' => Disjoint (t.vertices G) (t'.vertices G)
  cover : ∀ v < n, ∃ t ∈ TD, v ∈ t.vertices G

structure Graph.Offsets (G : Graph) (n : Nat) : Prop where
  numVertex : G.numVertex = n
  numEdges : 0 ≤ G.numEdges
  size : G.VI.size = n + 1
  mono : ∀ i j, i ≤ j → j ≤ n → G.VI[i]! ≤ G.VI[j]!
  last : G.VI[n]! = G.numEdges

section Scan
variable {G : Graph} {n s e b : Nat} {quota : Int}

/-- Where the scan from `s` stops: at the first vertex whose offset reaches the quota, or at the
last vertex on the way. -/
structure Scanned (G : Graph) (n : Nat) (quota : Int) (s e : Nat) : Prop where
  forward : s ≤ e
  upTo : e ≤ n
  below : ∀ v, s ≤ v → v < e → G.VI[v]! < quota
  stop : quota ≤ G.VI[e]! ∨ (s < e ∧ e + 1 = n)
  inside : s + 1 < n → e < n

theorem scan_spec (h : G.Offsets n) (hs : s ≤ n) (hq : quota ≤ G.numEdges) :
    ∃ e, scan G quota (G.VI.size + 1) s = some e ∧ Scanned G n quota s e := by
  have hsize := h.size
  refine loop_rule (fun v => s ≤ v ∧ v ≤ n ∧ (∀ u, s ≤ u → u < v → G.VI[u]! < quota) ∧
    (s + 1 < n → v + 1 < n)) _ (fun v => G.VI.size - v) ?_
    ⟨le_rfl, hs, fun u hu hlt => absurd hlt (Nat.not_lt.mpr hu), id⟩ (by omega)
  intro v ⟨hsv, hvn, hbelow, hin⟩
  have hv : v < G.VI.size := by omega
  simp only [read_eq hv, some_bind]
  by_cases hlt : G.VI[v]! < quota
  · have hne : v ≠ n := by
      intro he
      rw [he, h.last] at hlt
      omega
    have hnext (u : Nat) (hu : s ≤ u) (hul : u < v + 1) : G.VI[u]! < quota := by
      by_cases he : u = v
      · rw [he]
        exact hlt
      · exact hbelow u hu (by omega)
    by_cases hbreak : (v + 1 : Int) = G.numVertex - 1
    · have hb : v + 1 + 1 = n := by
        rw [h.numVertex] at hbreak
        omega
      refine .inr ⟨v + 1, by simp [hlt, hbreak], ?_⟩
      exact ⟨by omega, by omega, hnext, .inr ⟨by omega, hb⟩, fun _ => by omega⟩
    · have hb : v + 1 + 1 ≠ n := by
        rw [h.numVertex] at hbreak
        omega
      refine .inl ⟨v + 1, by simp [hlt, hbreak], ⟨by omega, by omega, hnext, ?_⟩, by omega⟩
      intro hs2
      have := hin hs2
      omega
  · refine .inr ⟨v, by simp [hlt], hsv, hvn, hbelow, .inl (Int.not_lt.mp hlt), ?_⟩
    intro hs2
    have := hin hs2
    omega

theorem scan_beyond (h : G.Offsets n) (hs : n < s) : scan G quota (G.VI.size + 1) s = none := by
  have hv : ¬ s < G.VI.size := by
    rw [h.size]
    omega
  simp [scan, loop, hv]

theorem Scanned.le_iff (h : G.Offsets n) (hsc : Scanned G n quota s e) (hs : s ≤ b)
    (hb : b + 1 < n) : e ≤ b ↔ quota ≤ G.VI[b]! := by
  constructor
  · intro he
    cases hsc.stop with
    | inl hstop => exact hstop.trans (h.mono e b he (by omega))
    | inr hstop => omega
  · intro hq
    by_contra hlt
    have := hsc.below b hs (by omega)
    omega

theorem Scanned.last_iff (h : G.Offsets n) (hsc : Scanned G n quota s e) (hs : s < n) :
    e + 1 = n ↔ if s + 1 < n then G.VI[n - 2]! < quota else quota ≤ G.VI[n - 1]! := by
  split_ifs with hlt
  · constructor
    · intro he
      exact hsc.below (n - 2) (by omega) (by omega)
    · intro hq
      by_contra hne
      have hin := hsc.inside hlt
      cases hsc.stop with
      | inl hstop =>
        have := h.mono e (n - 2) (by omega) (by omega)
        omega
      | inr hstop => exact hne hstop.2
  · constructor
    · intro he
      obtain rfl : e = n - 1 := by omega
      cases hsc.stop with
      | inl hstop => exact hstop
      | inr hstop => omega
    · intro hq
      by_contra hne
      have hup := hsc.upTo
      have hfrom := hsc.forward
      have := hsc.below (n - 1) (by omega) (by omega)
      omega

end Scan

section Tiles
variable {G : Graph} {n next : Nat} {TD : List ThreadData}

structure Tiles (TD : List ThreadData) (next : Nat) : Prop where
  before : ∀ t ∈ TD, t.endVertex < next
  ordered : TD.Pairwise fun t t' => t.endVertex < t'.startVertex
  cover : ∀ v < next, ∃ t ∈ TD, t.startVertex ≤ v ∧ v ≤ t.endVertex

theorem Tiles.nil : Tiles [] 0 := ⟨by simp, .nil, by simp⟩

theorem Tiles.concat (h : Tiles TD next) {e : Nat} (he : next ≤ e) :
    Tiles (TD ++ [⟨next, e⟩]) (e + 1) where
  before t ht := by
    cases List.mem_append.mp ht with
    | inl ht =>
      have := h.before t ht
      omega
    | inr ht =>
      obtain rfl := List.mem_singleton.mp ht
      exact Nat.lt_succ_self e
  ordered := by
    refine List.pairwise_append.mpr ⟨h.ordered, List.pairwise_singleton _ _, fun t ht t' ht' => ?_⟩
    obtain rfl := List.mem_singleton.mp ht'
    exact h.before t ht
  cover v hv := by
    by_cases hlt : v < next
    · obtain ⟨t, ht, hin⟩ := h.cover v hlt
      exact ⟨t, List.mem_append_left _ ht, hin⟩
    · exact ⟨⟨next, e⟩, by simp, Nat.le_of_not_lt hlt, Nat.le_of_lt_succ hv⟩

theorem Tiles.partitions_iff (h : Tiles TD next) (hG : G.numVertex = n) (hle : next ≤ n + 1) :
    Partitions G n TD ↔ next = n := by
  have hvertices (t : ThreadData) (ht : t ∈ TD) :
      t.vertices G = Finset.Icc t.startVertex t.endVertex := by
    have hlt := h.before t ht
    have hcut : ¬ (t.endVertex : Int) > G.numVertex := by
      rw [hG]
      omega
    rw [ThreadData.vertices, if_neg hcut]
  constructor
  · intro hp
    by_contra hne
    by_cases hlt : next < n
    · obtain ⟨t, ht, hin⟩ := hp.cover next hlt
      rw [hvertices t ht, Finset.mem_Icc] at hin
      have := h.before t ht
      omega
    · obtain ⟨t, ht, hin⟩ := h.cover n (by omega)
      have hin' := hp.inside t ht n (by rw [hvertices t ht, Finset.mem_Icc]; exact hin)
      omega
  · intro he
    subst he
    refine ⟨fun t ht v hv => ?_, h.ordered.imp_of_mem fun {t t'} ht ht' hlt => ?_, fun v hv => ?_⟩
    · rw [hvertices t ht, Finset.mem_Icc] at hv
      have := h.before t ht
      omega
    · rw [hvertices t ht, hvertices t' ht', Finset.disjoint_left]
      intro v hv hv'
      rw [Finset.mem_Icc] at hv hv'
      omega
    · obtain ⟨t, ht, hin⟩ := h.cover v hv
      exact ⟨t, ht, by rw [hvertices t ht, Finset.mem_Icc]; exact hin⟩

end Tiles

section Runs
variable {G : Graph} {n i b NUM_THREADS : Nat} {q : Int} {st : Nat × List ThreadData}

theorem assignThread_some (h : G.Offsets n) (hq : (i + 1 : Int) * q ≤ G.numEdges)
    {st' : Nat × List ThreadData} (hst : assignThread G q i st = some st') :
    st.1 ≤ n ∧ ∃ e, Scanned G n ((i + 1 : Int) * q) st.1 e ∧
      st' = (e + 1, st.2 ++ [⟨st.1, e⟩]) := by
  obtain ⟨e, he, hst⟩ := Option.bind_eq_some_iff.mp hst
  have hs : st.1 ≤ n := by
    by_contra hlt
    rw [scan_beyond h (Nat.lt_of_not_le hlt)] at he
    cases he
  obtain ⟨e', he', hsc⟩ := scan_spec h hs hq
  rw [he] at he'
  cases he'
  cases hst
  exact ⟨hs, e, hsc, rfl⟩

theorem assignThread_spec (h : G.Offsets n) (hq : (i + 1 : Int) * q ≤ G.numEdges) (hs : st.1 ≤ n) :
    ∃ e, assignThread G q i st = some (e + 1, st.2 ++ [⟨st.1, e⟩]) ∧
      Scanned G n ((i + 1 : Int) * q) st.1 e := by
  obtain ⟨e, he, hsc⟩ := scan_spec h hs hq
  exact ⟨e, by rw [assignThread, he, some_bind], hsc⟩

theorem assignFirst_last : assignFirst G q (i + 1) = assignFirst G q i >>= assignThread G q i :=
  forRange_last (Nat.zero_le i) _ _

theorem assignFirst_tiles (h : G.Offsets n) (hq : ∀ k < i, (k + 1 : Int) * q ≤ G.numEdges)
    (hst : assignFirst G q i = some st) : Tiles st.2 st.1 ∧ st.1 ≤ n + 1 := by
  refine forRange_some (fun _ st => Tiles st.2 st.1 ∧ st.1 ≤ n + 1) (Nat.zero_le i) hst
    ⟨.nil, Nat.zero_le _⟩ fun k st st' _ hk hI hst' => ?_
  obtain ⟨_, e, hsc, rfl⟩ := assignThread_some h (hq k hk) hst'
  exact ⟨hI.1.concat hsc.forward, Nat.succ_le_succ hsc.upTo⟩

/-- Each of the first `i` threads reaches its quota so early that the others have a vertex each
before `b`. -/
def RoomFor (G : Graph) (q : Int) (i b : Nat) : Prop :=
  ∀ k < i, i - k ≤ b ∧ (k + 1 : Int) * q ≤ G.VI[b - (i - k)]!

instance : Decidable (RoomFor G q i b) :=
  inferInstanceAs (Decidable (∀ k < i, i - k ≤ b ∧ (k + 1 : Int) * q ≤ G.VI[b - (i - k)]!))

theorem roomFor_succ : RoomFor G q (i + 1) b ↔
    (1 ≤ b ∧ (i + 1 : Int) * q ≤ G.VI[b - 1]!) ∧ RoomFor G q i (b - 1) := by
  have hone : i + 1 - i = 1 := by omega
  have hshift (k : Nat) (hk : k < i) : b - (i + 1 - k) = b - 1 - (i - k) := by omega
  constructor
  · intro h
    have hlast := h i (Nat.lt_succ_self i)
    rw [hone] at hlast
    refine ⟨hlast, fun k hk => ?_⟩
    obtain ⟨hle, hquota⟩ := h k (Nat.lt_succ_of_lt hk)
    rw [hshift k hk] at hquota
    exact ⟨by omega, hquota⟩
  · intro ⟨hlast, h⟩ k hk
    by_cases he : k = i
    · rw [he, hone]
      exact hlast
    · obtain ⟨hle, hquota⟩ := h k (by omega)
      rw [hshift k (by omega)]
      exact ⟨by omega, hquota⟩

theorem startsBy_iff (h : G.Offsets n) (hq : ∀ k < i, (k + 1 : Int) * q ≤ G.numEdges) (hb : b < n) :
    (∃ st, assignFirst G q i = some st ∧ st.1 ≤ b) ↔ RoomFor G q i b := by
  induction i generalizing b with
  | zero =>
    constructor
    · intro _ k hk
      omega
    · intro _
      exact ⟨(0, []), forRange_empty le_rfl _ _, Nat.zero_le b⟩
  | succ i ih =>
    have hq' : ∀ k < i, (k + 1 : Int) * q ≤ G.numEdges := fun k hk => hq k (Nat.lt_succ_of_lt hk)
    rw [roomFor_succ, assignFirst_last]
    constructor
    · intro hst
      obtain ⟨st', hst', hle⟩ := hst
      obtain ⟨st, hst, hst'⟩ := Option.bind_eq_some_iff.mp hst'
      obtain ⟨_, e, hsc, rfl⟩ := assignThread_some h (hq i (Nat.lt_succ_self i)) hst'
      have hfrom := hsc.forward
      simp only at hle
      refine ⟨⟨by omega, (hsc.le_iff h (by omega) (by omega)).mp (by omega)⟩, ?_⟩
      exact (ih hq' (by omega)).mp ⟨st, hst, by omega⟩
    · intro hroom
      obtain ⟨⟨hpos, hquota⟩, hroom⟩ := hroom
      obtain ⟨st, hst, hle⟩ := (ih hq' (by omega)).mpr hroom
      have hs : st.1 ≤ n := by omega
      obtain ⟨e, he, hsc⟩ := assignThread_spec h (hq i (Nat.lt_succ_self i)) hs
      have hstop := (hsc.le_iff h hle (by omega)).mpr hquota
      refine ⟨_, by rw [hst, some_bind, he], ?_⟩
      change e + 1 ≤ b
      omega

theorem start_le_iff (h : G.Offsets n) (hq : ∀ k < i, (k + 1 : Int) * q ≤ G.numEdges) (hb : b < n)
    (hst : assignFirst G q i = some st) : st.1 ≤ b ↔ RoomFor G q i b := by
  rw [← startsBy_iff h hq hb]
  constructor
  · intro hle
    exact ⟨st, hst, hle⟩
  · intro hroom
    obtain ⟨st', hst', hle⟩ := hroom
    rw [hst] at hst'
    cases hst'
    exact hle

theorem start_early_iff (h : G.Offsets n) (hq : ∀ k < i, (k + 1 : Int) * q ≤ G.numEdges)
    (hst : assignFirst G q i = some st) : st.1 + 1 < n ↔ 2 ≤ n ∧ RoomFor G q i (n - 2) := by
  by_cases h2 : 2 ≤ n
  · rw [← start_le_iff h hq (by omega) hst]
    omega
  · omega

/-- With `q = numEdges / NUM_THREADS`: the threads before the last have room before vertex
`n - 1`; if they have it before vertex `n - 2` already, the last thread has to go on from there,
and if not, vertex `n - 1` has to be enough for its quota. -/
structure Balanced (G : Graph) (n NUM_THREADS : Nat) (q : Int) : Prop where
  room : RoomFor G q (NUM_THREADS - 1) (n - 1)
  early : 2 ≤ n → RoomFor G q (NUM_THREADS - 1) (n - 2) → G.VI[n - 2]! < NUM_THREADS * q
  late : ¬ (2 ≤ n ∧ RoomFor G q (NUM_THREADS - 1) (n - 2)) → NUM_THREADS * q ≤ G.VI[n - 1]!

theorem endsAt_iff (h : G.Offsets n) (hn : 1 ≤ n) (hT : 1 ≤ NUM_THREADS)
    (hq : ∀ k < NUM_THREADS, (k + 1 : Int) * q ≤ G.numEdges) :
    (∃ st, assignFirst G q NUM_THREADS = some st ∧ st.1 = n) ↔ Balanced G n NUM_THREADS q := by
  obtain ⟨i, rfl⟩ := Nat.exists_eq_add_of_le' hT
  have hq' : ∀ k < i, (k + 1 : Int) * q ≤ G.numEdges := fun k hk => hq k (Nat.lt_succ_of_lt hk)
  have hi : i + 1 - 1 = i := Nat.add_sub_cancel i 1
  have hcast : ((i + 1 : Nat) : Int) = i + 1 := by omega
  constructor
  · intro hst
    obtain ⟨st', hst', hend⟩ := hst
    rw [assignFirst_last] at hst'
    obtain ⟨st, hst, hst'⟩ := Option.bind_eq_some_iff.mp hst'
    obtain ⟨_, e, hsc, rfl⟩ := assignThread_some h (hq i (Nat.lt_succ_self i)) hst'
    have hfrom := hsc.forward
    have hle : st.1 < n := by
      simp only at hend
      omega
    have hlast := (hsc.last_iff h hle).mp hend
    have hearly := start_early_iff h hq' hst
    rw [← hcast] at hlast
    refine ⟨?_, fun h2 hroom => ?_, fun hroom => ?_⟩
    · rw [hi]
      exact (start_le_iff h hq' (by omega) hst).mp (by omega)
    · rw [hi] at hroom
      rwa [if_pos (hearly.mpr ⟨h2, hroom⟩)] at hlast
    · rw [hi] at hroom
      rwa [if_neg fun hlt => hroom (hearly.mp hlt)] at hlast
  · intro hB
    have hroom := hB.room
    rw [hi] at hroom
    obtain ⟨st, hst, hle⟩ := (startsBy_iff h hq' (by omega)).mpr hroom
    have hlt : st.1 < n := by omega
    obtain ⟨e, he, hsc⟩ := assignThread_spec h (hq i (Nat.lt_succ_self i)) hlt.le
    refine ⟨_, by rw [assignFirst_last, hst, some_bind, he], (hsc.last_iff h hlt).mpr ?_⟩
    have hearly := start_early_iff h hq' hst
    rw [← hcast]
    split_ifs with hs
    · obtain ⟨h2, hr⟩ := hearly.mp hs
      exact hB.early h2 (by rw [hi]; exact hr)
    · refine hB.late fun hr => hs (hearly.mpr ?_)
      rwa [hi] at hr

theorem quota_le (h : 0 ≤ G.numEdges) {k : Nat} (hk : k < NUM_THREADS) :
    (k + 1 : Int) * G.numEdges.tdiv NUM_THREADS ≤ G.numEdges := by
  rw [Int.tdiv_eq_ediv_of_nonneg h]
  have hdiv : 0 ≤ G.numEdges / NUM_THREADS := Int.ediv_nonneg h (by omega)
  calc (k + 1 : Int) * (G.numEdges / NUM_THREADS)
      ≤ NUM_THREADS * (G.numEdges / NUM_THREADS) := Int.mul_le_mul_of_nonneg_right (by omega) hdiv
    _ ≤ G.numEdges := Int.mul_ediv_self_le (by omega)

/-- When the workload balancing partitions the vertices. -/
theorem assignThreads_iff (h : G.Offsets n) (hn : 1 ≤ n) (hT : 1 ≤ NUM_THREADS) :
    (∃ TD, assignThreads G NUM_THREADS = some TD ∧ Partitions G n TD) ↔
      Balanced G n NUM_THREADS (G.numEdges.tdiv NUM_THREADS) := by
  have hq (k : Nat) (hk : k < NUM_THREADS) := quota_le h.numEdges hk
  rw [← endsAt_iff h hn hT hq]
  constructor
  · intro hTD
    obtain ⟨TD, hTD, hp⟩ := hTD
    obtain ⟨st, hst, hTD⟩ := Option.bind_eq_some_iff.mp hTD
    cases hTD
    obtain ⟨htiles, hle⟩ := assignFirst_tiles h hq hst
    exact ⟨st, hst, (htiles.partitions_iff h.numVertex hle).mp hp⟩
  · intro hst
    obtain ⟨st, hst, hend⟩ := hst
    obtain ⟨htiles, hle⟩ := assignFirst_tiles h hq hst
    exact ⟨st.2, by rw [assignThreads, hst, some_bind],
      (htiles.partitions_iff h.numVertex hle).mpr hend⟩

end Runs

/-- The cycle of six vertices on two threads. -/
theorem assignThreads_sixCycle :
    ∃ TD, assignThreads ⟨6, 6, #[0, 1, 2, 3, 4, 5, 6], #[1, 2, 3, 4, 5, 0]⟩ 2 = some TD ∧
      Partitions ⟨6, 6, #[0, 1, 2, 3, 4, 5, 6], #[1, 2, 3, 4, 5, 0]⟩ 6 TD := by
  have hmono : ∀ j ≤ 6, ∀ i ≤ j, (#[0, 1, 2, 3, 4, 5, 6] : Array Int)[i]! ≤
      (#[0, 1, 2, 3, 4, 5, 6] : Array Int)[j]! := by decide
  refine (assignThreads_iff ⟨rfl, by decide, rfl, fun i j hij hj => hmono j hj i hij, rfl⟩
    (by decide) (by decide)).mpr ⟨by decide, by decide, by decide⟩

/-- The single edge from 0 to 2 on one thread: vertex 2 is not visited. -/
theorem assignThreads_trailing :
    Graph.Offsets ⟨3, 1, #[0, 1, 1, 1], #[2]⟩ 3 ∧
    ¬ ∃ TD, assignThreads ⟨3, 1, #[0, 1, 1, 1], #[2]⟩ 1 = some TD ∧
      Partitions ⟨3, 1, #[0, 1, 1, 1], #[2]⟩ 3 TD := by
  have hmono : ∀ j ≤ 3, ∀ i ≤ j, (#[0, 1, 1, 1] : Array Int)[i]! ≤
      (#[0, 1, 1, 1] : Array Int)[j]! := by decide
  refine ⟨⟨rfl, by decide, rfl, fun i j hij hj => hmono j hj i hij, rfl⟩, fun h => ?_⟩
  obtain ⟨TD, hTD, hp⟩ := h
  have hrun : assignThreads ⟨3, 1, #[0, 1, 1, 1], #[2]⟩ 1 = some [⟨0, 1⟩] := by decide
  rw [hrun] at hTD
  cases hTD
  obtain ⟨t, ht, hin⟩ := hp.cover 2 (by decide)
  obtain rfl := List.mem_singleton.mp ht
  exact absurd hin (by decide)

end GraphReorder.PageRank
