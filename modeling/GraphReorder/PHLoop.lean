import GraphReorder.PH

/-! What the states of pH's placement loop show, over a whole run. -/
namespace GraphReorder.PH
open Library
variable {G1 : Graph} {CACHE_SIZE : Nat} {S : Setting} {s : Placement}

def triangle : Graph where
  numVertex := 3
  numEdges := 3
  VI := #[0, 2, 3, 3]
  EI := #[1, 2, 2]

theorem triangle_input : Input triangle where
  csr := by decide
  size := by decide
  last := by decide

/-- Where the loop shows its order, the first position that is not placed yet: `minPtr` at the
head and after `moveRight`, `minPtr+1` after `moveLeft`. -/
def frontier : Obs → Option Nat
  | .head s | .right s => some s.minPtr
  | .left s => some (s.minPtr + 1)
  | _ => none

theorem ordered_of_good {e : Obs} (h : S.Good e) {u : Nat} (hu : frontier e = some u) :
    Ordered S u e.state := by
  cases e with
  | head t =>
    cases hu
    exact Head.moment h |>.ordered
  | right t =>
    cases hu
    exact h
  | left t =>
    cases hu
    exact h
  | _ => cases hu

structure BucketOrder (n maxCost u : Nat) (s : Placement) : Prop where
  inverse : Inverse n (s.nodeMap[·]!) (s.nodeId[·]!)
  placed : ∀ p < n, s.isPlaced[s.nodeId[p]!]! = true ↔ p < u
  buckets : ∀ c ≤ maxCost, ∀ p, u ≤ p → p < n → (c ≤ s.cost[p]! ↔ max s.CI[c]! u ≤ p)

theorem BucketOrder.of_ordered {u : Nat} (h : Ordered S u s) :
    BucketOrder S.G1.numVertex S.maxCost u s where
  inverse := h.inverse
  placed p hp := by
    rw [h.placed p hp]
    exact decide_eq_true_iff
  buckets := h.buckets.exact

/-- Throughout the loop the two arrays are inverse, the placed nodes are the first ones and stay
where they are, and `CI`, read no lower than the frontier, delimits the costs. -/
theorem bucket_order (hG : Input G1) (hs : setup CACHE_SIZE G1 = some (S, s)) :
    ∃ s' tr, S.placeAll s = some ((), s', tr) ∧
      (∀ e ∈ tr, ∀ u, frontier e = some u →
        BucketOrder G1.numVertex S.maxCost u e.state) ∧
      tr.Pairwise fun e e' => ∀ u u', frontier e = some u → frontier e' = some u' →
        ∀ p < G1.numVertex, p < u → p < u' ∧ e'.state.nodeId[p]! = e.state.nodeId[p]! := by
  have hset := setup_some hG hs
  obtain ⟨s', tr, hrun, hpass, _⟩ := hset.installed.run
  have hord (e : Obs) (he : e ∈ tr) (u : Nat) (hu : frontier e = some u) : Ordered S u e.state :=
    ordered_of_good (hpass.good e he) hu
  refine ⟨s', tr, hrun, fun e he u hu => ?_, ?_⟩
  · rw [← hset.installed.graph]
    exact BucketOrder.of_ordered (hord e he u hu)
  · refine hpass.sorted.imp_of_mem fun {e e'} he he' hle u u' hu hu' p hp hpu => ?_
    rw [← hset.installed.graph] at hp
    have ho := hord e he u hu
    have ho' := hord e' he' u' hu'
    have hsame := ho.nodeId_eq ho' hle hpu hp
    refine ⟨?_, hsame⟩
    have hpl := ho.placed p hp
    rw [decide_eq_true hpu] at hpl
    have hpl' := (Placement.le_iff.mp hle _ hpl).1
    change e'.state.isPlaced[e.state.nodeId[p]!]! = true at hpl'
    rw [← hsame, ho'.placed p hp] at hpl'
    exact of_decide_eq_true hpl'

theorem bucket_order_triangle : ∃ S s s' tr, setup 2 triangle = some (S, s) ∧
    S.placeAll s = some ((), s', tr) ∧
    (∀ e ∈ tr, ∀ u, frontier e = some u → BucketOrder 3 S.maxCost u e.state) ∧
    ∃ t, Obs.head t ∈ tr ∧ t.minPtr = 0 := by
  obtain ⟨S, s, hs⟩ : ∃ S s, setup 2 triangle = some (S, s) :=
    setup_total triangle_input (by decide)
  obtain ⟨s', tr, hrun, hord, _⟩ := bucket_order triangle_input hs
  have hinst := (setup_some triangle_input hs).installed
  exact ⟨S, s, s', tr, hs, hrun, hord, (hinst.seen hrun).1 0 (Nat.zero_le _)⟩

/-- The edges of `v` to parents of low degree that are present in the cache model. -/
def presentLow (S : Setting) (degThresh : Nat) (s : Placement) (v : Nat) : Nat :=
  (S.G1.row v).countP fun p =>
    decide (S.revDeg[p]! ≤ degThresh) && decide (0 < s.cachePresence[p]!)

theorem IsSetup.resident_eq (h : IsSetup CACHE_SIZE G1 S s) (hG : Input G1) {t : Placement}
    (ht : Head S t) {v : Nat} (hv : v < G1.numVertex) :
    resident (S.window t) (S.G1.row v) = presentLow S (Nat.sqrt G1.numVertex) t v := by
  refine List.countP_congr fun p hp => ?_
  have hp' : p < S.G2.numVertex := by
    rw [h.installed.graph] at hp
    rw [h.installed.reversed.numVertex]
    exact hG.csr.row_lt hv hp
  rw [h.installed.reversed.numVertex] at hp'
  have hpres := ht.moment.present.presence p (by rw [h.installed.reversed.numVertex]; exact hp')
  have hcounts := h.counts_eq hp'
  rw [hpres]
  simp only [decide_eq_true_eq, Bool.and_eq_true, List.count_pos_iff]
  constructor
  · intro hmem
    have hc := (ht.moment.present.counted p hmem).2
    rw [hcounts] at hc
    exact ⟨of_decide_eq_true hc, hmem⟩
  · intro hmem
    exact hmem.2

/-- Costs, pending updates and present parents of an unplaced node add up to `maxCost`; so no
cost expression wraps and no move leaves the range of `CI`. -/
theorem lazy_costs (hG : Input G1) (hs : setup CACHE_SIZE G1 = some (S, s)) :
    ∃ s' tr, S.placeAll s = some ((), s', tr) ∧
      (∀ t, Obs.head t ∈ tr → ∀ v < G1.numVertex, t.isPlaced[v]! = false →
        t.cost[t.nodeMap[v]!]! + t.updates[v]! + presentLow S (Nat.sqrt G1.numVertex) t v =
          S.maxCost ∧
        S.maxCost - t.cost[t.nodeMap[v]!]! ≤
          (G1.row v).countP (lowParent S.revDeg (Nat.sqrt G1.numVertex))) ∧
      (∀ o t, Obs.nodeCost o t ∈ tr → t.cost[t.minPtr]! ≤ S.maxCost ∧
        S.maxCost - t.cost[t.minPtr]! ≤ S.deg[o]!) ∧
      (∀ v t, Obs.leftCall v t ∈ tr → t.cost[t.nodeMap[v]!]! ≠ 0 ∧
        t.cost[t.nodeMap[v]!]! - 1 < t.CI.size ∧ t.cost[t.nodeMap[v]!]! < t.CI.size) ∧
      ∀ v t, Obs.rightCall v t ∈ tr → t.cost[t.nodeMap[v]!]! ≠ S.maxCost ∧
        t.cost[t.nodeMap[v]!]! + 1 < t.CI.size := by
  have hset := setup_some hG hs
  obtain ⟨s', tr, hrun, hpass, _⟩ := hset.installed.run
  refine ⟨s', tr, hrun, fun t ht v hv hn => ?_, fun o t ht => ?_, fun v t ht => ?_, fun v t ht => ?_⟩
  · have hhead : Head S t := hpass.good _ ht
    have hv' : v < S.G1.numVertex := by rw [hset.installed.graph]; exact hv
    have hb := hhead.moment.balanced.balance v hv' hn
    have hlow := (hhead.moment.balanced.updates_le hv' hn).2.1
    rw [hset.resident_eq hG hhead hv, List.count_nil] at hb
    rw [low_eq hG hset.installed.graph hset.thresh hset.revDeg.1 hv] at hlow
    exact ⟨hb, hlow⟩
  · obtain ⟨hle, d, hd, hd'⟩ : t.cost[t.minPtr]! ≤ S.maxCost ∧
      ∃ d, S.deg[o]? = some d ∧ S.maxCost - t.cost[t.minPtr]! ≤ d := hpass.good _ ht
    have hread : S.deg[o]! = d := by simp [getElem!_def, hd]
    rw [hread]
    exact ⟨hle, hd'⟩
  · obtain ⟨hpos, hlt⟩ : 0 < t.cost[t.nodeMap[v]!]! ∧ t.cost[t.nodeMap[v]!]! < t.CI.size :=
      hpass.good _ ht
    exact ⟨Nat.pos_iff_ne_zero.mp hpos, (Nat.sub_le _ _).trans_lt hlt, hlt⟩
  · obtain ⟨hlt, hci⟩ : t.cost[t.nodeMap[v]!]! < S.maxCost ∧
      t.cost[t.nodeMap[v]!]! + 1 < t.CI.size := hpass.good _ ht
    exact ⟨hlt.ne, hci⟩

theorem lazy_costs_triangle : ∃ S s s' tr, setup 2 triangle = some (S, s) ∧
    S.placeAll s = some ((), s', tr) ∧
    (∀ t, Obs.head t ∈ tr → ∀ v < 3, t.isPlaced[v]! = false →
      t.cost[t.nodeMap[v]!]! + t.updates[v]! + presentLow S (Nat.sqrt 3) t v = S.maxCost) ∧
    ∃ t, Obs.head t ∈ tr ∧ t.minPtr = 0 := by
  obtain ⟨S, s, hs⟩ : ∃ S s, setup 2 triangle = some (S, s) :=
    setup_total triangle_input (by decide)
  obtain ⟨s', tr, hrun, hcost, _⟩ := lazy_costs triangle_input hs
  have hinst := (setup_some triangle_input hs).installed
  exact ⟨S, s, s', tr, hs, hrun, fun t ht v hv hn => (hcost t ht v hv hn).1,
    (hinst.seen hrun).1 0 (Nat.zero_le _)⟩

/-- The edges to `p` from the nodes at positions `currWinStartId .. minPtr-1` that were loaded. -/
def references (S : Setting) (s : Placement) (p : Nat) : Nat :=
  ((List.range' s.currWinStartId (s.minPtr - s.currWinStartId)).map fun w =>
    if S.deg[s.nodeId[w]!]! ≤ S.CACHE_SIZE then (S.G1.row s.nodeId[w]!).count p else 0).sum

theorem count_filter_eq (c : Nat → Bool) (row : List Nat) (p : Nat) :
    (row.filter c).count p = if c p = true then row.count p else 0 := by
  split_ifs with hc
  · exact List.count_filter hc
  · exact List.count_eq_zero.mpr fun hp => hc (List.mem_filter.mp hp).2

theorem IsSetup.count_window (h : IsSetup CACHE_SIZE G1 S s) {t : Placement} (ht : Head S t)
    {p : Nat} (hp : p < G1.numVertex) :
    (S.window t).count p =
      if S.revDeg[p]! ≤ Nat.sqrt G1.numVertex then references S t p else 0 := by
  have hdeg (w : Nat) (hw : w < t.minPtr) :
      S.deg[t.nodeId[w]!]! = (S.G1.row t.nodeId[w]!).length := by
    have hv := ht.moment.ordered.inverse.maps' w (by have := ht.inside; omega)
    rw [h.installed.graph] at hv ⊢
    exact h.installed.deg.2 _ hv
  rw [Setting.window, Setting.windowOf, List.count_flatMap]
  by_cases hlow : S.revDeg[p]! ≤ Nat.sqrt G1.numVertex
  · have hc : S.counts p = true := by
      rw [h.counts_eq hp]
      exact decide_eq_true hlow
    rw [if_pos hlow, references]
    congr 1
    refine List.map_congr_left fun w hw => ?_
    have hw' := List.mem_range'_1.mp hw
    have hb := ht.behind
    rw [hdeg w (by omega), Function.comp_apply, Setting.loads]
    by_cases hheavy : S.CACHE_SIZE < (S.G1.row t.nodeId[w]!).length
    · rw [if_pos hheavy, if_neg (Nat.not_le.mpr hheavy), List.count_nil]
    · rw [if_neg hheavy, if_pos (Nat.not_lt.mp hheavy), count_filter_eq, if_pos hc]
  · have hc : S.counts p = false := by
      rw [h.counts_eq hp]
      exact decide_eq_false hlow
    rw [if_neg hlow]
    refine List.sum_eq_zero fun x hx => ?_
    obtain ⟨w, _, rfl⟩ := List.mem_map.mp hx
    rw [Function.comp_apply, Setting.loads]
    split_ifs
    · exact List.count_nil
    · rw [count_filter_eq, hc]
      rfl

/-- `cachePresence` and `currWinCost` count exactly, only placed nodes are evicted, and no
counter goes below zero. -/
theorem cache_accounting (hG : Input G1) (hs : setup CACHE_SIZE G1 = some (S, s)) :
    ∃ s' tr, S.placeAll s = some ((), s', tr) ∧
      (∀ t, Obs.head t ∈ tr →
        (∀ p < G1.numVertex, t.cachePresence[p]! =
          if S.revDeg[p]! ≤ Nat.sqrt G1.numVertex then references S t p else 0) ∧
        t.currWinCost =
          (List.range G1.numVertex).countP (fun p => decide (0 < t.cachePresence[p]!)) ∧
        t.currWinStartId ≤ t.minPtr) ∧
      (∀ t, Obs.evict t ∈ tr → t.isPlaced[t.nodeId[t.currWinStartId]!]! = true) ∧
      (∀ p t, Obs.unload p t ∈ tr → 0 < t.cachePresence[p]!) ∧
      ∀ count t, Obs.evicted count t ∈ tr → count ≤ t.currWinCost := by
  have hset := setup_some hG hs
  obtain ⟨s', tr, hrun, hpass, _⟩ := hset.installed.run
  have hparents : S.G2.numVertex = G1.numVertex := hset.installed.reversed.numVertex
  refine ⟨s', tr, hrun, fun t ht => ?_, fun t ht => hpass.good _ ht, fun p t ht => hpass.good _ ht,
    fun count t ht => hpass.good _ ht⟩
  have hhead : Head S t := hpass.good _ ht
  refine ⟨fun p hp => ?_, ?_, hhead.behind⟩
  · rw [hhead.moment.present.presence p (by rw [hparents]; exact hp), hset.count_window hhead hp]
  · rw [hhead.winCost, ← hhead.moment.present.card, hparents]

theorem cache_accounting_triangle : ∃ S s s' tr, setup 2 triangle = some (S, s) ∧
    S.placeAll s = some ((), s', tr) ∧
    (∀ t, Obs.head t ∈ tr → t.currWinCost =
      (List.range 3).countP (fun p => decide (0 < t.cachePresence[p]!))) ∧
    ∃ t, Obs.head t ∈ tr ∧ t.minPtr = 0 := by
  obtain ⟨S, s, hs⟩ : ∃ S s, setup 2 triangle = some (S, s) :=
    setup_total triangle_input (by decide)
  obtain ⟨s', tr, hrun, hcount, _⟩ := cache_accounting triangle_input hs
  have hinst := (setup_some triangle_input hs).installed
  exact ⟨S, s, s', tr, hs, hrun, fun t ht => (hcount t ht).2.1,
    (hinst.seen hrun).1 0 (Nat.zero_le _)⟩

theorem setup_halt (hs : setup CACHE_SIZE G1 = some (S, s)) (m : Nat) :
    S.halt m = decide (usub G1.numVertex 2 ≤ m) := by
  obtain ⟨_, _, hs⟩ := Option.bind_eq_some_iff.mp hs
  obtain ⟨_, _, hs⟩ := Option.bind_eq_some_iff.mp hs
  obtain ⟨_, _, hs⟩ := Option.bind_eq_some_iff.mp hs
  obtain ⟨_, _, hs⟩ := Option.bind_eq_some_iff.mp hs
  obtain ⟨_, _, hs⟩ := Option.bind_eq_some_iff.mp hs
  cases hs
  rfl

/-- The placement phase is reached and ends, no loop of it needing more than `rounds` rounds, and
the check that follows finds every node placed. -/
theorem placement_completes (hG : Input G1) (h2 : 2 ≤ G1.numVertex) (CACHE_SIZE : Nat) :
    (G1.numVertex ≤ 2 ^ 31 → ∃ S s, setup CACHE_SIZE G1 = some (S, s)) ∧
      ∀ S s, setup CACHE_SIZE G1 = some (S, s) →
        ∃ s' tr, S.place s = some (s', tr) ∧ (∀ v < G1.numVertex, s'.isPlaced[v]! = true) ∧
          firstUnplaced G1.numVertex s'.isPlaced = some G1.numVertex := by
  refine ⟨setup_total hG, fun S s hs => ?_⟩
  have hinst := (setup_some hG hs).installed
  have hhalt : ∀ m, S.halt m = true → G1.numVertex - 2 ≤ m := by
    intro m hm
    rw [setup_halt hs, usub_of_le h2] at hm
    exact of_decide_eq_true hm
  obtain ⟨s', tr, hplace⟩ := hinst.place_total h2
  have hall : ∀ v < G1.numVertex, s'.isPlaced[v]! = true := fun v hv =>
    hinst.place_marks h2 hhalt hplace hv
  exact ⟨s', tr, hplace, hall, firstUnplaced_none (hinst.place_size h2 hplace) hall⟩

theorem placement_completes_triangle : ∃ S s s' tr, setup 2 triangle = some (S, s) ∧
    S.place s = some (s', tr) ∧ firstUnplaced 3 s'.isPlaced = some 3 := by
  obtain ⟨hsetup, hplace⟩ := placement_completes triangle_input (by decide) 2
  obtain ⟨S, s, hs⟩ := hsetup (by decide)
  obtain ⟨s', tr, hrun, _, hcheck⟩ := hplace S s hs
  exact ⟨S, s, s', tr, hs, hrun, hcheck⟩

end GraphReorder.PH
