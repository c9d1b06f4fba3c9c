import Mathlib.Order.Bounds.Basic
import GraphReorder.Library.Lockstep
import GraphReorder.Sort
import GraphReorder.Reverse
import GraphReorder.Accounting

/-! The arrays that `main` fills before the placement loop. -/
namespace GraphReorder
open Library

def degrees (G : Graph) : Option (Array Nat) := do
  let deg ← forRange 0 (usub G.numVertex 1) (fun i deg => do
    store deg i (usub (← G.VI[i + 1]?) (← G.VI[i]?))) (Array.replicate G.numVertex 0)
  store deg (usub G.numVertex 1) (usub G.numEdges (← G.VI[usub G.numVertex 1]?))

def skipEqual (cost : Array Nat) (val : Nat) : Nat → Nat → Option Nat :=
  loop fun myId => do
    if (← cost[myId]?) = val then return .inl (myId + 1)
    return .inr myId

def fillCI (cost : Array Nat) (myId : Nat) : Nat → Array Nat × Nat → Option (Array Nat × Nat) :=
  loop fun (CI, val) => do
    if (← cost[myId]?) ≠ val then return .inl (← store CI (val + 1) myId, val + 1)
    return .inr (CI, val)

def fillAllCI (cost : Array Nat) (maxCost : Nat) :
    Nat → Array Nat × Nat × Nat → Option (Array Nat × Nat × Nat) :=
  loop fun (CI, val, myId) => do
    if val < maxCost then
      let myId ← skipEqual cost val (cost.size + 1) myId
      let (CI, val) ← fillCI cost myId (maxCost + 1) (CI, val)
      return .inl (CI, val, myId + 1)
    return .inr (CI, val, myId)

/-- The positions where the cost values begin. A cost counts edges, so that `maxCost+1` does not wrap
around. -/
def buildCI (cost : Array Nat) (maxCost : Nat) : Option (Array Nat) := do
  let CI ← store (Array.replicate (maxCost + 1) 0) 0 0
  let (CI, _, _) ← fillAllCI cost maxCost (maxCost + 1) (CI, 0, 0)
  some CI

/-- From the sorted `cost` array to the start of the placement loop. `numUpdates` and
`numParents` are the sizes `main` gives to `updates` and `cachePresence`. -/
def prepare (numVertex numUpdates numParents : Nat) (cost : Array Nat) (maxCost : Nat) :
    Option Placement := do
  let nodeId ← forRange 0 numVertex (fun i nodeId => store nodeId i i)
    (Array.replicate numVertex 0)
  let (cost, nodeId) ← mergeSort cost nodeId 0 (usub numVertex 1)
  let cost ← forRange 0 numVertex (fun i cost => store cost i maxCost) cost
  let CI ← buildCI cost maxCost
  let nodeMap ← forRange 0 numVertex (fun i nodeMap => do store nodeMap (← nodeId[i]?) i)
    (Array.replicate numVertex 0)
  some {
    cost, nodeId, nodeMap, CI
    updates := Array.replicate numUpdates 0
    cachePresence := Array.replicate numParents 0
    isPlaced := Array.replicate numVertex false
    minPtr := 0
    currWinCost := 0
    currWinStartId := 0 }

theorem degrees_spec {G : Graph} {bound : Nat} (h : G.Csr bound) :
    ∃ deg, degrees G = some deg ∧ deg.size = G.numVertex ∧
      ∀ v < G.numVertex, deg[v]! = (G.row v).length := by
  have hpos := h.pos
  have hroom := h.room
  have hstop (i : Nat) (hi : i < G.numVertex - 1) : G.stop i = G.VI[i + 1]! := by
    rw [Graph.stop, if_neg (by omega)]
  obtain ⟨deg, hrun, hs, hd⟩ := forRange_fill (n := G.numVertex - 1)
    (a := Array.replicate G.numVertex 0)
    (f := fun i => do some (usub (← G.VI[i + 1]?) (← G.VI[i]?)))
    (g := fun i => (G.row i).length) (by simp) fun i hi => by
      have hle : G.VI[i]! ≤ G.stop i := h.start_le_stop (by omega)
      have hnext : i + 1 < G.VI.size := by omega
      rw [read_eq hnext, read_eq (Nat.lt_of_succ_lt hnext)]
      simp only [some_bind, Graph.Csr.row_length, hstop i hi]
      rw [usub_of_le (by rw [← hstop i hi]; exact hle)]
  rw [Array.size_replicate] at hs
  have hlast : G.VI[G.numVertex - 1]! ≤ G.numEdges := h.last
  have hlt : G.numVertex - 1 < deg.size := by omega
  have hlt' : G.numVertex - 1 < G.VI.size := by omega
  refine ⟨deg.setIfInBounds (G.numVertex - 1) (G.numEdges - G.VI[G.numVertex - 1]!), ?_,
    by simpa using hs, fun v hv => ?_⟩
  · simp only [Option.bind_eq_bind, Option.bind_assoc, Option.bind_some] at hrun
    simp only [degrees, usub_of_le hpos, Option.bind_eq_bind, hrun, Option.bind_some,
      read_eq hlt', usub_of_le hlast, store_eq hlt]
  · rw [put_get hlt]
    by_cases hl : v = G.numVertex - 1
    · rw [if_pos hl, Graph.Csr.row_length, Graph.stop, if_pos (by omega), hl]
    · rw [if_neg hl, hd, if_pos (by omega)]

section Boundaries
variable {cost CI : Array Nat} {maxCost val myId : Nat}

structure Costs (cost : Array Nat) (maxCost : Nat) : Prop where
  sorted : ∀ i j, i ≤ j → j < cost.size → cost[i]! ≤ cost[j]!
  cap : ∀ i < cost.size, cost[i]! ≤ maxCost
  top : ∃ i < cost.size, cost[i]! = maxCost

structure Marked (cost : Array Nat) (maxCost val : Nat) (CI : Array Nat) : Prop where
  size : CI.size = maxCost + 1
  cap : val ≤ maxCost
  first : ∀ v ≤ val, IsLeast {i | i < cost.size ∧ v ≤ cost[i]!} CI[v]!

structure Splits (cost : Array Nat) (val myId : Nat) : Prop where
  low : ∀ i < myId, i < cost.size → cost[i]! ≤ val
  high : ∀ i, myId ≤ i → i < cost.size → val ≤ cost[i]!

theorem Costs.lt_size (h : Costs cost maxCost) (hs : Splits cost val myId) (hv : val < maxCost) :
    myId < cost.size := by
  obtain ⟨i, hi, htop⟩ := h.top
  by_contra hge
  have hle := hs.low i (by omega) hi
  omega

theorem skipEqual_spec (h : Costs cost maxCost) (hs : Splits cost val myId) (hv : val < maxCost) :
    ∃ m, skipEqual cost val (cost.size + 1) myId = some m ∧
      (Splits cost val m ∧ m < cost.size ∧ val < cost[m]!) := by
  refine loop_rule (Splits cost val) _ (fun m => cost.size - m) ?_ hs (by omega)
  intro m hm
  have hlt := h.lt_size hm hv
  have hge := hm.high m le_rfl hlt
  by_cases he : cost[m]! = val
  · refine .inl ⟨m + 1, by simp [read_eq hlt, he], ⟨fun i hi hn => ?_, fun i hi hn => ?_⟩, by omega⟩
    · rw [← he]
      exact h.sorted i m (by omega) hlt
    · exact hm.high i (by omega) hn
  · exact .inr ⟨m, by simp [read_eq hlt, he], hm, hlt, by omega⟩

theorem Marked.mark (hm : Marked cost maxCost val CI) (hlt : val < maxCost) {m : Nat}
    (hm' : m < cost.size) (hc : val < cost[m]!) (hlow : ∀ i < m, cost[i]! ≤ val) :
    Marked cost maxCost (val + 1) (CI.setIfInBounds (val + 1) m) where
  size := by simpa using hm.size
  cap := hlt
  first v hv := by
    rw [put_get (by rw [hm.size]; omega)]
    split_ifs with he
    · subst he
      refine ⟨⟨hm', hc⟩, fun i hi => ?_⟩
      by_contra hlt'
      have h1 := hlow i (by omega)
      have h2 := hi.2
      omega
    · exact hm.first v (by omega)

theorem fillCI_spec (h : Costs cost maxCost) (hm : Marked cost maxCost val CI) {m : Nat}
    (hs : Splits cost val m) (hlt : m < cost.size) (hc : val < cost[m]!) :
    ∃ r, fillCI cost m (maxCost + 1) (CI, val) = some r ∧
      Marked cost maxCost cost[m]! r.1 ∧ r.2 = cost[m]! := by
  have hcap := h.cap m hlt
  refine loop_rule (fun r : Array Nat × Nat => Marked cost maxCost r.2 r.1 ∧ val ≤ r.2 ∧
    r.2 ≤ cost[m]!) _ (fun r => cost[m]! - r.2) ?_ ⟨hm, le_rfl, hc.le⟩ (by omega)
  intro r hI
  obtain ⟨C, w⟩ := r
  obtain ⟨hM, hlo, hhi⟩ := hI
  simp only at hM hlo hhi
  by_cases he : cost[m]! = w
  · refine .inr ⟨(C, w), by simp [read_eq hlt, he], ?_, he.symm⟩
    rw [he]
    exact hM
  · have hsz : w + 1 < C.size := by rw [hM.size]; omega
    refine .inl ⟨(C.setIfInBounds (w + 1) m, w + 1), by simp [read_eq hlt, he, store_eq hsz],
      ⟨hM.mark (by omega) hlt (by omega) fun i hi => ?_, by omega, by omega⟩, by omega⟩
    have := hs.low i hi (by omega)
    omega

theorem fillAllCI_spec (h : Costs cost maxCost) (hm : Marked cost maxCost val CI)
    (hs : Splits cost val myId) :
    ∃ r, fillAllCI cost maxCost (maxCost + 1) (CI, val, myId) = some r ∧
      (Marked cost maxCost r.2.1 r.1 ∧ maxCost ≤ r.2.1) := by
  refine loop_rule (fun r : Array Nat × Nat × Nat => Marked cost maxCost r.2.1 r.1 ∧
    Splits cost r.2.1 r.2.2) _ (fun r => maxCost - r.2.1) ?_ ⟨hm, hs⟩
    (Nat.lt_succ_of_le (Nat.sub_le _ _))
  intro r hI
  obtain ⟨C, w, m⟩ := r
  obtain ⟨hM, hS⟩ := hI
  simp only at hM hS
  by_cases hlt : w < maxCost
  · obtain ⟨m', hskip, hS', hm', hc⟩ := skipEqual_spec h hS hlt
    obtain ⟨⟨C', w'⟩, hfill, hM', hw'⟩ := fillCI_spec h hM hS' hm' hc
    simp only at hM' hw'
    subst hw'
    have hcap := h.cap m' hm'
    have hnext : Splits cost cost[m']! (m' + 1) :=
      ⟨fun i hi _ => h.sorted i m' (by omega) hm', fun i hi hn => h.sorted m' i (by omega) hn⟩
    refine .inl ⟨(C', cost[m']!, m' + 1), by simp [hlt, hskip, hfill], ⟨hM', hnext⟩, ?_⟩
    change maxCost - cost[m']! < maxCost - w
    omega
  · exact .inr ⟨(C, w, m), by simp [hlt], hM, Nat.le_of_not_lt hlt⟩

theorem fillAllCI_start (h : Costs cost maxCost) :
    ∃ CI myId, fillAllCI cost maxCost (maxCost + 1)
        ((Array.replicate (maxCost + 1) 0).setIfInBounds 0 0, 0, 0) = some (CI, maxCost, myId) ∧
      Marked cost maxCost maxCost CI := by
  have h0 : 0 < (Array.replicate (maxCost + 1) 0).size := by simp
  have hstart : Marked cost maxCost 0 ((Array.replicate (maxCost + 1) 0).setIfInBounds 0 0) := by
    refine ⟨by simp, Nat.zero_le _, fun v hv => ?_⟩
    obtain rfl : v = 0 := by omega
    obtain ⟨i, hi, _⟩ := h.top
    rw [put_get_self h0]
    exact ⟨⟨by omega, Nat.zero_le _⟩, fun _ _ => Nat.zero_le _⟩
  have hsplit : Splits cost 0 0 :=
    ⟨fun i hi => absurd hi (Nat.not_lt_zero i), fun _ _ _ => Nat.zero_le _⟩
  obtain ⟨⟨CI, val, myId⟩, hrun, hM, hval⟩ := fillAllCI_spec h hstart hsplit
  have hcap := hM.cap
  simp only at hM hval hcap
  obtain rfl : val = maxCost := by omega
  exact ⟨CI, myId, hrun, hM⟩

/-- `CI[v]` is the first position of cost at least `v`. -/
theorem buildCI_spec (h : Costs cost maxCost) :
    ∃ CI, buildCI cost maxCost = some CI ∧ Marked cost maxCost maxCost CI := by
  have h0 : 0 < (Array.replicate (maxCost + 1) 0).size := by simp
  obtain ⟨CI, myId, hrun, hM⟩ := fillAllCI_start h
  refine ⟨CI, ?_, hM⟩
  rw [buildCI, store_eq h0, some_bind, hrun]
  rfl

end Boundaries

section Assignments
/-! The same loops with the list of the cells of `CI` they assign, in order. -/
variable {cost : Array Nat} {maxCost : Nat}

def storeLogged (CI : Array Nat × List Nat) (i x : Nat) : Option (Array Nat × List Nat) := do
  some (← store CI.1 i x, CI.2 ++ [i])

def fillCILogged (cost : Array Nat) (myId : Nat) :
    Nat → (Array Nat × List Nat) × Nat → Option ((Array Nat × List Nat) × Nat) :=
  loop fun (CI, val) => do
    if (← cost[myId]?) ≠ val then return .inl (← storeLogged CI (val + 1) myId, val + 1)
    return .inr (CI, val)

def fillAllCILogged (cost : Array Nat) (maxCost : Nat) :
    Nat → (Array Nat × List Nat) × Nat × Nat → Option ((Array Nat × List Nat) × Nat × Nat) :=
  loop fun (CI, val, myId) => do
    if val < maxCost then
      let myId ← skipEqual cost val (cost.size + 1) myId
      let (CI, val) ← fillCILogged cost myId (maxCost + 1) (CI, val)
      return .inl (CI, val, myId + 1)
    return .inr (CI, val, myId)

def buildCILogged (cost : Array Nat) (maxCost : Nat) : Option (Array Nat × List Nat) := do
  let CI ← storeLogged (Array.replicate (maxCost + 1) 0, []) 0 0
  let (CI, _, _) ← fillAllCILogged cost maxCost (maxCost + 1) (CI, 0, 0)
  some CI

def soFar (CI : Array Nat) (val : Nat) : Array Nat × List Nat := (CI, List.range (val + 1))

theorem storeLogged_next (CI : Array Nat) (val x : Nat) :
    storeLogged (soFar CI val) (val + 1) x =
      (store CI (val + 1) x).map fun CI => soFar CI (val + 1) := by
  have hnext : List.range (val + 1) ++ [val + 1] = List.range (val + 1 + 1) := List.range_succ.symm
  change (store CI (val + 1) x >>= fun CI => some (CI, List.range (val + 1) ++ [val + 1])) = _
  rw [hnext]
  cases store CI (val + 1) x with
  | none => rfl
  | some CI' => rfl

theorem fillCILogged_eq (m fuel : Nat) (CI : Array Nat) (val : Nat) :
    fillCILogged cost m fuel (soFar CI val, val) =
      (fillCI cost m fuel (CI, val)).map fun r => (soFar r.1 r.2, r.2) := by
  apply rel_map_iff.mp
  refine rel_loop (fun r r' hr => ?_) rfl
  obtain ⟨C, v⟩ := r
  subst hr
  refine rel_bind_same fun c => ?_
  by_cases hc : c = v
  · simp only [hc, ne_eq, not_true_eq_false, if_false]
    exact .some (.inr rfl)
  · simp only [ne_eq, hc, not_false_eq_true, if_true]
    rw [storeLogged_next]
    cases store C (v + 1) m with
    | none => exact .none
    | some C' => exact .some (.inl rfl)

theorem fillAllCILogged_eq (fuel : Nat) (CI : Array Nat) (val myId : Nat) :
    fillAllCILogged cost maxCost fuel (soFar CI val, val, myId) =
      (fillAllCI cost maxCost fuel (CI, val, myId)).map fun r =>
        (soFar r.1 r.2.1, r.2.1, r.2.2) := by
  apply rel_map_iff.mp
  refine rel_loop (fun r r' hr => ?_) rfl
  obtain ⟨C, v, m⟩ := r
  subst hr
  by_cases hv : v < maxCost
  · simp only [hv, if_true]
    refine rel_bind_same fun m' => ?_
    rw [fillCILogged_eq]
    cases fillCI cost m' (maxCost + 1) (C, v) with
    | none => exact .none
    | some r' => exact .some (.inl rfl)
  · simp only [hv, if_false]
    exact .some (.inr rfl)

/-- The bucket index: every cell is assigned once, in order, and `CI[v]` is the least position of
cost at least `v`. -/
theorem buildCILogged_spec (h : Costs cost maxCost) :
    ∃ CI, buildCILogged cost maxCost = some (CI, List.range (maxCost + 1)) ∧
      buildCI cost maxCost = some CI ∧ CI.size = maxCost + 1 ∧
      ∀ v ≤ maxCost, IsLeast {i | i < cost.size ∧ v ≤ cost[i]!} CI[v]! := by
  have h0 : 0 < (Array.replicate (maxCost + 1) 0).size := by simp
  obtain ⟨CI, myId, hrun, hM⟩ := fillAllCI_start h
  refine ⟨CI, ?_, ?_, hM.size, hM.first⟩
  · have hlogged := @fillAllCILogged_eq cost maxCost (maxCost + 1)
      ((Array.replicate (maxCost + 1) 0).setIfInBounds 0 0) 0 0
    rw [hrun] at hlogged
    simp only [buildCILogged, storeLogged, store_eq h0, some_bind]
    exact congrArg (· >>= _) hlogged
  · rw [buildCI, store_eq h0, some_bind, hrun]
    rfl

theorem buildCILogged_gap :
    ∃ CI, buildCILogged #[0, 0, 1, 1, 3, 4, 4, 7] 7 = some (CI, List.range 8) ∧
      buildCI #[0, 0, 1, 1, 3, 4, 4, 7] 7 = some CI ∧ CI.size = 8 ∧
      ∀ v ≤ 7, IsLeast {i | i < (#[0, 0, 1, 1, 3, 4, 4, 7] : Array Nat).size ∧
        v ≤ (#[0, 0, 1, 1, 3, 4, 4, 7] : Array Nat)[i]!} CI[v]! := by
  have hsorted : ∀ j < 8, ∀ i ≤ j, (#[0, 0, 1, 1, 3, 4, 4, 7] : Array Nat)[i]! ≤
      (#[0, 0, 1, 1, 3, 4, 4, 7] : Array Nat)[j]! := by decide
  exact buildCILogged_spec
    ⟨fun i j hij hj => hsorted j hj i hij, by decide, 7, by decide, by decide⟩

end Assignments

structure Prepared (n numUpdates numParents maxCost : Nat) (s : Placement) : Prop where
  cost : s.cost.size = n ∧ ∀ p < n, s.cost[p]! = maxCost
  nodeId : s.nodeId.size = n
  nodeMap : s.nodeMap.size = n
  inverse : Inverse n (s.nodeMap[·]!) (s.nodeId[·]!)
  CI : s.CI.size = maxCost + 1 ∧ ∀ c ≤ maxCost, s.CI[c]! = 0
  updates : s.updates = Array.replicate numUpdates 0
  cachePresence : s.cachePresence = Array.replicate numParents 0
  isPlaced : s.isPlaced = Array.replicate n false
  minPtr : s.minPtr = 0
  currWinCost : s.currWinCost = 0
  currWinStartId : s.currWinStartId = 0

section Prepare
variable {n numUpdates numParents maxCost : Nat} {cost : Array Nat} {s : Placement}

theorem prepare_of_sort (hc : cost.size = n) (hpos : 1 ≤ n) (hword : n < 2 ^ 32) :
    ∃ ident : Array Nat, ident.size = n ∧
      (mergeSort cost ident 0 (n - 1) = none → prepare n numUpdates numParents cost maxCost = none) ∧
      ∀ r, mergeSort cost ident 0 (n - 1) = some r →
        ∃ s, prepare n numUpdates numParents cost maxCost = some s ∧
          Prepared n numUpdates numParents maxCost s := by
  obtain ⟨ident, hident, his, hi⟩ := forRange_fill (n := n) (a := Array.replicate n 0)
    (f := fun i => some i) (g := id) (by simp) fun _ _ => rfl
  rw [Array.size_replicate] at his
  simp only [some_bind] at hident
  refine ⟨ident, his, fun hnone => ?_, fun r hsort => ?_⟩
  · simp only [prepare, hident, usub_of_le hpos, hnone, some_bind]
    rfl
  obtain ⟨cost', nodeId⟩ := r
  have hrange : ident.toList = List.range n := by
    rw [← slice_all, his]
    refine List.ext_getElem (by simp [slice]) fun i h1 h2 => ?_
    have hin : i < n := by simpa using h2
    simp [slice, hi, hin]
  obtain ⟨hcs, hns⟩ := mergeSort_sizes hsort
  have hperm := mergeSort_perm hc his hpos hword hsort
  rw [hrange] at hperm
  obtain ⟨_, hlt, hinj⟩ := injective_of_perm hperm
  obtain ⟨flat, hflat, hfs, hf⟩ := forRange_fill (n := n) (a := cost')
    (f := fun _ => some maxCost) (g := fun _ => maxCost) (by omega) fun _ _ => rfl
  rw [hcs, hc] at hfs
  have hf' (p : Nat) (hp : p < n) : flat[p]! = maxCost := by rw [hf, if_pos hp]
  have hcosts : Costs flat maxCost :=
    ⟨fun i j _ hj => by rw [hf' i (by omega), hf' j (by omega)],
      fun i hi => (hf' i (by omega)).le, 0, by omega, hf' 0 (by omega)⟩
  obtain ⟨CI, hCI, hm⟩ := buildCI_spec hcosts
  obtain ⟨nodeMap, hmap, hms, hinv⟩ := forRange_invert (a := Array.replicate n 0)
    (f := fun i => nodeId[i]?) (g := (nodeId[·]!)) (by simp)
    (fun i hi => read_eq (by omega)) hlt hinj
  simp only [some_bind] at hflat
  refine ⟨⟨flat, nodeId, nodeMap, CI, Array.replicate numUpdates 0,
    Array.replicate numParents 0, Array.replicate n false, 0, 0, 0⟩, ?_, ?_⟩
  · simp only [prepare, hident, usub_of_le hpos, hsort, hflat, hCI, hmap, some_bind]
  · refine ⟨⟨hfs, hf'⟩, by omega, hms, hinv, ⟨hm.size, fun c hc => ?_⟩, rfl, rfl, rfl, rfl, rfl, rfl⟩
    have hfirst : CI[c]! ≤ 0 :=
      (hm.first c hc).2 ⟨by omega, by rw [hf' 0 (by omega)]; exact hc⟩
    exact Nat.le_zero.mp hfirst

theorem prepare_total (hc : cost.size = n) (hpos : 1 ≤ n) (hword : n ≤ 2 ^ 31) :
    ∃ s, prepare n numUpdates numParents cost maxCost = some s := by
  have hword' : n < 2 ^ 32 := by omega
  obtain ⟨ident, hi, _, hsome⟩ := prepare_of_sort hc hpos hword'
  obtain ⟨r, hr⟩ := mergeSort_total hc hi hpos hword
  obtain ⟨s, hs, _⟩ := hsome r hr
  exact ⟨s, hs⟩

theorem prepare_some (hc : cost.size = n) (hpos : 1 ≤ n) (hword : n < 2 ^ 32)
    (h : prepare n numUpdates numParents cost maxCost = some s) :
    Prepared n numUpdates numParents maxCost s := by
  obtain ⟨ident, _, hnone, hsome⟩ := prepare_of_sort hc hpos hword
  cases hr : mergeSort cost ident 0 (n - 1) with
  | none =>
    rw [hnone hr] at h
    cases h
  | some r =>
    obtain ⟨s', hs', hp⟩ := hsome r hr
    rw [h] at hs'
    cases hs'
    exact hp

end Prepare

theorem Prepared.head {S : Setting} {s : Placement} {numUpdates numParents : Nat}
    (h : Prepared S.G1.numVertex numUpdates numParents S.maxCost s)
    (hu : S.G1.numVertex ≤ numUpdates) (hp : S.G2.numVertex ≤ numParents) : Head S s := by
  have hwin : S.window s = [] := by
    rw [Setting.window, h.minPtr, h.currWinStartId]
    rfl
  have hupd (v : Nat) (hv : v < S.G1.numVertex) : s.updates[v]! = 0 := by
    rw [h.updates]
    exact replicate_get _ v 0 (by omega)
  have hpl (v : Nat) (hv : v < S.G1.numVertex) : s.isPlaced[v]! = false := by
    rw [h.isPlaced]
    exact replicate_get _ v false hv
  have hcost (v : Nat) (hv : v < S.G1.numVertex) : s.cost[s.nodeMap[v]!]! = S.maxCost :=
    h.cost.2 _ (h.inverse.maps v hv)
  have hres (row : List Nat) : resident [] row = 0 := by simp [resident]
  refine ⟨by rw [h.minPtr]; exact Nat.zero_le _, by rw [h.minPtr, h.currWinStartId],
    fun hpos => ?_, fun _ => hupd, ?_, ?_⟩
  · rw [h.minPtr] at hpos
    exact absurd hpos (Nat.lt_irrefl 0)
  · rw [hwin, h.minPtr]
    refine ⟨⟨h.cost.1, h.nodeId, h.nodeMap, h.CI.1, ?_, ?_, ?_⟩, ⟨h.inverse, fun p hp => ?_,
      Bucketed.initial _ _ h.cost.2 h.CI.2⟩, ⟨fun v hv _ => ?_, fun v hv _ => ?_,
      fun v hv _ => hupd v hv⟩, ⟨fun p hp => ?_, by simp⟩⟩
    · rw [h.updates, Array.size_replicate]
      exact hu
    · rw [h.cachePresence, Array.size_replicate]
      exact hp
    · rw [h.isPlaced, Array.size_replicate]
    · rw [hpl _ (h.inverse.maps' p hp)]
      exact (decide_eq_false (Nat.not_lt_zero p)).symm
    · rw [hcost v hv, hupd v hv, hres]
      rfl
    · rw [hcost v hv]
      exact Nat.le_add_right _ _
    · rw [h.cachePresence]
      exact replicate_get _ p 0 (by omega)
  · rw [hwin, h.currWinCost]
    rfl

end GraphReorder
