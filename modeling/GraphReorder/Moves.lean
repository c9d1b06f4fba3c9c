import GraphReorder.Placement
import GraphReorder.Library.Buckets
import GraphReorder.Library.Permutation

/-! The order that the placement loop maintains, and what one move does to it. -/
namespace GraphReorder
open Library

def Placement.Keeps (s s' : Placement) : Prop :=
  ∀ v : Nat, s.isPlaced[v]! = true → s'.isPlaced[v]! = true ∧ s'.nodeMap[v]! = s.nodeMap[v]!

instance : Preorder Placement where
  le := Placement.Keeps
  le_refl _ _ h := ⟨h, rfl⟩
  le_trans _ _ _ h h' v hv := ⟨(h' v (h v hv).1).1, (h' v (h v hv).1).2.trans (h v hv).2⟩

theorem Placement.le_iff {s s' : Placement} : s ≤ s' ↔ s.Keeps s' := Iff.rfl

theorem Placement.le_of_same {s s' : Placement} (hp : s'.isPlaced = s.isPlaced)
    (hm : s'.nodeMap = s.nodeMap) : s ≤ s' :=
  Placement.le_iff.mpr fun v hv => ⟨by rw [hp]; exact hv, by rw [hm]⟩

variable {S : Setting} {s : Placement} {u v q : Nat}

structure Shape (S : Setting) (s : Placement) : Prop where
  cost : s.cost.size = S.G1.numVertex
  nodeId : s.nodeId.size = S.G1.numVertex
  nodeMap : s.nodeMap.size = S.G1.numVertex
  CI : s.CI.size = S.maxCost + 1
  updates : S.G1.numVertex ≤ s.updates.size
  cachePresence : S.G2.numVertex ≤ s.cachePresence.size
  isPlaced : s.isPlaced.size = S.G1.numVertex

/-- The positions below `u` are placed; from `u` on the costs are sorted and `CI`, read no
lower than `u`, is the exact bucket boundary. -/
structure Ordered (S : Setting) (u : Nat) (s : Placement) : Prop where
  inverse : Inverse S.G1.numVertex (s.nodeMap[·]!) (s.nodeId[·]!)
  placed : ∀ p < S.G1.numVertex, s.isPlaced[s.nodeId[p]!]! = decide (p < u)
  buckets : Bucketed u S.G1.numVertex S.maxCost (s.cost[·]!) (s.CI[·]!)

namespace Ordered

theorem placed_iff (h : Ordered S u s) (hv : v < S.G1.numVertex) :
    s.isPlaced[v]! = decide (s.nodeMap[v]! < u) := by
  have hp := h.placed s.nodeMap[v]! (h.inverse.maps v hv)
  rwa [h.inverse.left v hv] at hp

theorem le_of_unplaced (h : Ordered S u s) (hv : v < S.G1.numVertex)
    (hn : s.isPlaced[v]! = false) : u ≤ s.nodeMap[v]! := by
  have hp := h.placed_iff hv
  rw [hn] at hp
  exact not_lt.mp (of_decide_eq_false hp.symm)

theorem unplaced_of_le (h : Ordered S u s) (hv : v < S.G1.numVertex)
    (hu : u ≤ s.nodeMap[v]!) : s.isPlaced[v]! = false := by
  rw [h.placed_iff hv]
  exact decide_eq_false (by omega)

theorem cost_le (h : Ordered S u s) (hv : v < S.G1.numVertex) (hu : u ≤ s.nodeMap[v]!) :
    s.cost[s.nodeMap[v]!]! ≤ S.maxCost :=
  h.buckets.cap _ hu (h.inverse.maps v hv)

end Ordered

def Placement.exchange (s : Placement) (v q : Nat) (cost CI : Array Nat) : Placement :=
  { s with
    nodeMap := (s.nodeMap.setIfInBounds v q).setIfInBounds s.nodeId[q]! s.nodeMap[v]!
    nodeId := (s.nodeId.setIfInBounds q v).setIfInBounds s.nodeMap[v]! s.nodeId[q]!
    cost := cost
    CI := CI }

section Exchange
variable {cost CI : Array Nat}

theorem Shape.exchange (h : Shape S s) (hc : cost.size = s.cost.size) (hi : CI.size = s.CI.size) :
    Shape S (s.exchange v q cost CI) where
  cost := hc.trans h.cost
  nodeId := by simpa [Placement.exchange] using h.nodeId
  nodeMap := by simpa [Placement.exchange] using h.nodeMap
  CI := hi.trans h.CI
  updates := h.updates
  cachePresence := h.cachePresence
  isPlaced := h.isPlaced

variable (hs : Shape S s) (ho : Ordered S u s) (hv : v < S.G1.numVertex) (hq : q < S.G1.numVertex)
include hs ho hv hq

theorem exchange_bounds : v < s.nodeMap.size ∧ s.nodeMap[v]! < s.cost.size ∧ q < s.nodeId.size ∧
    s.nodeId[q]! < (s.nodeMap.setIfInBounds v q).size ∧
    s.nodeMap[v]! < (s.nodeId.setIfInBounds q v).size ∧ q < s.cost.size := by
  have ht := ho.inverse.maps v hv
  have hw := ho.inverse.maps' q hq
  simp only [Array.size_setIfInBounds, hs.nodeMap, hs.nodeId, hs.cost]
  exact ⟨hv, ht, hq, hw, ht, hq⟩

theorem exchange_nodeMap (x : Nat) : (s.exchange v q cost CI).nodeMap[x]! =
    if x = s.nodeId[q]! then s.nodeMap[v]! else if x = v then q else s.nodeMap[x]! := by
  have hw := ho.inverse.maps' q hq
  have hm := hs.nodeMap
  rw [Placement.exchange, put_get (by simpa [hm] using hw), put_get (by omega)]

theorem exchange_nodeId (x : Nat) : (s.exchange v q cost CI).nodeId[x]! =
    if x = s.nodeMap[v]! then s.nodeId[q]! else if x = q then v else s.nodeId[x]! := by
  have ht := ho.inverse.maps v hv
  have hm := hs.nodeId
  rw [Placement.exchange, put_get (by simpa [hm] using ht), put_get (by omega)]

theorem exchange_inverse : Inverse S.G1.numVertex ((s.exchange v q cost CI).nodeMap[·]!)
    ((s.exchange v q cost CI).nodeId[·]!) :=
  ho.inverse.swap hv hq (exchange_nodeMap hs ho hv hq) (exchange_nodeId hs ho hv hq)

/-- Two nodes of equal cost change places: then every node sees its own cost, up to what
happens at `q`. -/
theorem exchange_cost {c c' : Nat} (hcv : s.cost[s.nodeMap[v]!]! = c) (hcq : s.cost[q]! = c)
    (hcost : ∀ p, cost[p]! = if p = q then c' else s.cost[p]!) (x : Nat)
    (hx : x < S.G1.numVertex) :
    cost[(s.exchange v q cost CI).nodeMap[x]!]! = if x = v then c' else s.cost[s.nodeMap[x]!]! := by
  rw [exchange_nodeMap hs ho hv hq, hcost]
  have hqr := ho.inverse.right q hq
  by_cases h1 : x = s.nodeId[q]!
  · subst h1
    by_cases h2 : s.nodeId[q]! = v
    · have ht : s.nodeMap[v]! = q := by rw [← h2]; exact hqr
      rw [if_pos rfl, if_pos ht, if_pos h2]
    · have ht : s.nodeMap[v]! ≠ q := fun he => h2 (by rw [← he]; exact ho.inverse.left v hv)
      have hqq : s.nodeMap[s.nodeId[q]!]! = q := hqr
      rw [if_pos rfl, if_neg ht, if_neg h2, hqq, hcv, hcq]
  · rw [if_neg h1]
    by_cases h2 : x = v
    · simp [h2]
    · have hxq : s.nodeMap[x]! ≠ q := fun he => h1 (by rw [← he]; exact (ho.inverse.left x hx).symm)
      simp [h2, hxq]

variable (hu : u ≤ s.nodeMap[v]!) (huq : u ≤ q)
include hu huq

theorem exchange_placed (p : Nat) (hp : p < S.G1.numVertex) :
    (s.exchange v q cost CI).isPlaced[(s.exchange v q cost CI).nodeId[p]!]! = decide (p < u) := by
  rw [exchange_nodeId hs ho hv hq]
  change s.isPlaced[_]! = _
  have hpq := ho.placed q hq
  have hpv := ho.placed_iff hv
  split_ifs with h1 h2
  · subst h1
    rw [hpq, decide_eq_false (by omega), decide_eq_false (by omega)]
  · subst h2
    rw [hpv, decide_eq_false (by omega), decide_eq_false (by omega)]
  · exact ho.placed p hp

theorem exchange_le : s ≤ s.exchange v q cost CI := by
  refine Placement.le_iff.mpr fun x hx => ⟨hx, ?_⟩
  have hpq := ho.placed q hq
  have hpv := ho.placed_iff hv
  rw [decide_eq_false (by omega)] at hpq hpv
  rw [exchange_nodeMap hs ho hv hq]
  split_ifs with h1 h2
  · subst h1
    simp [hpq] at hx
  · subst h2
    simp [hpv] at hx
  · rfl

end Exchange

/-- What a move leaves alone, and how it changes what the nodes cost. -/
structure Moved (S : Setting) (u v : Nat) (cost' : Nat) (s s' : Placement) : Prop where
  shape : Shape S s'
  ordered : Ordered S u s'
  climb : s ≤ s'
  cost : ∀ x < S.G1.numVertex,
    s'.cost[s'.nodeMap[x]!]! = if x = v then cost' else s.cost[s.nodeMap[x]!]!
  updates : s'.updates = s.updates
  cachePresence : s'.cachePresence = s.cachePresence
  isPlaced : s'.isPlaced = s.isPlaced
  minPtr : s'.minPtr = s.minPtr
  currWinCost : s'.currWinCost = s.currWinCost
  currWinStartId : s'.currWinStartId = s.currWinStartId

theorem exchange_moved {cost CI : Array Nat} {c c' : Nat} (hs : Shape S s) (ho : Ordered S u s)
    (hv : v < S.G1.numVertex) (hq : q < S.G1.numVertex) (hu : u ≤ s.nodeMap[v]!) (huq : u ≤ q)
    (hcv : s.cost[s.nodeMap[v]!]! = c) (hcq : s.cost[q]! = c)
    (hcost : ∀ p, cost[p]! = if p = q then c' else s.cost[p]!)
    (hsize : cost.size = s.cost.size) (hsize' : CI.size = s.CI.size)
    (hb : Bucketed u S.G1.numVertex S.maxCost (cost[·]!) (CI[·]!)) :
    Moved S u v c' s (s.exchange v q cost CI) where
  shape := hs.exchange hsize hsize'
  ordered := ⟨exchange_inverse hs ho hv hq, exchange_placed hs ho hv hq hu huq, hb⟩
  climb := exchange_le hs ho hv hq hu huq
  cost := exchange_cost hs ho hv hq hcv hcq hcost
  updates := rfl
  cachePresence := rfl
  isPlaced := rfl
  minPtr := rfl
  currWinCost := rfl
  currWinStartId := rfl

theorem moveRight_spec (hs : Shape S s) (ho : Ordered S u s) (hv : v < S.G1.numVertex)
    (hu : u ≤ s.nodeMap[v]!) (hc : s.cost[s.nodeMap[v]!]! < S.maxCost) :
    ∃ s', moveRight v s = some s' ∧ Moved S u v (s.cost[s.nodeMap[v]!]! + 1) s s' := by
  generalize hcv : s.cost[s.nodeMap[v]!]! = c at hc
  have ht := ho.inverse.maps v hv
  obtain ⟨hlt, hcq⟩ := ho.buckets.raise_target hu ht (by simpa [hcv] using hc)
  simp only [hcv] at hlt hcq
  have hbound := ho.buckets.bound (c + 1) (by omega)
  generalize hq : s.CI[c + 1]! - 1 = q at hcq
  have hCI : s.CI[c + 1]! = q + 1 := by omega
  have hqn : q < S.G1.numVertex := by omega
  have huq : u ≤ q := by omega
  obtain ⟨h1, h2, h4, h5, h6, h7⟩ := exchange_bounds hs ho hv hqn
  have h3 : c + 1 < s.CI.size := by rw [hs.CI]; omega
  have hrun : moveRight v s = some (s.exchange v q (s.cost.setIfInBounds q (c + 1))
      (s.CI.setIfInBounds (c + 1) q)) := by
    have hq : 1 ≤ q + 1 := Nat.le_add_left 1 q
    simp only [moveRight, read_eq h1, read_eq h2, hcv, read_eq h3, hCI, usub_of_le hq,
      Nat.add_sub_cancel, read_eq h4, store_eq h1, store_eq h5, store_eq h4, store_eq h6,
      incr_eq h7, hcq, decr_eq h3 (by omega), Option.bind_eq_bind, Option.bind_some]
    rfl
  refine ⟨_, hrun, ?_⟩
  have hcost := put_get h7 (c + 1)
  exact exchange_moved hs ho hv hqn hu huq hcv hcq hcost (by simp) (by simp)
    (ho.buckets.raise huq hqn hcq hc hCI hcost (put_get h3 q))

theorem clamp_eq {CI : Array Nat} {m c : Nat} (h : c < CI.size) :
    clamp CI m c = some (CI.setIfInBounds c (max CI[c]! (m + 1))) := by
  simp only [clamp, read_eq h, Option.bind_eq_bind, Option.bind_some]
  split_ifs with hle
  · rw [store_eq h, max_eq_right (by omega)]
  · rw [max_eq_left (by omega)]
    congr 1
    ext i h1 h2
    · simp
    · by_cases hic : c = i
      · subst hic
        simp [h]
      · rw [Array.getElem_setIfInBounds_ne _ hic]

theorem moveLeft_spec (hs : Shape S s) (ho : Ordered S (s.minPtr + 1) s) (hv : v < S.G1.numVertex)
    (hu : s.minPtr + 1 ≤ s.nodeMap[v]!) (hc : 0 < s.cost[s.nodeMap[v]!]!) :
    ∃ s', moveLeft v s = some s' ∧
      Moved S (s.minPtr + 1) v (s.cost[s.nodeMap[v]!]! - 1) s s' := by
  obtain ⟨c, hcv⟩ : ∃ c, s.cost[s.nodeMap[v]!]! = c + 1 := ⟨_, (Nat.succ_pred_eq_of_pos hc).symm⟩
  have ht := ho.inverse.maps v hv
  have hcap := ho.cost_le hv hu
  obtain ⟨hle, hcq⟩ := ho.buckets.lower_target hu ht
  simp only [hcv] at hle hcq hcap
  generalize hq : max s.CI[c + 1]! (s.minPtr + 1) = q at hle hcq
  have hqn : q < S.G1.numVertex := by omega
  have huq : s.minPtr + 1 ≤ q := by omega
  obtain ⟨h1, h2, h4, h5, h6, h7⟩ := exchange_bounds hs ho hv hqn
  have h3 : c + 1 < s.CI.size := by rw [hs.CI]; omega
  have h8 : c + 1 < (s.CI.setIfInBounds (c + 1) q).size := by simpa using h3
  have h9 : c < (s.CI.setIfInBounds (c + 1) q).size := by simp; omega
  have h10 : c + 1 < ((s.CI.setIfInBounds (c + 1) q).setIfInBounds c
      (max (s.CI.setIfInBounds (c + 1) q)[c]! (s.minPtr + 1))).size := by simpa using h3
  have hrun : moveLeft v s = some (s.exchange v q (s.cost.setIfInBounds q c)
      (((s.CI.setIfInBounds (c + 1) q).setIfInBounds c (max s.CI[c]! (s.minPtr + 1))).setIfInBounds
        (c + 1) (q + 1))) := by
    have hsub : usub (c + 1) 1 = c := usub_of_le (by omega)
    have hd : decr s.cost q = some (s.cost.setIfInBounds q c) := by
      rw [decr_eq h7 (by omega), hcq, Nat.add_sub_cancel]
    simp only [moveLeft, read_eq h1, read_eq h2, hcv, clamp_eq h3, hq, read_eq h8, put_get_self h3,
      read_eq h4, store_eq h1, store_eq h4, store_eq h5, store_eq h6, hd, hsub, clamp_eq h9,
      incr_eq h10, Option.bind_eq_bind, Option.bind_some]
    rw [put_get_ne (by omega), put_get_ne (by omega), put_get_self h3]
    rfl
  refine ⟨_, hrun, ?_⟩
  rw [hcv, Nat.add_sub_cancel]
  have hcost := put_get h7 c
  refine exchange_moved hs ho hv hqn hu huq hcv hcq hcost (by simp) (by simp) ?_
  refine ho.buckets.lower huq hqn hcq hq hcost fun d => ?_
  rw [put_get (by simpa using h3), put_get h9, put_get h3]
  split_ifs <;> rfl

end GraphReorder
