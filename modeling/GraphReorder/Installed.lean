import GraphReorder.Setup
import GraphReorder.Trace
import GraphReorder.Apply

/-! What the two programs have in common when they enter the placement loop. -/
namespace GraphReorder
open Library

def Setting.place (S : Setting) (s : Placement) : Option (Placement × List Obs) := do
  let (_, s, tr) ← S.placeAll s
  let isPlaced ← store s.isPlaced (← s.nodeId[usub S.G1.numVertex 2]?) true
  let isPlaced ← store isPlaced (← s.nodeId[usub S.G1.numVertex 1]?) true
  some ({ s with isPlaced }, tr)

/-- Where the check after the loop stops: at a node that it failed to place, or at `numVertex`. -/
def firstUnplaced (numVertex : Nat) (isPlaced : Array Bool) : Option Nat :=
  loop (fun i => do
    if i < numVertex then
      if !(← isPlaced[i]?) then return .inr i
      return .inl (i + 1)
    return .inr i) (numVertex + 1) 0

theorem firstUnplaced_spec {n : Nat} {isPlaced : Array Bool} (hs : isPlaced.size = n) :
    ∃ i, firstUnplaced n isPlaced = some i ∧ (i < n → isPlaced[i]! = false) ∧ i ≤ n := by
  unfold firstUnplaced
  have hfuel : n - 0 < n + 1 := Nat.lt_succ_self n
  refine loop_rule (fun i => i ≤ n) _ (fun i => n - i) (fun i hi => ?_) (Nat.zero_le n) hfuel
  by_cases hlt : i < n
  · have hsize : i < isPlaced.size := by omega
    rw [if_pos hlt, read_eq hsize]
    cases hp : isPlaced[i]! with
    | true => exact .inl ⟨i + 1, rfl, hlt, by omega⟩
    | false => exact .inr ⟨i, rfl, fun _ => hp, hi⟩
  · rw [if_neg hlt]
    exact .inr ⟨i, rfl, fun h => absurd h hlt, hi⟩

theorem firstUnplaced_none {n : Nat} {isPlaced : Array Bool} (hs : isPlaced.size = n)
    (hall : ∀ v < n, isPlaced[v]! = true) : firstUnplaced n isPlaced = some n := by
  obtain ⟨i, hrun, hfound, hi⟩ := firstUnplaced_spec hs
  have hend : i = n := by
    by_contra hne
    have hlt : i < n := by omega
    rw [hall i hlt] at hfound
    cases hfound hlt
  rw [← hend] at hrun ⊢
  exact hrun

structure Installed (CACHE_SIZE P : Nat) (G1 : Graph) (S : Setting) (s : Placement) : Prop where
  graph : S.G1 = G1
  csr : G1.Csr P
  reversed : Reversed P G1 S.G2
  capacity : S.CACHE_SIZE = CACHE_SIZE
  deg : S.deg.size = G1.numVertex ∧ ∀ v < G1.numVertex, S.deg[v]! = (G1.row v).length
  skips : ∀ p < P, S.skips p = some (!S.counts p)
  top : ∀ v < G1.numVertex, S.low v ≤ S.maxCost
  prepared : ∃ numUpdates, G1.numVertex ≤ numUpdates ∧
    Prepared G1.numVertex numUpdates P S.maxCost s

namespace Installed
variable {CACHE_SIZE P : Nat} {G1 : Graph} {S : Setting} {s : Placement}

theorem sound (h : Installed CACHE_SIZE P G1 S s) : S.Sound where
  csr1 := by
    rw [h.graph, h.reversed.numVertex]
    exact h.csr
  csr2 := by
    rw [h.graph]
    exact h.reversed.csr
  transpose v hv p hp := by
    rw [h.graph] at hv ⊢
    rw [h.reversed.numVertex] at hp
    exact h.reversed.count hv hp
  deg v hv := by
    rw [h.graph] at hv ⊢
    rw [read_eq (by rw [h.deg.1]; exact hv), h.deg.2 v hv]
  skips p hp := by
    rw [h.reversed.numVertex] at hp
    exact ⟨_, h.skips p hp⟩
  top v hv := by
    rw [h.graph] at hv
    exact h.top v hv

theorem head (h : Installed CACHE_SIZE P G1 S s) : Head S s := by
  obtain ⟨numUpdates, hu, hp⟩ := h.prepared
  rw [← h.graph] at hp hu
  exact hp.head hu (by rw [h.reversed.numVertex])

theorem run (h : Installed CACHE_SIZE P G1 S s) :
    ∃ s' tr, S.placeAll s = some ((), s', tr) ∧ Passage S.discipline s tr s' ∧ Head S s' ∧
      (G1.numVertex ≤ s'.minPtr ∨ S.halt s'.minPtr = true) := by
  obtain ⟨_, s', tr, hrun, hpass, hhead, hexit⟩ := placeAll_spec h.sound h.head
  rw [h.graph] at hexit
  exact ⟨s', tr, hrun, hpass, hhead, hexit⟩

/-- Every position that the loop comes to shows its head, and every node it places its placing. -/
theorem seen (h : Installed CACHE_SIZE P G1 S s) {s' : Placement} {tr : List Obs}
    (hrun : S.placeAll s = some ((), s', tr)) :
    (∀ p ≤ s'.minPtr, ∃ t, Obs.head t ∈ tr ∧ t.minPtr = p) ∧
      ∀ v < G1.numVertex, s'.isPlaced[v]! = true → ∃ t, Obs.place v t ∈ tr := by
  obtain ⟨_, _, hp⟩ := h.prepared
  refine ⟨fun p hp' => placeAll_heads h.sound h.head hrun ?_ hp', fun v hv hpl =>
    placeAll_places hrun hpl ?_⟩
  · rw [hp.minPtr]
    exact Nat.zero_le p
  · rw [hp.isPlaced]
    exact replicate_get G1.numVertex v false hv

theorem order (h : Installed CACHE_SIZE P G1 S s) {s' : Placement} (hhead : Head S s') :
    Order G1.numVertex s'.nodeMap s'.nodeId ∧ s'.isPlaced.size = G1.numVertex := by
  have hshape := hhead.moment.shape
  have hinv := hhead.moment.ordered.inverse
  rw [h.graph] at hinv
  exact ⟨⟨by rw [hshape.nodeMap, h.graph], by rw [hshape.nodeId, h.graph], hinv⟩,
    by rw [hshape.isPlaced, h.graph]⟩

theorem place_spec (h : Installed CACHE_SIZE P G1 S s) (h2 : 2 ≤ G1.numVertex) :
    ∃ t tr, Head S t ∧ (G1.numVertex ≤ t.minPtr ∨ S.halt t.minPtr = true) ∧
      S.place s = some ({ t with
        isPlaced := (t.isPlaced.setIfInBounds t.nodeId[G1.numVertex - 2]! true).setIfInBounds
          t.nodeId[G1.numVertex - 1]! true }, tr) := by
  obtain ⟨t, tr, hrun, _, hhead, hexit⟩ := h.run
  obtain ⟨ho, hpl⟩ := h.order hhead
  have hid := ho.sizeId
  have hread (k : Nat) (hk : k < G1.numVertex) : t.nodeId[k]? = some t.nodeId[k]! :=
    read_eq (by omega)
  have hlast := ho.inverse.maps' (G1.numVertex - 1) (by omega)
  have hlast' := ho.inverse.maps' (G1.numVertex - 2) (by omega)
  have h1 : 1 ≤ G1.numVertex := by omega
  have hsize : t.nodeId[G1.numVertex - 2]! < t.isPlaced.size := by omega
  refine ⟨t, tr, hhead, hexit, ?_⟩
  simp only [Setting.place, hrun, some_bind, h.graph, usub_of_le h2, usub_of_le h1,
    hread (G1.numVertex - 2) (by omega), hread (G1.numVertex - 1) (by omega), store_eq hsize]
  rw [store_eq (by rw [Array.size_setIfInBounds]; omega)]
  rfl

theorem place_total (h : Installed CACHE_SIZE P G1 S s) (h2 : 2 ≤ G1.numVertex) :
    ∃ s' tr, S.place s = some (s', tr) := by
  obtain ⟨t, tr, _, _, hplace⟩ := h.place_spec h2
  exact ⟨_, tr, hplace⟩

/-- With one node, `numVertex-2` wraps around and is no position. -/
theorem place_single (h : Installed CACHE_SIZE P G1 S s) (h1 : G1.numVertex = 1) :
    S.place s = none := by
  obtain ⟨t, tr, hrun, _, hhead, _⟩ := h.run
  obtain ⟨ho, _⟩ := h.order hhead
  have hid := ho.sizeId
  have hwrap : usub 1 2 = 2 ^ 32 - 1 := rfl
  have hout : t.nodeId[usub 1 2]? = none := by
    rw [Array.getElem?_eq_none_iff]
    omega
  simp only [Setting.place, hrun, some_bind, h.graph, h1, hout]
  rfl

theorem place_size (h : Installed CACHE_SIZE P G1 S s) (h2 : 2 ≤ G1.numVertex) {s' : Placement}
    {tr : List Obs} (hplace : S.place s = some (s', tr)) : s'.isPlaced.size = G1.numVertex := by
  obtain ⟨t, tr', hhead, _, hplace'⟩ := h.place_spec h2
  rw [hplace] at hplace'
  cases hplace'
  simpa using (h.order hhead).2

theorem place_marks (h : Installed CACHE_SIZE P G1 S s) (h2 : 2 ≤ G1.numVertex)
    (hhalt : ∀ m, S.halt m = true → G1.numVertex - 2 ≤ m) {s' : Placement} {tr : List Obs}
    (hplace : S.place s = some (s', tr)) {v : Nat} (hv : v < G1.numVertex) :
    s'.isPlaced[v]! = true := by
  obtain ⟨t, tr', hhead, hexit, hplace'⟩ := h.place_spec h2
  rw [hplace] at hplace'
  cases hplace'
  obtain ⟨ho, hpl⟩ := h.order hhead
  have hpos := ho.inverse.maps v hv
  have hback : t.nodeId[t.nodeMap[v]!]! = v := ho.inverse.left v hv
  have hmark := hhead.moment.ordered.placed_iff (by rw [h.graph]; exact hv)
  have hmin : G1.numVertex - 2 ≤ t.minPtr := by
    cases hexit with
    | inl hend => omega
    | inr hend => exact hhalt _ hend
  have hlast := ho.inverse.maps' (G1.numVertex - 1) (by omega)
  have hlast' := ho.inverse.maps' (G1.numVertex - 2) (by omega)
  change ((t.isPlaced.setIfInBounds _ _).setIfInBounds _ _)[v]! = true
  rw [put_get (by rw [Array.size_setIfInBounds]; omega), put_get (by omega)]
  split_ifs with h1 h2
  · rfl
  · rfl
  · rw [hmark]
    have hne : t.nodeMap[v]! ≠ G1.numVertex - 1 := fun he => h1 (by rw [← he, hback])
    have hne' : t.nodeMap[v]! ≠ G1.numVertex - 2 := fun he => h2 (by rw [← he, hback])
    exact decide_eq_true (by omega)

theorem place_some (h : Installed CACHE_SIZE P G1 S s) {s' : Placement} {tr : List Obs}
    (hplace : S.place s = some (s', tr)) : Order G1.numVertex s'.nodeMap s'.nodeId := by
  obtain ⟨t, tr', hrun, _, hhead, _⟩ := h.run
  obtain ⟨ho, _⟩ := h.order hhead
  rw [Setting.place, hrun, some_bind] at hplace
  obtain ⟨_, _, hplace⟩ := Option.bind_eq_some_iff.mp hplace
  obtain ⟨_, _, hplace⟩ := Option.bind_eq_some_iff.mp hplace
  obtain ⟨_, _, hplace⟩ := Option.bind_eq_some_iff.mp hplace
  obtain ⟨_, _, hplace⟩ := Option.bind_eq_some_iff.mp hplace
  cases hplace
  exact ho

end Installed

end GraphReorder
