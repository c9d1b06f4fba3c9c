import Mathlib.Data.List.Nodup
import Mathlib.Data.Nat.Basic
import Mathlib.Logic.Relation
import Mathlib.Order.Basic
import Mathlib.Tactic.Common

/-! Breadth-first orders of a graph in which a new root, and the newly found neighbours of a vertex,
are taken by rising key. -/
namespace GraphReorder.Library
variable {α : Type} (every : α → Prop) (next : α → α → Prop) (key : α → Nat)

/-- One step of the search. Its state: how many vertices have been expanded, and all that have been
found, in order. -/
inductive Visit : Nat × List α → Nat × List α → Prop
  | root {o : List α} {r : α} (hr : every r) (hnew : r ∉ o)
      (hleast : ∀ w, every w → w ∉ o → key r ≤ key w) : Visit (o.length, o) (o.length, o ++ [r])
  | expand {p : Nat} {o new : List α} {u : α} (hu : o[p]? = some u) (hd : new.Nodup)
      (hrise : new.Pairwise (key · ≤ key ·)) (hnew : ∀ w, w ∈ new ↔ next u w ∧ w ∉ o) :
      Visit (p, o) (p + 1, o ++ new)

/-- `u` is the first one in the order with `w` as its neighbour, and stands before it. -/
structure Finds (o : List α) (i k : Nat) (u w : α) : Prop where
  parent : o[i]? = some u
  child : o[k]? = some w
  lt : i < k
  edge : next u w
  first : ∀ i' < i, ∀ u', o[i']? = some u' → ¬ next u' w

structure BreadthFirst (s : Nat × List α) : Prop where
  nodup : s.2.Nodup
  inside : ∀ v ∈ s.2, every v
  expanded : s.1 ≤ s.2.length
  closed : ∀ i < s.1, ∀ u w, s.2[i]? = some u → next u w → every w → w ∈ s.2
  waiting : ∀ (j : Nat) (w : α), s.1 < j → s.2[j]? = some w →
    ∃ i < s.1, ∃ u, s.2[i]? = some u ∧ next u w
  layered : ∀ (i j k : Nat) (u v w : α), i < j → j < k → s.2[i]? = some u → s.2[j]? = some v →
    s.2[k]? = some w → next u w → ∃ i' ≤ i, ∃ u', s.2[i']? = some u' ∧ next u' v
  rising : ∀ (i j k : Nat) (u v w : α), j < k → Finds next s.2 i j u v →
    Finds next s.2 i k u w → key v ≤ key w
  roots : ∀ (j : Nat) (v : α), s.2[j]? = some v →
    (∀ i < j, ∀ u, s.2[i]? = some u → ¬ next u v) →
    ∀ w, every w → w ∉ s.2.take j → key v ≤ key w

variable {every next key}

theorem getElem?_append_cases {o l : List α} {i : Nat} {x : α} (h : (o ++ l)[i]? = some x) :
    (i < o.length ∧ o[i]? = some x) ∨ (o.length ≤ i ∧ l[i - o.length]? = some x) := by
  rcases Nat.lt_or_ge i o.length with hi | hi
  · rw [List.getElem?_append_left hi] at h
    exact .inl ⟨hi, h⟩
  · rw [List.getElem?_append_right hi] at h
    exact .inr ⟨hi, h⟩

theorem getElem?_append_old {o : List α} {i : Nat} {x : α} (h : o[i]? = some x) (l : List α) :
    (o ++ l)[i]? = some x := by
  obtain ⟨hi, _⟩ := List.getElem?_eq_some_iff.mp h
  rwa [List.getElem?_append_left hi]

theorem Finds.old {o l : List α} {i k : Nat} {u w : α} (h : Finds next (o ++ l) i k u w)
    (hk : k < o.length) : Finds next o i k u w where
  parent := by
    have hi : i < o.length := Nat.lt_trans h.lt hk
    have := h.parent
    rwa [List.getElem?_append_left hi] at this
  child := by
    have := h.child
    rwa [List.getElem?_append_left hk] at this
  lt := h.lt
  edge := h.edge
  first i' hi' u' hu' := h.first i' hi' u' (getElem?_append_old hu' l)

theorem BreadthFirst.start : BreadthFirst every next key (0, []) where
  nodup := .nil
  inside v hv := absurd hv List.not_mem_nil
  expanded := le_rfl
  closed i hi := absurd hi (Nat.not_lt_zero i)
  waiting j w _ h := by simp at h
  layered i j k u v w _ _ h := by simp at h
  rising i j k u v w _ h := by simpa using h.parent
  roots j v h := by simp at h

theorem BreadthFirst.old_root {p : Nat} {o l : List α} (h : BreadthFirst every next key (p, o))
    {j : Nat} {v w : α} (hj : j < o.length) (hv : (o ++ l)[j]? = some v)
    (hroot : ∀ i < j, ∀ u, (o ++ l)[i]? = some u → ¬ next u v) (hw : every w)
    (hnew : w ∉ (o ++ l).take j) : key v ≤ key w := by
  rw [List.getElem?_append_left hj] at hv
  rw [List.take_append_of_le_length hj.le] at hnew
  exact h.roots j v hv (fun i hi u hu => hroot i hi u (getElem?_append_old hu l)) w hw hnew

/-- Whoever has a newly found vertex as its neighbour is not expanded yet. -/
theorem BreadthFirst.parent_late {p : Nat} {o l : List α} (h : BreadthFirst every next key (p, o))
    {i : Nat} {u w : α} (hu : (o ++ l)[i]? = some u) (huw : next u w) (hw : every w)
    (hwo : w ∉ o) : p ≤ i := by
  by_contra hi
  have hip : i < p := Nat.lt_of_not_le hi
  rcases getElem?_append_cases hu with ⟨_, hu⟩ | ⟨hle, _⟩
  · exact hwo (h.closed i hip u w hu huw hw)
  · exact hi (h.expanded.trans hle)

theorem BreadthFirst.visit (hin : ∀ u w, every u → next u w → every w) {s t : Nat × List α}
    (h : BreadthFirst every next key s) (hv : Visit every next key s t) :
    BreadthFirst every next key t := by
  cases hv with
  | @root o r hr hnew hleast =>
    have hlast {k : Nat} {w : α} (hk : o.length ≤ k) (hw : (o ++ [r])[k]? = some w) : w = r := by
      rcases getElem?_append_cases hw with ⟨hlt, _⟩ | ⟨_, hw⟩
      · omega
      · exact (List.mem_singleton.mp (List.mem_of_getElem? hw))
    refine ⟨?_, ?_, ?_, ?_, ?_, ?_, ?_, ?_⟩
    · exact List.nodup_append.mpr ⟨h.nodup, List.nodup_singleton r, fun a ha b hb he =>
        hnew (List.mem_singleton.mp hb ▸ he ▸ ha)⟩
    · intro v hv
      cases List.mem_append.mp hv with
      | inl hv => exact h.inside v hv
      | inr hv => rwa [List.mem_singleton.mp hv]
    · simp
    · intro i hi u w hu huw hw
      rcases getElem?_append_cases hu with ⟨_, hu⟩ | ⟨hle, _⟩
      · exact List.mem_append_left _ (h.closed i hi u w hu huw hw)
      · omega
    · intro j w hj hw
      obtain ⟨hlt, _⟩ := List.getElem?_eq_some_iff.mp hw
      simp at hlt
      simp only at hj
      omega
    · intro i j k u v w hij hjk hu hv hw huw
      by_cases hk : k < o.length
      · have hj : j < o.length := hjk.trans hk
        have hi : i < o.length := hij.trans hj
        simp only [List.getElem?_append_left hk, List.getElem?_append_left hj,
          List.getElem?_append_left hi] at hu hv hw
        obtain ⟨i', hle, u', hu', huv⟩ := h.layered i j k u v w hij hjk hu hv hw huw
        exact ⟨i', hle, u', getElem?_append_old hu' _, huv⟩
      · -- the new root is nobody's neighbour
        obtain rfl := hlast (Nat.le_of_not_lt hk) hw
        have hle := h.parent_late hu huw hr hnew
        obtain ⟨hlt, _⟩ := List.getElem?_eq_some_iff.mp hw
        simp at hlt
        omega
    · intro i j k u v w hjk hv hw
      by_cases hk : k < o.length
      · exact h.rising i j k u v w hjk (hv.old (hjk.trans hk)) (hw.old hk)
      · obtain rfl := hlast (Nat.le_of_not_lt hk) hw.child
        have hle := h.parent_late hw.parent hw.edge hr hnew
        obtain ⟨hlt, _⟩ := List.getElem?_eq_some_iff.mp hw.child
        have := hw.lt
        simp at hlt
        omega
    · intro j v hv hroot w hw hwnew
      by_cases hj : j < o.length
      · exact h.old_root hj hv hroot hw hwnew
      · obtain rfl := hlast (Nat.le_of_not_lt hj) hv
        refine hleast w hw fun hwo => hwnew ?_
        rw [List.take_append]
        exact List.mem_append_left _ ((List.take_of_length_le (Nat.le_of_not_lt hj)).symm ▸ hwo)
  | @expand p o new u₀ hu₀ hd hrise hnew =>
    obtain ⟨hp, _⟩ := List.getElem?_eq_some_iff.mp hu₀
    have hu₀e : every u₀ := h.inside u₀ (List.mem_of_getElem? hu₀)
    have hfresh {k : Nat} {w : α} (hk : o.length ≤ k) (hw : (o ++ new)[k]? = some w) :
        new[k - o.length]? = some w ∧ next u₀ w ∧ w ∉ o ∧ every w := by
      rcases getElem?_append_cases hw with ⟨hlt, _⟩ | ⟨_, hw⟩
      · omega
      · obtain ⟨huw, hwo⟩ := (hnew w).mp (List.mem_of_getElem? hw)
        exact ⟨hw, huw, hwo, hin u₀ w hu₀e huw⟩
    have hu₀' : (o ++ new)[p]? = some u₀ := getElem?_append_old hu₀ new
    refine ⟨?_, ?_, ?_, ?_, ?_, ?_, ?_, ?_⟩
    · exact List.nodup_append.mpr ⟨h.nodup, hd, fun a ha b hb he =>
        ((hnew b).mp hb).2 (he ▸ ha)⟩
    · intro v hv
      cases List.mem_append.mp hv with
      | inl hv => exact h.inside v hv
      | inr hv => exact hin u₀ v hu₀e ((hnew v).mp hv).1
    · rw [List.length_append]
      simp only
      omega
    · intro i hi u w hu huw hw
      rcases Nat.eq_or_lt_of_le (Nat.le_of_lt_succ hi) with rfl | hip
      · obtain rfl : u = u₀ := Option.some.inj (hu.symm.trans hu₀')
        by_cases hwo : w ∈ o
        · exact List.mem_append_left _ hwo
        · exact List.mem_append_right _ ((hnew w).mpr ⟨huw, hwo⟩)
      · rcases getElem?_append_cases hu with ⟨_, hu⟩ | ⟨hle, _⟩
        · exact List.mem_append_left _ (h.closed i hip u w hu huw hw)
        · have := h.expanded
          simp only at this
          omega
    · intro j w hj hw
      by_cases hjo : j < o.length
      · rw [List.getElem?_append_left hjo] at hw
        obtain ⟨i, hi, u, hu, huw⟩ := h.waiting j w (Nat.lt_of_succ_lt hj) hw
        exact ⟨i, Nat.lt_succ_of_lt hi, u, getElem?_append_old hu new, huw⟩
      · exact ⟨p, Nat.lt_succ_self p, u₀, hu₀', (hfresh (Nat.le_of_not_lt hjo) hw).2.1⟩
    · intro i j k u v w hij hjk hu hv hw huw
      by_cases hk : k < o.length
      · have hj : j < o.length := hjk.trans hk
        have hi : i < o.length := hij.trans hj
        simp only [List.getElem?_append_left hk, List.getElem?_append_left hj,
          List.getElem?_append_left hi] at hu hv hw
        obtain ⟨i', hle, u', hu', huv⟩ := h.layered i j k u v w hij hjk hu hv hw huw
        exact ⟨i', hle, u', getElem?_append_old hu' new, huv⟩
      · obtain ⟨_, _, hwo, hwe⟩ := hfresh (Nat.le_of_not_lt hk) hw
        have hle := h.parent_late hu huw hwe hwo
        by_cases hj : j < o.length
        · -- `v` was waiting, so that somebody expanded has it as a neighbour
          rw [List.getElem?_append_left hj] at hv
          obtain ⟨i', hi', u', hu', huv⟩ := h.waiting j v (hle.trans_lt hij) hv
          exact ⟨i', hi'.le.trans hle, u', getElem?_append_old hu' new, huv⟩
        · exact ⟨p, hle, u₀, hu₀', (hfresh (Nat.le_of_not_lt hj) hv).2.1⟩
    · intro i j k u v w hjk hv hw
      by_cases hk : k < o.length
      · exact h.rising i j k u v w hjk (hv.old (hjk.trans hk)) (hw.old hk)
      · obtain ⟨hw', hw₀, hwo, hwe⟩ := hfresh (Nat.le_of_not_lt hk) hw.child
        have hle := h.parent_late hw.parent hw.edge hwe hwo
        -- the finder of `w` is the vertex just expanded
        obtain rfl : i = p := by
          by_contra hne
          exact hw.first p (by omega) u₀ hu₀' hw₀
        by_cases hj : j < o.length
        · have hv' := (hv.old hj)
          obtain ⟨i', hi', u', hu', huv⟩ := h.waiting j v hv'.lt hv'.child
          exact absurd huv (hv'.first i' hi' u' hu')
        · obtain ⟨hv', _⟩ := hfresh (Nat.le_of_not_lt hj) hv.child
          obtain ⟨hj', hjv⟩ := List.getElem?_eq_some_iff.mp hv'
          obtain ⟨hk', hkw⟩ := List.getElem?_eq_some_iff.mp hw'
          rw [← hjv, ← hkw]
          exact List.pairwise_iff_getElem.mp hrise _ _ hj' hk' (by omega)
    · intro j v hv hroot w hw hwnew
      by_cases hj : j < o.length
      · exact h.old_root hj hv hroot hw hwnew
      · exact absurd (hfresh (Nat.le_of_not_lt hj) hv).2.1 (hroot p (by omega) u₀ hu₀')

theorem BreadthFirst.run (hin : ∀ u w, every u → next u w → every w) {s t : Nat × List α}
    (h : BreadthFirst every next key s)
    (hrun : Relation.ReflTransGen (Visit every next key) s t) : BreadthFirst every next key t := by
  induction hrun with
  | refl => exact h
  | tail _ hv ih => exact ih.visit hin hv

end GraphReorder.Library
