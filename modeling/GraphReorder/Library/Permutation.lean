import Mathlib.Data.List.GetD
import Mathlib.Data.Set.Function
import Mathlib.Order.Interval.Set.Basic
import Mathlib.Data.Fintype.EquivFin
import GraphReorder.Library.Memory

/-! Permutations of the first `n` numbers, kept as a pair of mutually inverse arrays. -/
namespace GraphReorder.Library

/-- `f` and `g` are mutually inverse on the first `n` numbers. -/
structure Inverse (n : Nat) (f g : Nat → Nat) : Prop where
  maps : ∀ i < n, f i < n
  maps' : ∀ i < n, g i < n
  left : ∀ i < n, g (f i) = i
  right : ∀ i < n, f (g i) = i

namespace Inverse
variable {n : Nat} {f g : Nat → Nat}

theorem symm (h : Inverse n f g) : Inverse n g f := ⟨h.maps', h.maps, h.right, h.left⟩

theorem injective (h : Inverse n f g) {i j : Nat} (hi : i < n) (hj : j < n) (he : f i = f j) :
    i = j := by
  rw [← h.left i hi, he, h.left j hj]

theorem bijOn (h : Inverse n f g) : Set.BijOn f (Set.Iio n) (Set.Iio n) :=
  ⟨fun i hi => h.maps i hi, fun _ hi _ hj he => h.injective hi hj he,
    fun i hi => ⟨g i, h.maps' i hi, h.right i hi⟩⟩

theorem swap {f' g' : Nat → Nat} (h : Inverse n f g) {v q : Nat} (hv : v < n) (hq : q < n)
    (hf : ∀ i, f' i = if i = g q then f v else if i = v then q else f i)
    (hg : ∀ i, g' i = if i = f v then g q else if i = q then v else g i) :
    Inverse n f' g' := by
  have hw := h.maps' q hq
  have ht := h.maps v hv
  have hwq := h.right q hq
  have htv := h.left v hv
  constructor
  · intro i hi
    rw [hf]
    split_ifs <;> first | assumption | exact h.maps i hi
  · intro i hi
    rw [hg]
    split_ifs <;> first | assumption | exact h.maps' i hi
  · intro i hi
    have hi' := h.left i hi
    rw [hg, hf]
    by_cases h1 : i = g q
    · simp [h1]
    · by_cases h2 : i = v
      · subst h2
        by_cases h3 : q = f i
        · exact absurd (by rw [h3, hi']) h1
        · simp [h1, h3]
      · have h3 : f i ≠ f v := fun he => h2 (h.injective hi hv he)
        have h4 : f i ≠ q := fun he => h1 (by rw [← he, hi'])
        simp [h1, h2, h3, h4, hi']
  · intro i hi
    have hi' := h.right i hi
    rw [hf, hg]
    by_cases h1 : i = f v
    · simp [h1]
    · by_cases h2 : i = q
      · subst h2
        by_cases h3 : v = g i
        · exact absurd (by rw [h3, hi']) h1
        · simp [h1, h3]
      · have h3 : g i ≠ g q := fun he => h2 (h.symm.injective hi hq he)
        have h4 : g i ≠ v := fun he => h1 (by rw [← he, hi'])
        simp [h1, h2, h3, h4, hi']

end Inverse

theorem surjective_of_injective {n : Nat} {g : Nat → Nat} (hlt : ∀ i < n, g i < n)
    (hinj : ∀ i j, i < n → j < n → g i = g j → i = j) {k : Nat} (hk : k < n) :
    ∃ i < n, g i = k := by
  have hi : Function.Injective fun i : Fin n => (⟨g i, hlt i i.2⟩ : Fin n) := by
    intro i j he
    exact Fin.ext (hinj i j i.2 j.2 (Fin.mk.inj he))
  obtain ⟨i, he⟩ := Finite.surjective_of_injective hi ⟨k, hk⟩
  exact ⟨i, i.2, Fin.mk.inj he⟩

/-- The loop `out[g(i)] = val(i)` over a permutation: every value ends up where it was put. -/
theorem forRange_assign {n : Nat} {a : Array Nat} {f : Nat → Option Nat} {g : Nat → Nat}
    (val : Nat → Nat) (ha : a.size = n) (hread : ∀ i < n, f i = some (g i)) (hlt : ∀ i < n, g i < n)
    (hinj : ∀ i j, i < n → j < n → g i = g j → i = j) :
    ∃ out, forRange 0 n (fun i out => do store out (← f i) (val i)) a = some out ∧ out.size = n ∧
      ∀ i < n, out[g i]! = val i := by
  refine forRange_rule (fun i (out : Array Nat) => out.size = n ∧ ∀ j < i, out[g j]! = val j)
    (Nat.zero_le n) ⟨ha, fun j hj => absurd hj (Nat.not_lt_zero j)⟩ ?_
  intro i out _ hi ⟨hs, hout⟩
  have hlt' : g i < out.size := by
    rw [hs]
    exact hlt i hi
  refine ⟨out.setIfInBounds (g i) (val i), by simp [hread i hi, store_eq hlt'], by simpa using hs, ?_⟩
  intro j hj
  rw [put_get hlt']
  by_cases he : g j = g i
  · rw [if_pos he, hinj j i (by omega) hi he]
  · rw [if_neg he]
    exact hout j (Nat.lt_of_le_of_ne (Nat.le_of_lt_succ hj) fun hji => he (by rw [hji]))

/-- The loop `inv[g(i)] = i` fills in the inverse of a permutation. -/
theorem forRange_invert {n : Nat} {a : Array Nat} {f : Nat → Option Nat} {g : Nat → Nat}
    (ha : a.size = n) (hread : ∀ i < n, f i = some (g i)) (hlt : ∀ i < n, g i < n)
    (hinj : ∀ i j, i < n → j < n → g i = g j → i = j) :
    ∃ inv, forRange 0 n (fun i inv => do store inv (← f i) i) a = some inv ∧ inv.size = n ∧
      Inverse n (inv[·]!) g := by
  obtain ⟨inv, hrun, hs, hinv⟩ := forRange_assign (fun i => i) ha hread hlt hinj
  have hleft (k : Nat) (hk : k < n) : g inv[k]! = k ∧ inv[k]! < n := by
    obtain ⟨i, hi, he⟩ := surjective_of_injective hlt hinj hk
    rw [← he, hinv i hi]
    exact ⟨rfl, hi⟩
  exact ⟨inv, hrun, hs, fun k hk => (hleft k hk).2, hlt, fun k hk => (hleft k hk).1, hinv⟩

theorem injective_of_perm {n : Nat} {a : Array Nat} (h : a.toList.Perm (List.range n)) :
    a.size = n ∧ (∀ i < n, a[i]! < n) ∧ ∀ i j, i < n → j < n → a[i]! = a[j]! → i = j := by
  have hs : a.size = n := by simpa using h.length_eq
  refine ⟨hs, fun i hi => ?_, fun i j hi hj he => ?_⟩
  · have hmem : a[i]! ∈ a.toList := by simp [hs, hi]
    simpa using h.mem_iff.mp hmem
  · have hnd : a.toList.Nodup := h.nodup_iff.mpr List.nodup_range
    have hi' : i < a.toList.length := by simpa [hs] using hi
    have hj' : j < a.toList.length := by simpa [hs] using hj
    have heq : a.toList[i] = a.toList[j] := by simpa [hs, hi, hj] using he
    exact (List.Nodup.getElem_inj_iff hnd).mp heq

theorem bijOn_of_perm_range' {lo hi : Nat} {l : List Nat}
    (h : l.Perm (List.range' lo (hi - lo))) :
    Set.BijOn (fun i => l.getD (i - lo) 0) (Set.Ico lo hi) (Set.Ico lo hi) := by
  have hlen : l.length = hi - lo := by rw [h.length_eq, List.length_range']
  have hat {i : Nat} (hi' : i ∈ Set.Ico lo hi) : i - lo < l.length := by
    rw [hlen]
    exact Nat.sub_lt_sub_right hi'.1 hi'.2
  refine ⟨fun i hi' => ?_, fun i hi' j hj' he => ?_, fun v hv => ?_⟩
  · have hk := hat hi'
    have hmem := List.mem_range'_1.mp (h.mem_iff.mp (List.getElem_mem hk))
    simp only [List.getD_eq_getElem _ _ hk, Set.mem_Ico]
    omega
  · have hnd : l.Nodup := h.nodup_iff.mpr List.nodup_range'
    simp only [List.getD_eq_getElem _ _ (hat hi'), List.getD_eq_getElem _ _ (hat hj')] at he
    have heq := (List.Nodup.getElem_inj_iff hnd).mp he
    have := hi'.1
    have := hj'.1
    omega
  · have hmem : v ∈ l := h.mem_iff.mpr (List.mem_range'_1.mpr ⟨hv.1, by have := hv.2; omega⟩)
    obtain ⟨k, hk, he⟩ := List.mem_iff_getElem.mp hmem
    refine ⟨lo + k, ⟨Nat.le_add_right _ _, by omega⟩, ?_⟩
    simp [hk, he]

end GraphReorder.Library
