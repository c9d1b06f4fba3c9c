import Mathlib.Order.Lattice
import GraphReorder.Library.Memory

/-! `std::lower_bound` and `std::binary_search` on a stretch of an array. -/
namespace GraphReorder.Library
variable {α : Type} [LinearOrder α] [Inhabited α]

def lowerBoundStep (a : Array α) (x : α) (st : Nat × Nat) :
    Option ((Nat × Nat) ⊕ (Nat × Nat)) := do
  let (first, len) := st
  if 0 < len then
    let half := len / 2
    if (← a[first + half]?) < x then pure (.inl (first + half + 1, len - half - 1))
    else pure (.inl (first, half))
  else pure (.inr st)

def lowerBound (a : Array α) (lo hi : Nat) (x : α) : Option Nat := do
  pure (← loop (lowerBoundStep a x) (hi - lo + 1) (lo, hi - lo)).1

def binarySearch (a : Array α) (lo hi : Nat) (x : α) : Option Bool := do
  let i ← lowerBound a lo hi x
  if i = hi then pure false else pure (decide (¬ x < (← a[i]?)))

section Correct
variable {a : Array α} {lo hi : Nat} {x : α}

def Narrowed (a : Array α) (lo hi : Nat) (x : α) (st : Nat × Nat) : Prop :=
  lo ≤ st.1 ∧ st.1 + st.2 ≤ hi ∧ (∀ i, lo ≤ i → i < st.1 → a[i]! < x) ∧
    ∀ i, st.1 + st.2 ≤ i → i < hi → x ≤ a[i]!

theorem lowerBoundStep_narrows (hhi : hi ≤ a.size)
    (hsorted : ∀ i j, lo ≤ i → i ≤ j → j < hi → a[i]! ≤ a[j]!) {st : Nat × Nat}
    (h : Narrowed a lo hi x st) :
    (∃ st', lowerBoundStep a x st = some (.inl st') ∧ Narrowed a lo hi x st' ∧ st'.2 < st.2) ∨
      ∃ st', lowerBoundStep a x st = some (.inr st') ∧ Narrowed a lo hi x st' ∧ st'.2 = 0 := by
  obtain ⟨first, len⟩ := st
  obtain ⟨hlo, hle, hbelow, habove⟩ := h
  simp only at hlo hle hbelow habove
  by_cases hlen : 0 < len
  · left
    have hmid : first + len / 2 < hi := by omega
    have hread : a[first + len / 2]? = some a[first + len / 2]! := read_eq (by omega)
    by_cases hx : a[first + len / 2]! < x
    · refine ⟨(first + len / 2 + 1, len - len / 2 - 1), ?_, ⟨?_, ?_, ?_, ?_⟩, ?_⟩
      · simp only [lowerBoundStep, if_pos hlen, hread, some_bind, if_pos hx]
        rfl
      · simp only
        omega
      · simp only
        omega
      · exact fun i hi' hlt => (hsorted i _ hi' (by omega) hmid).trans_lt hx
      · exact fun i hge hlt => habove i (by omega) hlt
      · simp only
        omega
    · refine ⟨(first, len / 2), ?_, ⟨hlo, ?_, hbelow, ?_⟩, ?_⟩
      · simp only [lowerBoundStep, if_pos hlen, hread, some_bind, if_neg hx]
        rfl
      · simp only
        omega
      · exact fun i hge hlt => (not_lt.mp hx).trans (hsorted _ i (by omega) hge hlt)
      · simp only
        omega
  · obtain rfl : len = 0 := by omega
    exact .inr ⟨(first, 0), rfl, ⟨hlo, hle, hbelow, habove⟩, rfl⟩

/-- On a sorted stretch the first place whose value is not below `x`. -/
theorem lowerBound_spec (hlo : lo ≤ hi) (hhi : hi ≤ a.size)
    (hsorted : ∀ i j, lo ≤ i → i ≤ j → j < hi → a[i]! ≤ a[j]!) (x : α) :
    ∃ k, lowerBound a lo hi x = some k ∧ lo ≤ k ∧ k ≤ hi ∧
      (∀ i, lo ≤ i → i < k → a[i]! < x) ∧ ∀ i, k ≤ i → i < hi → x ≤ a[i]! := by
  obtain ⟨⟨k, len⟩, hrun, ⟨hk, hle, hbelow, habove⟩, hlen⟩ := loop_rule (Narrowed a lo hi x)
    (fun st => Narrowed a lo hi x st ∧ st.2 = 0) (fun st => st.2)
    (fun st h => lowerBoundStep_narrows hhi hsorted h)
    (show Narrowed a lo hi x (lo, hi - lo) from
      ⟨le_rfl, by simp only; omega, fun i _ _ => by simp only at *; omega,
        fun i _ _ => by simp only at *; omega⟩) (Nat.lt_succ_self _)
  simp only at hk hle hbelow habove hlen
  refine ⟨k, ?_, hk, by omega, hbelow, fun i hi' => habove i (by omega)⟩
  rw [lowerBound, hrun]
  rfl

/-- On a sorted stretch `std::binary_search` says whether the value is there. -/
theorem binarySearch_spec (hlo : lo ≤ hi) (hhi : hi ≤ a.size)
    (hsorted : ∀ i j, lo ≤ i → i ≤ j → j < hi → a[i]! ≤ a[j]!) (x : α) :
    binarySearch a lo hi x = some (decide (x ∈ slice a lo hi)) := by
  obtain ⟨k, hrun, hk, hkhi, hbelow, habove⟩ := lowerBound_spec hlo hhi hsorted x
  simp only [binarySearch, hrun, some_bind]
  by_cases hend : k = hi
  · rw [if_pos hend]
    refine congrArg some (decide_eq_false fun hm => ?_).symm
    obtain ⟨i, hi', hlt, he⟩ := mem_slice.mp hm
    exact (hbelow i hi' (by omega)).ne he
  · rw [if_neg hend, read_eq (by omega), some_bind]
    refine congrArg some (decide_eq_decide.mpr ⟨fun hx => ?_, fun hm hx => ?_⟩)
    · exact mem_slice.mpr ⟨k, hk, by omega, le_antisymm (not_lt.mp hx) (habove k le_rfl (by omega))⟩
    · obtain ⟨i, hi', hlt, he⟩ := mem_slice.mp hm
      have hki : k ≤ i := not_lt.mp fun hik => (hbelow i hi' hik).ne he
      exact ((hx.trans_le (hsorted k i hk hki hlt)).trans_eq he).false

end Correct

end GraphReorder.Library
