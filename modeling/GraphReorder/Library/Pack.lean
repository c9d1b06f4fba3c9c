import Mathlib.Algebra.BigOperators.Group.List.Basic
import Mathlib.Algebra.GroupWithZero.Nat
import Mathlib.Data.Nat.Find
import GraphReorder.Library.Memory

/-! What parallel loops over arrays are made of: cells that are marked through a list of indices,
and rows that are laid end to end by the sums of their lengths. -/
namespace GraphReorder.Library

section Mark
variable {α : Type} [Inhabited α]

theorem mark_run {a : Array α} {l : List Nat} (x : α) (hl : ∀ i ∈ l, i < a.size) :
    ∃ a', l.foldlM (fun a i => store a i x) a = some a' ∧ a'.size = a.size ∧
      ∀ j, a'[j]! = if j ∈ l then x else a[j]! := by
  refine foldlM_list l (fun done (a' : Array α) => a'.size = a.size ∧
    ∀ j, a'[j]! = if j ∈ done then x else a[j]!) ⟨rfl, by simp⟩ fun done i rest a' hsplit h => ?_
  obtain ⟨hsize, hcells⟩ := h
  have hlt : i < a'.size := by
    rw [hsize]
    exact hl i (by simp [hsplit])
  refine ⟨a'.setIfInBounds i x, store_eq hlt, by simpa using hsize, fun j => ?_⟩
  rw [put_get hlt, hcells j]
  by_cases hji : j = i
  · rw [if_pos hji, if_pos (by simp [hji])]
  · rw [if_neg hji]
    simp [hji]

end Mark

theorem sum_mul_add_one (l : List Nat) (K : Nat) :
    (l.map fun x => x * K + 1).sum = l.sum * K + l.length := by
  induction l with
  | nil => simp
  | cons x l ih =>
    rw [List.map_cons, List.sum_cons, ih, List.sum_cons, List.length_cons, Nat.add_mul]
    omega

def rowStart (lengths : List Nat) (i : Nat) : Nat := (lengths.take i).sum

section Rows
variable {lengths : List Nat} {i i' j j' : Nat}

theorem rowStart_succ (hi : i < lengths.length) :
    rowStart lengths (i + 1) = rowStart lengths i + lengths[i] := by
  rw [rowStart, rowStart, List.take_add_one, List.getElem?_eq_getElem hi, Option.toList_some,
    List.sum_append, List.sum_singleton]

theorem rowStart_mono (h : i ≤ i') : rowStart lengths i ≤ rowStart lengths i' := by
  obtain ⟨k, rfl⟩ := Nat.le.dest h
  induction k with
  | zero => exact le_rfl
  | succ k ih =>
    refine (ih (Nat.le_add_right i k)).trans ?_
    by_cases hlt : i + k < lengths.length
    · rw [← Nat.add_assoc, rowStart_succ hlt]
      exact Nat.le_add_right _ _
    · rw [rowStart, rowStart, List.take_of_length_le (by omega), List.take_of_length_le (by omega)]

theorem rowStart_length : rowStart lengths lengths.length = lengths.sum := by
  rw [rowStart, List.take_length]

theorem rowStart_lt (hi : i < lengths.length) (hj : j < lengths[i]) :
    rowStart lengths i + j < rowStart lengths (i + 1) := by
  rw [rowStart_succ hi]
  exact Nat.add_lt_add_left hj _

theorem rowStart_cell (hi : i < lengths.length) (hj : j < lengths[i]) :
    rowStart lengths i + j < lengths.sum := by
  rw [← rowStart_length]
  exact (rowStart_lt hi hj).trans_le (rowStart_mono hi)

theorem rowStart_inj (hi : i < lengths.length) (hi' : i' < lengths.length) (hj : j < lengths[i])
    (hj' : j' < lengths[i']) (h : rowStart lengths i + j = rowStart lengths i' + j') :
    i = i' ∧ j = j' := by
  have hlt := rowStart_lt hi hj
  have hlt' := rowStart_lt hi' hj'
  rcases Nat.lt_trichotomy i i' with hii | rfl | hii
  · have hle : rowStart lengths (i + 1) ≤ rowStart lengths i' := rowStart_mono hii
    omega
  · exact ⟨rfl, by omega⟩
  · have hle : rowStart lengths (i' + 1) ≤ rowStart lengths i := rowStart_mono hii
    omega

theorem rowStart_cover {p : Nat} (hp : p < lengths.sum) :
    ∃ i j, ∃ hi : i < lengths.length, j < lengths[i] ∧ p = rowStart lengths i + j := by
  have hex : ∃ i, p < rowStart lengths (i + 1) := by
    refine ⟨lengths.length, hp.trans_le ?_⟩
    rw [← rowStart_length]
    exact rowStart_mono (Nat.le_succ _)
  have hfirst := Nat.find_spec hex
  have hstart : rowStart lengths (Nat.find hex) ≤ p := by
    cases hi : Nat.find hex with
    | zero => exact Nat.zero_le _
    | succ i => exact Nat.le_of_not_lt (Nat.find_min hex (hi ▸ Nat.lt_succ_self i))
  have hi : Nat.find hex < lengths.length := by
    by_contra hge
    have hsame : rowStart lengths (Nat.find hex + 1) = rowStart lengths (Nat.find hex) := by
      rw [rowStart, rowStart, List.take_of_length_le (by omega), List.take_of_length_le (by omega)]
    omega
  rw [rowStart_succ hi] at hfirst
  exact ⟨Nat.find hex, p - rowStart lengths (Nat.find hex), hi, by omega, by omega⟩

end Rows

end GraphReorder.Library
