import Mathlib.Data.List.Count
import Mathlib.Data.Finset.Dedup
import Mathlib.Data.Finset.Card

/-! A window of references: an item is resident while the window holds at least one
reference to it. Only the first reference in and the last one out change who is resident. -/
namespace GraphReorder.Library
variable {α : Type} [DecidableEq α]

/-- How many entries of `row`, with multiplicity, the window `w` keeps resident. -/
def resident (w row : List α) : Nat := row.countP (· ∈ w)

theorem resident_congr {w w' row : List α} (h : ∀ x ∈ row, x ∈ w' ↔ x ∈ w) :
    resident w' row = resident w row :=
  List.countP_congr fun x hx => by simpa using h x hx

theorem resident_insert {w w' row : List α} {p : α} (hp : p ∉ w)
    (h : ∀ x, x ∈ w' ↔ x = p ∨ x ∈ w) : resident w' row = resident w row + row.count p := by
  induction row with
  | nil => rfl
  | cons x row ih =>
    simp only [resident, List.countP_cons, List.count_cons, h, decide_eq_true_eq,
      beq_iff_eq] at ih ⊢
    by_cases hx : x = p
    · subst hx
      simp only [true_or, hp, if_true, if_false]
      omega
    · simp only [hx, false_or, if_false]
      omega

theorem resident_append_new {w row : List α} {p : α} (hp : p ∉ w) :
    resident (w ++ [p]) row = resident w row + row.count p :=
  resident_insert hp fun x => by simp [or_comm]

theorem resident_append_old {w row : List α} {p : α} (hp : p ∈ w) :
    resident (w ++ [p]) row = resident w row :=
  resident_congr fun x _ => by
    simp only [List.mem_append, List.mem_singleton, or_iff_left_iff_imp]
    rintro rfl
    exact hp

theorem resident_cons_new {w row : List α} {p : α} (hp : p ∉ w) :
    resident (p :: w) row = resident w row + row.count p :=
  resident_insert hp fun x => by simp

theorem resident_cons_old {w row : List α} {p : α} (hp : p ∈ w) :
    resident (p :: w) row = resident w row :=
  resident_congr fun x _ => by
    simp only [List.mem_cons, or_iff_right_iff_imp]
    rintro rfl
    exact hp

theorem resident_le_countP {w row : List α} {c : α → Bool} (h : ∀ x ∈ w, c x = true) :
    resident w row ≤ row.countP c :=
  List.countP_mono_left fun x _ hx => h x (by simpa using hx)

theorem card_append_new {w : List α} {p : α} (hp : p ∉ w) :
    (w ++ [p]).toFinset.card = w.toFinset.card + 1 := by
  have hs : (w ++ [p]).toFinset = insert p w.toFinset := by ext; simp
  rw [hs, Finset.card_insert_of_notMem (by simpa using hp)]

theorem card_append_old {w : List α} {p : α} (hp : p ∈ w) :
    (w ++ [p]).toFinset.card = w.toFinset.card := by
  have hs : (w ++ [p]).toFinset = w.toFinset := by
    ext x
    simp only [List.mem_toFinset, List.mem_append, List.mem_singleton, or_iff_left_iff_imp]
    rintro rfl
    exact hp
  rw [hs]

theorem card_cons_new {w : List α} {p : α} (hp : p ∉ w) :
    (p :: w).toFinset.card = w.toFinset.card + 1 := by
  rw [List.toFinset_cons, Finset.card_insert_of_notMem (by simpa using hp)]

theorem card_cons_old {w : List α} {p : α} (hp : p ∈ w) :
    (p :: w).toFinset.card = w.toFinset.card := by
  rw [List.toFinset_cons, Finset.insert_eq_of_mem (by simpa using hp)]

theorem card_append_nodup (w : List α) {row : List α} (h : row.Nodup) :
    (w ++ row).toFinset.card + resident w row = w.toFinset.card + row.length := by
  have hu : (w ++ row).toFinset = w.toFinset ∪ row.toFinset := by ext; simp
  have hi : (w.toFinset ∩ row.toFinset).card = resident w row := by
    rw [resident, List.countP_eq_length_filter, ← List.toFinset_card_of_nodup (h.filter _)]
    congr 1
    ext x
    simp [and_comm]
  rw [hu, ← hi, Finset.card_union_add_card_inter, List.toFinset_card_of_nodup h]

end GraphReorder.Library
