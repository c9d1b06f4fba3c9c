import GraphReorder.Library.Ranked
import Mathlib.Data.List.Sort

/-! `std::sort`, with the order of equal elements left open. -/
namespace GraphReorder.Library

/-- A comparison that sorts `l`: of two places at most one comes first, and coming no later is
transitive. -/
structure Sortable {α : Type} (less : α → α → Bool) (l : List α) : Prop where
  asymm : l.Pairwise fun a b => less a b = true → less b a = false
  trans : ∀ a b c, less b a = false → less c b = false → less c a = false

/-- `std::sort`: nothing more is known of it than that it sorts. -/
structure StdSort where
  sort {α : Type} (less : α → α → Bool) (l : List α) : List α
  perm {α : Type} {less : α → α → Bool} {l : List α} (h : Sortable less l) : (sort less l).Perm l
  sorted {α : Type} {less : α → α → Bool} {l : List α} (h : Sortable less l) :
    (sort less l).Pairwise fun a b => less b a = false

section Insertion
variable {α : Type} {less : α → α → Bool} {l : List α} {a : α}

def NoLater (less : α → α → Bool) (a b : α) : Prop := less b a = false

instance (less : α → α → Bool) : DecidableRel (NoLater less) :=
  fun a b => inferInstanceAs (Decidable (less b a = false))

theorem insert_sorted (htrans : ∀ a b c, less b a = false → less c b = false → less c a = false)
    (ha : ∀ b ∈ l, less a b = true → less b a = false) (hl : l.Pairwise (NoLater less)) :
    (l.orderedInsert (NoLater less) a).Pairwise (NoLater less) := by
  induction l with
  | nil => exact List.pairwise_singleton _ _
  | cons b l ih =>
    obtain ⟨hb, hl'⟩ := List.pairwise_cons.mp hl
    by_cases hab : NoLater less a b
    · rw [List.orderedInsert_cons_of_le _ l hab]
      refine List.pairwise_cons.mpr ⟨fun c hc => ?_, hl⟩
      cases List.mem_cons.mp hc with
      | inl he => rwa [he]
      | inr hc => exact htrans a b c hab (hb c hc)
    · rw [List.orderedInsert_of_not_le _ l hab]
      have hba : NoLater less b a := by
        rw [NoLater, Bool.eq_false_iff]
        exact fun h => hab (ha b List.mem_cons_self h)
      refine List.pairwise_cons.mpr ⟨fun c hc => ?_,
        ih (fun c hc => ha c (List.mem_cons_of_mem b hc)) hl'⟩
      cases (List.mem_orderedInsert _).mp hc with
      | inl he => rwa [he]
      | inr hc => exact hb c hc

theorem insertionSort_sorted (h : Sortable less l) :
    (l.insertionSort (NoLater less)).Pairwise (NoLater less) := by
  obtain ⟨hasymm, htrans⟩ := h
  induction l with
  | nil => exact List.Pairwise.nil
  | cons a l ih =>
    obtain ⟨ha, hl⟩ := List.pairwise_cons.mp hasymm
    refine insert_sorted htrans (fun b hb => ha b ?_) (ih hl)
    exact (List.perm_insertionSort _ l).mem_iff.mp hb

def StdSort.insertion : StdSort where
  sort less l := l.insertionSort (NoLater less)
  perm _ := List.perm_insertionSort _ _
  sorted := insertionSort_sorted

end Insertion

section Keys
variable {α κ : Type} [LinearOrder κ]

theorem Sortable.rising (key : α → κ) (l : List α) :
    Sortable (fun a b => decide (key a < key b)) l where
  asymm := by
    refine List.Pairwise.imp_of_mem (R := fun _ _ => True) (fun _ _ _ h => ?_) ?_
    · exact decide_eq_false (of_decide_eq_true h).not_gt
    · exact List.pairwise_of_forall fun _ _ => trivial
  trans a b c hab hbc := by
    rw [decide_eq_false_iff_not, not_lt] at *
    exact hab.trans hbc

theorem Sortable.falling (key : α → κ) (l : List α) :
    Sortable (fun a b => decide (key b < key a)) l :=
  ⟨(Sortable.rising (fun a => OrderDual.toDual (key a)) l).asymm,
    (Sortable.rising (fun a => OrderDual.toDual (key a)) l).trans⟩

theorem StdSort.falling (s : StdSort) (key : α → κ) (l : List α) :
    (s.sort (fun a b => decide (key b < key a)) l).Perm l ∧
      Ranked key (s.sort (fun a b => decide (key b < key a)) l) :=
  ⟨s.perm (.falling key l), (s.sorted (.falling key l)).imp fun h =>
    not_lt.mp (of_decide_eq_false h)⟩

theorem StdSort.rising (s : StdSort) (key : α → κ) (l : List α) :
    (s.sort (fun a b => decide (key a < key b)) l).Perm l ∧
      (s.sort (fun a b => decide (key a < key b)) l).Pairwise fun a b => key a ≤ key b :=
  ⟨s.perm (.rising key l), (s.sorted (.rising key l)).imp fun h =>
    not_lt.mp (of_decide_eq_false h)⟩

end Keys

end GraphReorder.Library
