import Mathlib.Data.List.Basic

/-! A map as the list of its assignments, newest first. -/
namespace GraphReorder.Library

def Table (κ υ : Type) : Type := List (κ × υ)

namespace Table
variable {κ υ : Type}

def empty : Table κ υ := []

def assign (t : Table κ υ) (k : κ) (v : υ) : Table κ υ := (k, v) :: t

variable [DecidableEq κ]

def find? : Table κ υ → κ → Option υ
  | [], _ => none
  | (k', v) :: t, k => if k = k' then some v else find? t k

/-- Indexing that inserts a default value when the key is missing. -/
def access [Inhabited υ] (t : Table κ υ) (k : κ) : υ × Table κ υ :=
  match t.find? k with
  | some v => (v, t)
  | none => (default, t.assign k default)

@[simp] theorem find?_empty (k : κ) : (empty : Table κ υ).find? k = none := rfl

theorem find?_assign (t : Table κ υ) (k k' : κ) (v : υ) :
    (t.assign k v).find? k' = if k' = k then some v else t.find? k' := rfl

variable [Inhabited υ]

theorem access_fst (t : Table κ υ) (k : κ) : (t.access k).1 = (t.find? k).getD default := by
  unfold access
  cases t.find? k <;> rfl

/-- What an inserting look-up leaves behind reads the same as before. -/
theorem find?_access (t : Table κ υ) (k k' : κ) :
    ((t.access k).2.find? k').getD default = (t.find? k').getD default := by
  unfold access
  cases h : t.find? k with
  | some v => rfl
  | none =>
    simp only [find?_assign]
    split_ifs with hk
    · subst hk
      simp [h]
    · rfl

end Table

theorem mapM_eq_some {α β : Type} {f : α → Option β} {l : List α} {out : List β} :
    l.mapM f = some out ↔ l.map f = out.map some := by
  induction l generalizing out with
  | nil => cases out <;> simp
  | cons x l ih =>
    cases hx : f x with
    | none => cases out <;> simp [List.mapM_cons, hx]
    | some y =>
      cases out with
      | nil => cases hl : l.mapM f <;> simp [List.mapM_cons, hx, hl]
      | cons z out =>
        cases hl : l.mapM f with
        | none =>
          have hne : l.map f ≠ out.map some := fun h => by simp [ih.mpr h] at hl
          simp [List.mapM_cons, hx, hl, hne]
        | some ys =>
          have hiff : ys = out ↔ l.map f = out.map some := by
            rw [← ih, hl, Option.some.injEq]
          simp [List.mapM_cons, hx, hl, hiff]

theorem mapM_of_forall {α β : Type} {f : α → Option β} {g : α → β} {l : List α}
    (h : ∀ x ∈ l, f x = some (g x)) : l.mapM f = some (l.map g) := by
  rw [mapM_eq_some, List.map_map]
  exact List.map_congr_left h

theorem forall_of_mapM {α β : Type} {f : α → Option β} {l : List α} {out : List β}
    (h : l.mapM f = some out) : out.length = l.length ∧ ∀ x ∈ l, ∃ y, f x = some y := by
  rw [mapM_eq_some] at h
  have hlen := congrArg List.length h
  refine ⟨by simpa using hlen.symm, fun x hx => ?_⟩
  have hmem : f x ∈ out.map some := by
    rw [← h]
    exact List.mem_map_of_mem hx
  obtain ⟨y, _, hy⟩ := List.mem_map.mp hmem
  exact ⟨y, hy.symm⟩

end GraphReorder.Library
