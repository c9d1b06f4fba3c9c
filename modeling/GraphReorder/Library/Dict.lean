import Mathlib.Data.Finset.Card
import GraphReorder.Library.Table

/-! A dictionary that keeps its keys in the order of their first assignment. -/
namespace GraphReorder.Library

structure Dict (κ υ : Type) where
  items : List (κ × υ)
  nodup : (items.map Prod.fst).Nodup

namespace Dict
variable {κ υ : Type}

def empty : Dict κ υ := ⟨[], List.nodup_nil⟩

def keys (d : Dict κ υ) : List κ := d.items.map Prod.fst

def len (d : Dict κ υ) : Nat := d.items.length

variable [DecidableEq κ]

def get? (d : Dict κ υ) (k : κ) : Option υ := Table.find? d.items k

def setItems (k : κ) (v : υ) : List (κ × υ) → List (κ × υ)
  | [] => [(k, v)]
  | (k', v') :: items => if k' = k then (k, v) :: items else (k', v') :: setItems k v items

theorem keys_setItems (k : κ) (v : υ) (items : List (κ × υ)) :
    (setItems k v items).map Prod.fst =
      if k ∈ items.map Prod.fst then items.map Prod.fst else items.map Prod.fst ++ [k] := by
  induction items with
  | nil => rfl
  | cons x items ih =>
    by_cases hk : x.1 = k
    · simp [setItems, hk]
    · have hk' : ¬ k = x.1 := fun h => hk h.symm
      by_cases hmem : k ∈ items.map Prod.fst
      · rw [if_pos hmem] at ih
        simp only [setItems, if_neg hk, List.map_cons, ih, if_pos (List.mem_cons_of_mem _ hmem)]
      · rw [if_neg hmem] at ih
        have hmem' : k ∉ x.1 :: items.map Prod.fst := List.not_mem_cons_of_ne_of_not_mem hk' hmem
        simp only [setItems, if_neg hk, List.map_cons, ih, if_neg hmem', List.cons_append]

theorem find?_cons (k k' : κ) (v : υ) (items : List (κ × υ)) :
    Table.find? ((k, v) :: items) k' = if k' = k then some v else Table.find? items k' := rfl

theorem find?_setItems (k k' : κ) (v : υ) (items : List (κ × υ)) :
    Table.find? (setItems k v items) k' = if k' = k then some v else Table.find? items k' := by
  induction items with
  | nil => rfl
  | cons x items ih =>
    obtain ⟨a, b⟩ := x
    by_cases ha : a = k
    · subst ha
      rw [setItems, if_pos rfl, find?_cons, find?_cons]
      by_cases hk : k' = a
      · rw [if_pos hk, if_pos hk]
      · rw [if_neg hk, if_neg hk, if_neg hk]
    · rw [setItems, if_neg ha, find?_cons, find?_cons, ih]
      by_cases hk : k' = a
      · rw [if_pos hk, if_pos hk, if_neg (by rw [hk]; exact ha)]
      · rw [if_neg hk, if_neg hk]

def set (d : Dict κ υ) (k : κ) (v : υ) : Dict κ υ where
  items := setItems k v d.items
  nodup := by
    rw [keys_setItems]
    by_cases hk : k ∈ d.items.map Prod.fst
    · rw [if_pos hk]
      exact d.nodup
    · rw [if_neg hk]
      exact d.nodup.append (List.nodup_singleton k) (List.disjoint_singleton.mpr hk)

def append (d : Dict κ (List υ)) (k : κ) (v : υ) : Dict κ (List υ) :=
  d.set k ((d.get? k).getD [] ++ [v])

@[simp] theorem get?_empty (k : κ) : (empty : Dict κ υ).get? k = none := rfl

theorem get?_set (d : Dict κ υ) (k k' : κ) (v : υ) :
    (d.set k v).get? k' = if k' = k then some v else d.get? k' :=
  find?_setItems k k' v d.items

theorem find?_of_mem {items : List (κ × υ)} (hnodup : (items.map Prod.fst).Nodup) {k : κ} {v : υ}
    (h : (k, v) ∈ items) : Table.find? items k = some v := by
  induction items with
  | nil => cases h
  | cons x items ih =>
    obtain ⟨hx, hrest⟩ := List.nodup_cons.mp hnodup
    cases List.mem_cons.mp h with
    | inl heq =>
      subst heq
      exact if_pos rfl
    | inr hmem =>
      have hne : k ≠ x.1 := fun he => hx (he ▸ List.mem_map_of_mem hmem)
      rw [← Prod.mk.eta (p := x), find?_cons, if_neg hne]
      exact ih hrest hmem

theorem get?_of_mem {d : Dict κ υ} {k : κ} {v : υ} (h : (k, v) ∈ d.items) : d.get? k = some v :=
  find?_of_mem d.nodup h

theorem mem_keys {d : Dict κ υ} {k : κ} : k ∈ d.keys ↔ ∃ v, d.get? k = some v := by
  rw [keys, get?]
  induction d.items with
  | nil => simp [Table.find?]
  | cons x items ih =>
    obtain ⟨a, b⟩ := x
    rw [find?_cons, List.map_cons, List.mem_cons, ih]
    by_cases hk : k = a
    · simp [hk]
    · simp [hk]

theorem mem_keys_set {d : Dict κ υ} {k k' : κ} {v : υ} :
    k' ∈ (d.set k v).keys ↔ k' = k ∨ k' ∈ d.keys := by
  rw [mem_keys, mem_keys, get?_set]
  by_cases hk : k' = k
  · simp [hk]
  · simp [hk]

theorem len_of_keys {d : Dict κ υ} {s : Finset κ} (h : ∀ k, k ∈ d.keys ↔ k ∈ s) :
    d.len = s.card := by
  have hs : d.keys.toFinset = s := by
    ext k
    rw [List.mem_toFinset, h]
  have hcard : d.keys.toFinset.card = d.keys.length := List.toFinset_card_of_nodup d.nodup
  rw [← hs, hcard, keys, List.length_map, len]

end Dict

end GraphReorder.Library
