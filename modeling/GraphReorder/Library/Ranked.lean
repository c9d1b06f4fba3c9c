import Mathlib.Data.Int.Order.Basic
import Mathlib.Data.List.Basic
import Mathlib.Data.List.Perm.Basic
import Mathlib.Order.Lattice

/-! Lists in falling order of a key, equal keys in order of arrival. -/
namespace GraphReorder.Library
variable {α κ : Type} [LinearOrder κ] {key : α → κ} {l : List α} {v : α} {c d : κ}

def Ranked (key : α → κ) (l : List α) : Prop := l.Pairwise fun u v => key v ≤ key u

def level (key : α → κ) (c : κ) (l : List α) : List α := l.filter (key · = c)

theorem mem_level : v ∈ level key c l ↔ v ∈ l ∧ key v = c := by
  rw [level, List.mem_filter, decide_eq_true_iff]

theorem level_append (l' : List α) : level key c (l ++ l') = level key c l ++ level key c l' :=
  List.filter_append ..

theorem level_eq_self (h : ∀ u ∈ l, key u = c) : level key c l = l :=
  List.filter_eq_self.mpr fun u hu => decide_eq_true (h u hu)

theorem level_eq_nil (h : ∀ u ∈ l, key u ≠ c) : level key c l = [] :=
  List.filter_eq_nil_iff.mpr fun u hu => by simpa using h u hu

theorem Ranked.split (h : Ranked key l) (c : κ) :
    l.filter (c < key ·) ++ (level key c l ++ l.filter (key · < c)) = l := by
  induction l with
  | nil => rfl
  | cons u l ih =>
    obtain ⟨hu, hl⟩ := List.pairwise_cons.mp h
    have hih := ih hl
    simp only [level, List.filter_cons, decide_eq_true_eq] at hih ⊢
    rcases lt_trichotomy (key u) c with hlt | heq | hgt
    · have hrest (w : α) (hw : w ∈ l) : key w < c := (hu w hw).trans_lt hlt
      rw [if_neg hlt.not_gt, if_neg hlt.ne, if_pos hlt,
        List.filter_eq_nil_iff.mpr fun w hw => by simpa using (hrest w hw).le,
        List.filter_eq_nil_iff.mpr fun w hw => by simpa using (hrest w hw).ne,
        List.filter_eq_self.mpr fun w hw => by simpa using hrest w hw]
      rfl
    · have hrest (w : α) (hw : w ∈ l) : key w ≤ c := (hu w hw).trans heq.le
      have hnil : l.filter (c < key ·) = [] :=
        List.filter_eq_nil_iff.mpr fun w hw => by simpa using hrest w hw
      rw [hnil] at hih ⊢
      rw [if_neg heq.not_gt, if_pos heq, if_neg heq.not_lt]
      exact congrArg (u :: ·) hih
    · rw [if_pos hgt, if_neg hgt.ne', if_neg hgt.not_gt]
      exact congrArg (u :: ·) hih

theorem Ranked.parts (h : Ranked key l) (c : κ) :
    l.filter (c ≤ key ·) ++ l.filter (key · < c) = l := by
  induction l with
  | nil => rfl
  | cons u l ih =>
    obtain ⟨hu, hl⟩ := List.pairwise_cons.mp h
    simp only [List.filter_cons, decide_eq_true_eq]
    by_cases hc : c ≤ key u
    · rw [if_pos hc, if_neg hc.not_gt]
      exact congrArg (u :: ·) (ih hl)
    · have hlt := not_le.mp hc
      have hrest (w : α) (hw : w ∈ l) : key w < c := (hu w hw).trans_lt hlt
      rw [if_neg hc, if_pos hlt,
        List.filter_eq_nil_iff.mpr fun w hw => by simpa using hrest w hw,
        List.filter_eq_self.mpr fun w hw => by simpa using hrest w hw]
      rfl

theorem Ranked.around {l' : List α} (h : Ranked key (l ++ v :: l')) :
    l = l.filter (key v < key ·) ++ level key (key v) l ∧
      l' = level key (key v) l' ++ l'.filter (key · < key v) := by
  obtain ⟨hl, hl', hcross⟩ := List.pairwise_append.mp h
  obtain ⟨hv, hl'⟩ := List.pairwise_cons.mp hl'
  constructor
  · have hnil : l.filter (key · < key v) = [] :=
      List.filter_eq_nil_iff.mpr fun u hu => by
        simpa using hcross u hu v List.mem_cons_self
    have hsplit := Ranked.split hl (key v)
    rw [hnil, List.append_nil] at hsplit
    exact hsplit.symm
  · have hnil : l'.filter (key v < key ·) = [] :=
      List.filter_eq_nil_iff.mpr fun u hu => by simpa using hv u hu
    have hsplit := Ranked.split hl' (key v)
    rw [hnil, List.nil_append] at hsplit
    exact hsplit.symm

theorem Ranked.first (h : Ranked key (v :: l)) {u : α} (hu : u ∈ v :: l) : key u ≤ key v := by
  cases List.mem_cons.mp hu with
  | inl he => rw [he]
  | inr hu => exact (List.pairwise_cons.mp h).1 u hu

theorem Ranked.tail (h : Ranked key (v :: l)) : Ranked key l := (List.pairwise_cons.mp h).2

section Requeue
variable [DecidableEq α]

/-- `v` leaves its place and queues up behind all keys from `c` on. -/
def requeue (key : α → κ) (c : κ) (v : α) (l : List α) : List α :=
  (l.erase v).filter (c ≤ key ·) ++ v :: (l.erase v).filter (key · < c)

theorem Ranked.erase (h : Ranked key l) (v : α) : Ranked key (l.erase v) :=
  h.sublist List.erase_sublist

theorem requeue_perm (key : α → κ) (c : κ) (hv : v ∈ l) : (requeue key c v l).Perm l := by
  have hsplit : ((l.erase v).filter (c ≤ key ·) ++ (l.erase v).filter (key · < c)).Perm
      (l.erase v) := by
    have h := List.filter_append_perm (fun u => decide (c ≤ key u)) (l.erase v)
    simpa only [← decide_not, not_le] using h
  exact (List.perm_middle.trans (hsplit.cons v)).trans (List.perm_cons_erase hv).symm

theorem mem_requeue (hv : v ∈ l) {u : α} : u ∈ requeue key c v l ↔ u ∈ l :=
  (requeue_perm key c hv).mem_iff

/-- Up by one step: only those of the own level that stand before `v` are passed. -/
theorem requeue_succ {key : α → Int} {A B : List α} (hd : (A ++ v :: B).Nodup)
    (h : Ranked key (A ++ v :: B)) : requeue key (key v + 1) v (A ++ v :: B) =
      A.filter (key v < key ·) ++ v :: (level key (key v) A ++ B) := by
  obtain ⟨hA, _⟩ := h.around
  obtain ⟨_, hB, hcross⟩ := List.pairwise_append.mp h
  have hv : v ∉ A := fun hv => (List.nodup_append.mp hd).2.2 v hv v List.mem_cons_self rfl
  have hup (u : α) (hu : u ∈ A) : key v ≤ key u := hcross u hu v List.mem_cons_self
  have hdown (u : α) (hu : u ∈ B) : key u ≤ key v := (List.pairwise_cons.mp hB).1 u hu
  have hnone : B.filter (key v + 1 ≤ key ·) = [] :=
    List.filter_eq_nil_iff.mpr fun u hu => by
      have := hdown u hu
      rw [decide_eq_true_eq]
      omega
  have hall : B.filter (key · < key v + 1) = B :=
    List.filter_eq_self.mpr fun u hu => by
      have := hdown u hu
      exact decide_eq_true (by omega)
  have hhigh : A.filter (key v + 1 ≤ key ·) = A.filter (key v < key ·) := rfl
  have hlow : A.filter (key · < key v + 1) = level key (key v) A :=
    List.filter_congr fun u hu => by
      have := hup u hu
      exact decide_eq_decide.mpr (by omega)
  rw [requeue, List.erase_append_right _ hv, List.erase_cons_head, List.filter_append,
    List.filter_append, hnone, hall, hhigh, hlow, List.append_nil]

section Requeued
variable {key' : α → κ} (hd : l.Nodup) (hkey : ∀ u, key' u = if u = v then c else key u)
include hd hkey

omit [LinearOrder κ] in
theorem key_erase {u : α} (hu : u ∈ l.erase v) : key' u = key u := by
  rw [hkey, if_neg fun he => ((List.Nodup.mem_erase_iff hd).mp hu).1 he]

theorem Ranked.requeue (h : Ranked key l) : Ranked key' (requeue key c v l) := by
  have hsub (p : α → Bool) {u : α} (hu : u ∈ (l.erase v).filter p) : key' u = key u :=
    key_erase hd hkey (List.mem_filter.mp hu).1
  have hpart (p : α → Bool) : Ranked key' ((l.erase v).filter p) :=
    ((h.erase v).sublist List.filter_sublist).imp_of_mem fun hu hw huw => by
      rwa [hsub p hu, hsub p hw]
  have hv : key' v = c := (hkey v).trans (if_pos rfl)
  refine List.pairwise_append.mpr ⟨hpart _, List.pairwise_cons.mpr ⟨fun u hu => ?_, hpart _⟩,
    fun u hu w hw => ?_⟩
  · have hlt := (List.mem_filter.mp hu).2
    rw [hsub _ hu, hv]
    exact (of_decide_eq_true hlt).le
  · have hle : c ≤ key u := of_decide_eq_true (List.mem_filter.mp hu).2
    rw [hsub _ hu]
    cases List.mem_cons.mp hw with
    | inl he => rwa [he, hv]
    | inr hw =>
      have hlt : key w < c := of_decide_eq_true (List.mem_filter.mp hw).2
      rw [hsub _ hw]
      exact hlt.le.trans hle

theorem level_requeue (d : κ) : level key' d (requeue key c v l) =
    if d = c then level key c (l.erase v) ++ [v] else level key d (l.erase v) := by
  have hsub (p : α → Bool) : level key' d ((l.erase v).filter p) =
      (level key d (l.erase v)).filter p := by
    rw [level, level, List.filter_filter, List.filter_filter]
    refine List.filter_congr fun u hu => ?_
    rw [key_erase hd hkey hu, Bool.and_comm]
  have hv : key' v = c := (hkey v).trans (if_pos rfl)
  have hcons : level key' d [v] = if d = c then [v] else [] := by
    by_cases hdc : d = c
    · rw [if_pos hdc]
      exact level_eq_self fun u hu => by rw [List.mem_singleton.mp hu, hv, hdc]
    · rw [if_neg hdc]
      exact level_eq_nil fun u hu => by rw [List.mem_singleton.mp hu, hv]; exact Ne.symm hdc
  have hmem {u : α} (hu : u ∈ level key d (l.erase v)) : key u = d := (mem_level.mp hu).2
  rw [GraphReorder.Library.requeue, ← List.singleton_append, level_append, level_append, hcons, hsub,
    hsub]
  rcases lt_trichotomy d c with hlt | heq | hgt
  · rw [if_neg hlt.ne, if_neg hlt.ne,
      List.filter_eq_nil_iff.mpr fun u hu => by simpa [hmem hu] using hlt,
      List.filter_eq_self.mpr fun u hu => by simpa [hmem hu] using hlt]
    rfl
  · rw [if_pos heq, if_pos heq,
      List.filter_eq_self.mpr fun u hu => by simpa [hmem hu] using heq.ge,
      List.filter_eq_nil_iff.mpr fun u hu => by simpa [hmem hu] using heq.ge, heq, List.append_nil]
  · rw [if_neg hgt.ne', if_neg hgt.ne',
      List.filter_eq_self.mpr fun u hu => by simpa [hmem hu] using hgt.le,
      List.filter_eq_nil_iff.mpr fun u hu => by simpa [hmem hu] using hgt.le]
    simp

end Requeued

end Requeue

end GraphReorder.Library
