import Mathlib.Data.List.Nodup
import Mathlib.Tactic.Common

/-! Doubly linked lists over numbered nodes: a negative link leads nowhere. `next` and `prev` are
any two functions, so that the lemmas serve whatever memory holds the links. -/
namespace GraphReorder.Library

def firstOr (after : Int) : List Nat → Int
  | [] => after
  | v :: _ => v

def lastOr (before : Int) : List Nat → Int
  | [] => before
  | v :: l => lastOr v l

theorem firstOr_append (after : Int) (l l' : List Nat) :
    firstOr after (l ++ l') = firstOr (firstOr after l') l := by
  cases l with
  | nil => rfl
  | cons v l => rfl

theorem lastOr_append (before : Int) (l l' : List Nat) :
    lastOr before (l ++ l') = lastOr (lastOr before l) l' := by
  induction l generalizing before with
  | nil => rfl
  | cons v l ih => exact ih v

theorem lastOr_concat (before : Int) (l : List Nat) (v : Nat) :
    lastOr before (l ++ [v]) = v := by
  rw [lastOr_append]
  rfl

theorem firstOr_mem (after : Int) {l : List Nat} (h : l ≠ []) : ∃ v ∈ l, firstOr after l = v := by
  cases l with
  | nil => exact absurd rfl h
  | cons v l => exact ⟨v, List.mem_cons_self, rfl⟩

theorem lastOr_mem (before : Int) {l : List Nat} (h : l ≠ []) :
    ∃ v ∈ l, lastOr before l = v := by
  induction l generalizing before with
  | nil => exact absurd rfl h
  | cons v l ih =>
    cases l with
    | nil => exact ⟨v, List.mem_cons_self, rfl⟩
    | cons w l =>
      obtain ⟨x, hx, he⟩ := ih v (List.cons_ne_nil w l)
      exact ⟨x, List.mem_cons_of_mem v hx, he⟩

theorem lastOr_eq_of_ne_nil (before before' : Int) {l : List Nat} (h : l ≠ []) :
    lastOr before l = lastOr before' l := by
  cases l with
  | nil => exact absurd rfl h
  | cons v l => rfl

theorem firstOr_eq_of_ne_nil (after after' : Int) {l : List Nat} (h : l ≠ []) :
    firstOr after l = firstOr after' l := by
  cases l with
  | nil => exact absurd rfl h
  | cons v l => rfl

theorem firstOr_lt {n : Nat} {l : List Nat} (h : ∀ v ∈ l, v < n) : firstOr (-1) l < n := by
  by_cases hnil : l = []
  · rw [hnil, firstOr]
    omega
  · obtain ⟨x, hx, hfx⟩ := firstOr_mem (-1) hnil
    rw [hfx]
    exact Int.ofNat_lt.mpr (h x hx)

theorem lastOr_lt {n : Nat} {l : List Nat} (h : ∀ v ∈ l, v < n) : lastOr (-1) l < n := by
  by_cases hnil : l = []
  · rw [hnil, lastOr]
    omega
  · obtain ⟨x, hx, hlx⟩ := lastOr_mem (-1) hnil
    rw [hlx]
    exact Int.ofNat_lt.mpr (h x hx)

theorem ne_firstOr {after : Int} {l : List Nat} {w : Nat} (hw : w ∉ l) (hafter : after < 0) :
    (w : Int) ≠ firstOr after l := by
  intro he
  by_cases hnil : l = []
  · rw [hnil] at he
    change (w : Int) = after at he
    omega
  · obtain ⟨x, hx, hfx⟩ := firstOr_mem after hnil
    exact hw (Int.ofNat_inj.mp (he.trans hfx) ▸ hx)

theorem ne_lastOr {before : Int} {l : List Nat} {w : Nat} (hw : w ∉ l) (hbefore : before < 0) :
    (w : Int) ≠ lastOr before l := by
  intro he
  by_cases hnil : l = []
  · rw [hnil] at he
    change (w : Int) = before at he
    omega
  · obtain ⟨x, hx, hlx⟩ := lastOr_mem before hnil
    exact hw (Int.ofNat_inj.mp (he.trans hlx) ▸ hx)

/-- The nodes of `l` are linked to each other in both directions, the first one back to `before`
and the last one on to `after`. -/
def Segment (next prev : Nat → Int) (before : Int) : List Nat → Int → Prop
  | [], _ => True
  | v :: l, after => prev v = before ∧ next v = firstOr after l ∧ Segment next prev v l after

namespace Segment
variable {next prev next' prev' : Nat → Int} {before after : Int} {l l' : List Nat} {v : Nat}

theorem append : Segment next prev before (l ++ l') after ↔
    Segment next prev before l (firstOr after l') ∧
      Segment next prev (lastOr before l) l' after := by
  induction l generalizing before with
  | nil => simp [Segment, lastOr]
  | cons v l ih => simp only [List.cons_append, Segment, lastOr, ih, firstOr_append, and_assoc]

theorem congr (h : Segment next prev before l after) (hn : ∀ v ∈ l, next' v = next v)
    (hp : ∀ v ∈ l, prev' v = prev v) : Segment next' prev' before l after := by
  induction l generalizing before with
  | nil => trivial
  | cons v l ih =>
    obtain ⟨hv, hv', hrest⟩ := h
    refine ⟨(hp v List.mem_cons_self).trans hv, (hn v List.mem_cons_self).trans hv', ?_⟩
    exact ih hrest (fun w hw => hn w (List.mem_cons_of_mem v hw))
      fun w hw => hp w (List.mem_cons_of_mem v hw)

theorem enter (h : Segment next prev before l after) (hd : l.Nodup) {before' : Int}
    (hn : ∀ v ∈ l, next' v = next v)
    (hp : ∀ v ∈ l, prev' v = if (v : Int) = firstOr after l then before' else prev v) :
    Segment next' prev' before' l after := by
  cases l with
  | nil => trivial
  | cons v l =>
    obtain ⟨hv, hv', hrest⟩ := h
    refine ⟨(hp v List.mem_cons_self).trans (if_pos rfl), (hn v List.mem_cons_self).trans hv', ?_⟩
    refine hrest.congr (fun w hw => hn w (List.mem_cons_of_mem v hw)) fun w hw => ?_
    have hne : (w : Int) ≠ v := fun he =>
      (List.nodup_cons.mp hd).1 (Int.ofNat_inj.mp he ▸ hw)
    exact (hp w (List.mem_cons_of_mem v hw)).trans (if_neg hne)

theorem leave (h : Segment next prev before l after) (hd : l.Nodup) {after' : Int}
    (hn : ∀ v ∈ l, next' v = if (v : Int) = lastOr before l then after' else next v)
    (hp : ∀ v ∈ l, prev' v = prev v) : Segment next' prev' before l after' := by
  induction l generalizing before with
  | nil => trivial
  | cons v l ih =>
    obtain ⟨hv, hv', hrest⟩ := h
    obtain ⟨hvl, hdl⟩ := List.nodup_cons.mp hd
    refine ⟨(hp v List.mem_cons_self).trans hv, ?_, ih hrest hdl
      (fun w hw => hn w (List.mem_cons_of_mem v hw)) fun w hw => hp w (List.mem_cons_of_mem v hw)⟩
    rw [hn v List.mem_cons_self]
    cases l with
    | nil => exact if_pos rfl
    | cons w l =>
      obtain ⟨x, hx, he⟩ := lastOr_mem v (List.cons_ne_nil w l)
      have hne : (v : Int) ≠ lastOr before (v :: w :: l) := fun heq =>
        hvl (Int.ofNat_inj.mp (heq.trans he) ▸ hx)
      rw [if_neg hne, hv']
      rfl

theorem middle (h : Segment next prev before (l ++ v :: l') after) :
    prev v = lastOr before l ∧ next v = firstOr after l' := by
  obtain ⟨_, hv, hv', _⟩ := append.mp h
  exact ⟨hv, hv'⟩

theorem next_last (h : Segment next prev before l after) (hl : l ≠ []) {x : Nat}
    (hx : lastOr before l = x) : next x = after := by
  induction l generalizing before with
  | nil => exact absurd rfl hl
  | cons v l ih =>
    obtain ⟨_, hv, hrest⟩ := h
    cases l with
    | nil =>
      obtain rfl : v = x := Int.ofNat_inj.mp hx
      exact hv
    | cons w l => exact ih hrest (List.cons_ne_nil w l) hx

theorem last_of_next (h : Segment next prev before (l ++ l') after) (hd : (l ++ l').Nodup)
    (hafter : after < 0) {x : Nat} (hx : x ∈ l) (hn : next x = firstOr after l') :
    lastOr before l = x := by
  obtain ⟨C, D, rfl⟩ := List.append_of_mem hx
  rw [List.append_assoc, List.cons_append] at h
  obtain ⟨_, hnext⟩ := middle h
  cases D with
  | nil => exact lastOr_concat before C x
  | cons d D =>
    have hdl' : d ∉ l' := fun hd' =>
      (List.nodup_append.mp hd).2.2 d (by simp) d hd' rfl
    exact absurd (hnext.symm.trans hn) (ne_firstOr hdl' hafter)

theorem unlink (h : Segment next prev before (l ++ v :: l') after) (hd : (l ++ v :: l').Nodup)
    (hn : ∀ w ∈ l ++ l', next' w = if (w : Int) = lastOr before l then firstOr after l' else next w)
    (hp : ∀ w ∈ l ++ l', prev' w = if (w : Int) = firstOr after l' then lastOr before l else prev w)
    (hbefore : before < 0) (hafter : after < 0) : Segment next' prev' before (l ++ l') after := by
  obtain ⟨hl, _, _, hl'⟩ := append.mp h
  obtain ⟨hdl, hdl', hdis⟩ := List.nodup_append.mp hd
  refine append.mpr ⟨?_, ?_⟩
  · refine hl.leave hdl (fun w hw => hn w (List.mem_append_left _ hw)) fun w hw => ?_
    have hwl' : w ∉ l' := fun hw' => hdis w hw w (List.mem_cons_of_mem v hw') rfl
    exact (hp w (List.mem_append_left _ hw)).trans (if_neg (ne_firstOr hwl' hafter))
  · refine hl'.enter (List.nodup_cons.mp hdl').2 (fun w hw => ?_)
      fun w hw => hp w (List.mem_append_right _ hw)
    have hwl : w ∉ l := fun hw' => hdis w hw' w (List.mem_cons_of_mem v hw) rfl
    exact (hn w (List.mem_append_right _ hw)).trans (if_neg (ne_lastOr hwl hbefore))

theorem insert (h : Segment next prev before (l ++ l') after) (hd : (l ++ v :: l').Nodup)
    (hv : next' v = firstOr after l') (hv' : prev' v = lastOr before l)
    (hn : ∀ w ∈ l ++ l', next' w = if (w : Int) = lastOr before l then (v : Int) else next w)
    (hp : ∀ w ∈ l ++ l', prev' w = if (w : Int) = firstOr after l' then (v : Int) else prev w)
    (hbefore : before < 0) (hafter : after < 0) :
    Segment next' prev' before (l ++ v :: l') after := by
  obtain ⟨hl, hl'⟩ := append.mp h
  obtain ⟨hdl, hdl', hdis⟩ := List.nodup_append.mp hd
  refine append.mpr ⟨?_, hv', hv, ?_⟩
  · refine hl.leave hdl (fun w hw => hn w (List.mem_append_left _ hw)) fun w hw => ?_
    have hwl' : w ∉ l' := fun hw' => hdis w hw w (List.mem_cons_of_mem v hw') rfl
    exact (hp w (List.mem_append_left _ hw)).trans (if_neg (ne_firstOr hwl' hafter))
  · refine hl'.enter (List.nodup_cons.mp hdl').2 (fun w hw => ?_)
      fun w hw => hp w (List.mem_append_right _ hw)
    have hwl : w ∉ l := fun hw' => hdis w hw' w (List.mem_cons_of_mem v hw) rfl
    exact (hn w (List.mem_append_right _ hw)).trans (if_neg (ne_lastOr hwl hbefore))

theorem row {a n : Nat} (hp : ∀ i, a ≤ i → i < a + n → prev i = (i : Int) - 1)
    (hn : ∀ i, a ≤ i → i < a + n → next i = if i + 1 = a + n then -1 else (i : Int) + 1) :
    Segment next prev ((a : Int) - 1) (List.range' a n) (-1) := by
  induction n generalizing a with
  | zero => trivial
  | succ n ih =>
    have hrest := ih (a := a + 1) (fun i hi hlt => hp i (by omega) (by omega))
      fun i hi hlt => by rw [hn i (by omega) (by omega), Nat.add_right_comm a 1 n]; rfl
    rw [List.range'_succ]
    refine ⟨hp a (Nat.le_refl a) (by omega), ?_, by simpa using hrest⟩
    rw [hn a (Nat.le_refl a) (by omega)]
    cases n with
    | zero => exact if_pos rfl
    | succ n =>
      rw [if_neg (by omega), List.range'_succ]
      rfl

end Segment

end GraphReorder.Library
