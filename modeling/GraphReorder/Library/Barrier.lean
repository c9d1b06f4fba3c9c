import Mathlib.Algebra.BigOperators.Group.List.Basic
import Mathlib.Algebra.GroupWithZero.Nat
import Mathlib.Data.List.Basic
import Mathlib.Tactic.Common

/-! A barrier that the threads of a program meet at, over any type of what a thread is at: the last
one that arrives lets all of them go on. -/
namespace GraphReorder.Library
variable {P : Type} (waiting : P → Bool) (resume : Nat → P → P)

def arrive (t : Nat) (p : P) (threads : List P) : List P :=
  if (threads.set t p).countP waiting = threads.length then (threads.set t p).mapIdx resume
  else threads.set t p

section Arrive
variable (t : Nat) (p : P) (threads : List P)

theorem arrive_cases :
    ((∀ q ∈ threads.set t p, waiting q = true) ∧
      arrive waiting resume t p threads = (threads.set t p).mapIdx resume) ∨
    ((∃ q ∈ threads.set t p, waiting q = false) ∧
      arrive waiting resume t p threads = threads.set t p) := by
  have hlen : (threads.set t p).length = threads.length := List.length_set
  have hcount : (threads.set t p).countP waiting = threads.length ↔
      ∀ q ∈ threads.set t p, waiting q = true := by rw [← hlen, List.countP_eq_length]
  rw [arrive]
  split_ifs with hall
  · exact .inl ⟨hcount.mp hall, rfl⟩
  · refine .inr ⟨?_, rfl⟩
    by_contra hno
    refine hall (hcount.mpr fun q hq => ?_)
    by_contra hw
    exact hno ⟨q, hq, Bool.eq_false_iff.mpr hw⟩

end Arrive

def effort (left : Nat → P → Nat) (threads : List P) : Nat := (threads.mapIdx left).sum

section Effort
variable {left : Nat → P → Nat} {t : Nat} {p q : P} {threads : List P}

theorem effort_set (left : Nat → P → Nat) (h : threads[t]? = some q) (p : P) :
    effort left (threads.set t p) + left t q = effort left threads + left t p := by
  induction threads generalizing t left with
  | nil => cases h
  | cons x threads ih =>
    cases t with
    | zero =>
      obtain rfl : x = q := Option.some.inj h
      simp only [effort, List.set_cons_zero, List.mapIdx_cons, List.sum_cons]
      omega
    | succ t =>
      have hih := ih (fun i => left (i + 1)) h
      simp only [effort, List.set_cons_succ, List.mapIdx_cons, List.sum_cons] at hih ⊢
      omega

theorem effort_le {left' : Nat → P → Nat} {c : Nat} (hle : ∀ t p, left' t p ≤ left t p + c)
    (threads : List P) : effort left' threads ≤ effort left threads + c * threads.length := by
  induction threads generalizing left left' with
  | nil => exact Nat.zero_le _
  | cons x threads ih =>
    have hih := @ih (fun i => left (i + 1)) (fun i => left' (i + 1)) fun t => hle (t + 1)
    have hx := hle 0 x
    simp only [effort, List.mapIdx_cons, List.sum_cons, List.length_cons, Nat.mul_succ] at hih ⊢
    omega

theorem effort_arrive {resume : Nat → P → P} (waiting : P → Bool)
    (hkeep : ∀ t q, left t (resume t q) = left t q) (h : threads[t]? = some q) (p : P) :
    effort left (arrive waiting resume t p threads) + left t q =
      effort left threads + left t p := by
  rw [← effort_set left h p]
  obtain ⟨_, harrive⟩ | ⟨_, harrive⟩ := arrive_cases waiting resume t p threads
  · rw [harrive, effort, effort]
    congr 2
    refine List.ext_getElem (by simp) fun i hi hi' => ?_
    simp only [List.getElem_mapIdx]
    exact hkeep i _
  · rw [harrive]

end Effort

end GraphReorder.Library
