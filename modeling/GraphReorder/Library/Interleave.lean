import Mathlib.Data.List.Induction
import Mathlib.Tactic.Common

/-! Threads that take their steps one after the other, in any order, over any type of state. -/
namespace GraphReorder.Library
variable {S : Type} (step : Nat → S → Option S)

/-- The steps that the threads take in the order of `sched`. -/
def interleave (sched : List Nat) (s : S) : Option S := sched.foldlM (fun s tid => step tid s) s

variable {step} {s t : S} {sched : List Nat}

theorem interleave_append {sched' : List Nat} :
    interleave step (sched ++ sched') s = interleave step sched s >>= interleave step sched' :=
  List.foldlM_append

/-- What every step keeps holds after all of them. -/
theorem interleave_rule (I : List Nat → S → Prop) (hstart : I [] s)
    (hstep : ∀ done tid s s', I done s → step tid s = some s' → I (done ++ [tid]) s')
    (hrun : interleave step sched s = some t) : I sched t := by
  induction sched using List.reverseRecOn generalizing t with
  | nil =>
    cases hrun
    exact hstart
  | append_singleton sched tid ih =>
    rw [interleave_append] at hrun
    obtain ⟨t', hbefore, hlast⟩ := Option.bind_eq_some_iff.mp hrun
    rw [interleave, List.foldlM_cons] at hlast
    obtain ⟨t'', hlast, hnil⟩ := Option.bind_eq_some_iff.mp hlast
    cases hnil
    exact hstep sched tid t' _ (ih hbefore) hlast

/-- Threads that get on with each step take no more of them than there are left. -/
theorem interleave_effort (I : S → Prop) (left : S → Nat)
    (hstep : ∀ tid s s', I s → step tid s = some s' → I s' ∧ left s' < left s) (hs : I s)
    (hrun : interleave step sched s = some t) : I t ∧ sched.length + left t ≤ left s := by
  refine interleave_rule (fun done t => I t ∧ done.length + left t ≤ left s)
    ⟨hs, Nat.le_of_eq (Nat.zero_add (left s))⟩ (fun done tid t t' h hone => ?_) hrun
  obtain ⟨ht, hlen⟩ := h
  obtain ⟨ht', hlt⟩ := hstep tid t t' ht hone
  refine ⟨ht', ?_⟩
  rw [List.length_append, List.length_singleton]
  omega

/-- Threads that get on with each step can run to the end. -/
theorem interleave_finish (I : S → Prop) (left : S → Nat) (finished : S → Prop)
    (hnext : ∀ s, I s → ¬ finished s → ∃ tid s', step tid s = some s')
    (hstep : ∀ tid s s', I s → step tid s = some s' → I s' ∧ left s' < left s) (hs : I s) :
    ∃ sched t, interleave step sched s = some t ∧ I t ∧ finished t := by
  induction hleft : left s using Nat.strongRecOn generalizing s with
  | _ m ih =>
    by_cases hfin : finished s
    · exact ⟨[], s, rfl, hs, hfin⟩
    · obtain ⟨tid, s', hone⟩ := hnext s hs hfin
      obtain ⟨hs', hlt⟩ := hstep tid s s' hs hone
      obtain ⟨sched, t, hrun, ht⟩ := ih (left s') (hleft ▸ hlt) hs' rfl
      refine ⟨tid :: sched, t, ?_, ht⟩
      rw [interleave, List.foldlM_cons, hone]
      exact hrun

section Threads
variable {P : Type} {threads : List P} {tid : Nat} {p q : P}

theorem set_get (h : threads[tid]? = some p) (q : P) (k : Nat) :
    (threads.set tid q)[k]? = if k = tid then some q else threads[k]? := by
  obtain ⟨hlt, _⟩ := List.getElem?_eq_some_iff.mp h
  rw [List.getElem?_set]
  by_cases hk : tid = k
  · rw [if_pos hk, if_pos hlt, if_pos hk.symm]
  · rw [if_neg hk, if_neg (Ne.symm hk)]

theorem forall_set (C : Nat → P → Prop) (hq : C tid q)
    (hold : ∀ k r, k ≠ tid → threads[k]? = some r → C k r) (k : Nat) (r : P)
    (h : (threads.set tid q)[k]? = some r) : C k r := by
  rw [List.getElem?_set] at h
  split_ifs at h with hk
  · cases h
    exact hk ▸ hq
  · exact hold k r (Ne.symm hk) h

end Threads

end GraphReorder.Library
