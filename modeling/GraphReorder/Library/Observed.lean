import Mathlib.Order.Defs.PartialOrder
import GraphReorder.Library.Memory

/-! Stateful computations that may fault and that report observations on the way, with a
total-correctness triple: no fault, every observation good, the state only ever growing in
a preorder, and a result in the postcondition. -/
namespace GraphReorder.Library

def Comp (σ ε α : Type) : Type := σ → Option (α × σ × List ε)

namespace Comp
variable {σ ε α β : Type}

protected def bind (c : Comp σ ε α) (f : α → Comp σ ε β) : Comp σ ε β := fun s =>
  match c s with
  | none => none
  | some (a, s', tr) =>
    match f a s' with
    | none => none
    | some (b, s'', tr') => some (b, s'', tr ++ tr')

instance : FaultMonad (Comp σ ε) where
  pure a := fun s => some (a, s, [])
  bind := Comp.bind
  fault := fun _ => none

def read (f : σ → Option α) : Comp σ ε α := fun s => (f s).map fun a => (a, s, [])

def update (f : σ → Option σ) : Comp σ ε Unit := fun s => (f s).map fun s' => ((), s', [])

def note (f : σ → ε) : Comp σ ε Unit := fun s => some ((), s, [f s])

theorem bind_some {c : Comp σ ε β} {f : β → Comp σ ε α} {s s'' : σ} {a : α} {tr : List ε}
    (h : (c >>= f) s = some (a, s'', tr)) : ∃ b s' tr₁ tr₂,
      c s = some (b, s', tr₁) ∧ f b s' = some (a, s'', tr₂) ∧ tr = tr₁ ++ tr₂ := by
  change Comp.bind c f s = _ at h
  unfold Comp.bind at h
  cases hrun : c s with
  | none =>
    rw [hrun] at h
    cases h
  | some out =>
    obtain ⟨b, s', tr₁⟩ := out
    simp only [hrun] at h
    cases hrest : f b s' with
    | none =>
      rw [hrest] at h
      cases h
    | some out =>
      obtain ⟨a', t, tr₂⟩ := out
      rw [hrest] at h
      cases h
      exact ⟨b, s', tr₁, tr₂, rfl, hrest, rfl⟩

end Comp

/-- What a run promises about its observations: each is good, and each shows a state. -/
structure Discipline (σ ε : Type) where
  good : ε → Prop
  view : ε → σ

variable {σ ε α β : Type} [Preorder σ]

/-- The observations `tr` made between `s` and `s'` are good and climb from `s` to `s'`. -/
structure Passage (D : Discipline σ ε) (s : σ) (tr : List ε) (s' : σ) : Prop where
  good : ∀ e ∈ tr, D.good e
  climb : s ≤ s'
  after : ∀ e ∈ tr, s ≤ D.view e
  before : ∀ e ∈ tr, D.view e ≤ s'
  sorted : tr.Pairwise fun e e' => D.view e ≤ D.view e'

theorem Passage.nil (D : Discipline σ ε) {s s' : σ} (h : s ≤ s') : Passage D s [] s' :=
  ⟨by simp, h, by simp, by simp, .nil⟩

theorem Passage.append {D : Discipline σ ε} {s s' s'' : σ} {tr tr' : List ε}
    (h : Passage D s tr s') (h' : Passage D s' tr' s'') : Passage D s (tr ++ tr') s'' where
  good e he := (List.mem_append.mp he).elim (h.good e) (h'.good e)
  climb := h.climb.trans h'.climb
  after e he := (List.mem_append.mp he).elim (h.after e) fun hm => h.climb.trans (h'.after e hm)
  before e he := (List.mem_append.mp he).elim (fun hm => (h.before e hm).trans h'.climb)
    (h'.before e)
  sorted := List.pairwise_append.mpr ⟨h.sorted, h'.sorted, fun e he e' he' =>
    (h.before e he).trans (h'.after e' he')⟩

/-- Run from `s`, `c` does not fault, passes good observations only and ends in `Q`. -/
def Meets (D : Discipline σ ε) (c : Comp σ ε α) (s : σ) (Q : α → σ → Prop) : Prop :=
  ∃ a s' tr, c s = some (a, s', tr) ∧ Passage D s tr s' ∧ Q a s'

section Rules
variable {D : Discipline σ ε} {s : σ} {Q : α → σ → Prop}

theorem meets_pure {a : α} (h : Q a s) : Meets D (pure a) s Q :=
  ⟨a, s, [], rfl, .nil D le_rfl, h⟩

theorem meets_bind {c : Comp σ ε β} {f : β → Comp σ ε α}
    (h : Meets D c s fun b s' => Meets D (f b) s' Q) : Meets D (c >>= f) s Q := by
  obtain ⟨b, s', tr, hc, hp, a, s'', tr', hf, hp', hQ⟩ := h
  refine ⟨a, s'', tr ++ tr', ?_, hp.append hp', hQ⟩
  change Comp.bind c f s = _
  simp [Comp.bind, hc, hf]

theorem meets_mono {c : Comp σ ε α} {P : α → σ → Prop} (h : Meets D c s P)
    (himp : ∀ a s', s ≤ s' → P a s' → Q a s') : Meets D c s Q := by
  obtain ⟨a, s', tr, hc, hp, hP⟩ := h
  exact ⟨a, s', tr, hc, hp, himp a s' hp.climb hP⟩

theorem meets_run {c : Comp σ ε α} (h : Meets D c s Q) :
    Meets D c s fun a s' => Q a s' ∧ ∃ tr, c s = some (a, s', tr) := by
  obtain ⟨a, s', tr, hc, hp, hQ⟩ := h
  exact ⟨a, s', tr, hc, hp, hQ, tr, hc⟩

theorem meets_seq {c : Comp σ ε β} {f : β → Comp σ ε α} {P : β → σ → Prop}
    (hc : Meets D c s P) (hf : ∀ b s', s ≤ s' → P b s' → Meets D (f b) s' Q) :
    Meets D (c >>= f) s Q :=
  meets_bind (meets_mono hc hf)

theorem meets_read {f : σ → Option α} {a : α} (h : f s = some a) (hQ : Q a s) :
    Meets D (Comp.read f) s Q :=
  ⟨a, s, [], by simp [Comp.read, h], .nil D le_rfl, hQ⟩

theorem meets_update {f : σ → Option σ} (s' : σ) {Q : Unit → σ → Prop} (h : f s = some s')
    (hle : s ≤ s') (hQ : Q () s') : Meets D (Comp.update f) s Q :=
  ⟨(), s', [], by simp [Comp.update, h], .nil D hle, hQ⟩

theorem meets_note {f : σ → ε} {Q : Unit → σ → Prop} (hg : D.good (f s))
    (hv : D.view (f s) = s) (hQ : Q () s) : Meets D (Comp.note f) s Q := by
  refine ⟨(), s, [f s], rfl, ⟨?_, le_rfl, ?_, ?_, List.pairwise_singleton _ _⟩, hQ⟩
  · simpa using hg
  · simp [hv]
  · simp [hv]

theorem meets_forRange (I : Nat → α → σ → Prop) {lo hi : Nat} (hle : lo ≤ hi)
    {body : Nat → α → Comp σ ε α} {a : α} (h0 : I lo a s)
    (hstep : ∀ i a s, lo ≤ i → i < hi → I i a s → Meets D (body i a) s (I (i + 1))) :
    Meets D (forRange lo hi body a) s (I hi) := by
  induction h : hi - lo generalizing lo a s with
  | zero =>
    obtain rfl : lo = hi := by omega
    rw [forRange_empty le_rfl]
    exact meets_pure h0
  | succ n ih =>
    rw [forRange_step (by omega)]
    refine meets_seq (hstep lo a s le_rfl (by omega) h0) fun a' s' _ hI => ?_
    exact ih (by omega) hI (fun i b t hl => hstep i b t (by omega)) (by omega)

theorem meets_loop (I : α → σ → Prop) (μ : α → σ → Nat) {body : α → Comp σ ε (α ⊕ α)}
    (hstep : ∀ a s, I a s → Meets D (body a) s fun r s' =>
      Sum.elim (fun a' => I a' s' ∧ μ a' s' < μ a s) (fun a' => Q a' s') r)
    {fuel : Nat} {a : α} (h0 : I a s) (hfuel : μ a s < fuel) :
    Meets D (loop body fuel a) s Q := by
  induction fuel generalizing a s with
  | zero => omega
  | succ fuel ih =>
    refine meets_seq (hstep a s h0) fun r s' _ hr => ?_
    cases r with
    | inl a' => exact ih hr.1 (by have := hr.2; omega)
    | inr a' => exact meets_pure hr

end Rules

section Leaves
variable {σ ε α β : Type} {R : σ → List ε → σ → Prop}

/-- `R` holds of what does nothing, and of one part of a run after the other. -/
structure Chained (R : σ → List ε → σ → Prop) : Prop where
  nil : ∀ s, R s [] s
  append : ∀ {s s' s'' tr tr'}, R s tr s' → R s' tr' s'' → R s (tr ++ tr') s''

/-- Wherever `c` does not fault, `R` relates its start, its observations and its end. -/
def Leaves (R : σ → List ε → σ → Prop) (c : Comp σ ε α) : Prop :=
  ∀ s a s' tr, c s = some (a, s', tr) → R s tr s'

theorem leaves_pure (hR : Chained R) (a : α) : Leaves R (pure a : Comp σ ε α) := by
  intro s a' s' tr h
  cases h
  exact hR.nil s

theorem leaves_bind (hR : Chained R) {c : Comp σ ε β} {f : β → Comp σ ε α} (hc : Leaves R c)
    (hf : ∀ b, Leaves R (f b)) : Leaves R (c >>= f) := by
  intro s a s'' tr h
  obtain ⟨b, s', tr₁, tr₂, hrun, hrest, rfl⟩ := Comp.bind_some h
  exact hR.append (hc s b s' tr₁ hrun) (hf b s' a s'' tr₂ hrest)

theorem leaves_read (hR : Chained R) (f : σ → Option α) : Leaves R (Comp.read f : Comp σ ε α) := by
  intro s a s' tr h
  obtain ⟨b, _, h⟩ := Option.map_eq_some_iff.mp h
  cases h
  exact hR.nil s

theorem leaves_update {f : σ → Option σ} (hf : ∀ s s', f s = some s' → R s [] s') :
    Leaves R (Comp.update f : Comp σ ε Unit) := by
  intro s a s' tr h
  obtain ⟨t, ht, h⟩ := Option.map_eq_some_iff.mp h
  cases h
  exact hf s s' ht

theorem leaves_note {f : σ → ε} (hf : ∀ s, R s [f s] s) : Leaves R (Comp.note f) := by
  intro s a s' tr h
  cases h
  exact hf s

theorem leaves_forRange (hR : Chained R) {lo hi : Nat} {body : Nat → α → Comp σ ε α}
    (hbody : ∀ i a, Leaves R (body i a)) (a : α) : Leaves R (forRange lo hi body a) := by
  induction h : hi - lo generalizing lo a with
  | zero =>
    rw [forRange_empty (by omega)]
    exact leaves_pure hR a
  | succ n ih =>
    rw [forRange_step (by omega)]
    exact leaves_bind hR (hbody lo a) fun b => ih b (by omega)

theorem leaves_loop (hR : Chained R) {body : α → Comp σ ε (α ⊕ α)} (hbody : ∀ a, Leaves R (body a))
    (fuel : Nat) (a : α) : Leaves R (loop body fuel a) := by
  induction fuel generalizing a with
  | zero =>
    intro s b s' tr h
    cases h
  | succ fuel ih =>
    refine leaves_bind hR (hbody a) fun r => ?_
    cases r with
    | inl a' => exact ih a'
    | inr a' => exact leaves_pure hR a'

theorem note_mem {f : σ → ε} {c : Unit → Comp σ ε α} {s s' : σ} {a : α} {tr : List ε}
    (h : (Comp.note f >>= c) s = some (a, s', tr)) : f s ∈ tr := by
  obtain ⟨_, s₁, tr₁, tr₂, hnote, _, rfl⟩ := Comp.bind_some h
  cases hnote
  exact List.mem_cons_self

end Leaves

end GraphReorder.Library
