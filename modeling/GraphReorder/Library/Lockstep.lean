import GraphReorder.Library.Memory

/-! Two runs of code that may fault, in lockstep: both fault, or both give a result and the results
are related. -/
namespace GraphReorder.Library

section Lockstep
variable {α α' β β' : Type} {R : α → α' → Prop} {S : β → β' → Prop}

theorem rel_bind {x : Option α} {x' : Option α'} {f : α → Option β} {f' : α' → Option β'}
    (h : Option.Rel R x x') (hf : ∀ a a', R a a' → Option.Rel S (f a) (f' a')) :
    Option.Rel S (x >>= f) (x' >>= f') := by
  cases h with
  | none => exact .none
  | some hr => exact hf _ _ hr

theorem rel_eq (x : Option α) : Option.Rel Eq x x := by
  cases x with
  | none => exact .none
  | some a => exact .some rfl

theorem rel_bind_same {x : Option α} {f : α → Option β} {f' : α → Option β'}
    (hf : ∀ a, Option.Rel S (f a) (f' a)) : Option.Rel S (x >>= f) (x >>= f') := by
  apply rel_bind (rel_eq x)
  intro a a' ha
  subst ha
  exact hf a

theorem rel_bind_comm {x : Option α} {y : Option α'} {f : α → α' → Option β}
    {f' : α → α' → Option β'} (hf : ∀ a b, Option.Rel S (f a b) (f' a b)) :
    Option.Rel S (x >>= fun a => y >>= fun b => f a b)
      (y >>= fun b => x >>= fun a => f' a b) := by
  cases x with
  | none =>
    cases y with
    | none => exact .none
    | some b => exact .none
  | some a =>
    cases y with
    | none => exact .none
    | some b => exact hf a b

theorem rel_map_iff {f : α → β} {x : Option α} {y : Option β} :
    Option.Rel (fun a b => b = f a) x y ↔ y = x.map f := by
  cases x with
  | none =>
    cases y with
    | none => simp
    | some b => simp
  | some a =>
    cases y with
    | none => simp
    | some b => simp

theorem rel_forRange {lo hi : Nat} {body : Nat → β → Option β} {body' : Nat → β' → Option β'}
    (hstep : ∀ i b b', S b b' → Option.Rel S (body i b) (body' i b')) {b : β} {b' : β'}
    (h : S b b') : Option.Rel S (forRange lo hi body b) (forRange lo hi body' b') := by
  induction hn : hi - lo generalizing lo b b' with
  | zero =>
    have hle : hi ≤ lo := by omega
    rw [forRange_empty hle, forRange_empty hle]
    exact .some h
  | succ n ih =>
    have hlt : lo < hi := by omega
    rw [forRange_step hlt, forRange_step hlt]
    exact rel_bind (hstep lo b b' h) fun _ _ hr => ih hr (by omega)

theorem rel_loop {body : β → Option (β ⊕ β)} {body' : β' → Option (β' ⊕ β')}
    (hstep : ∀ b b', S b b' → Option.Rel (Sum.LiftRel S S) (body b) (body' b')) {fuel : Nat}
    {b : β} {b' : β'} (h : S b b') : Option.Rel S (loop body fuel b) (loop body' fuel b') := by
  induction fuel generalizing b b' with
  | zero => exact .none
  | succ fuel ih =>
    refine rel_bind (hstep b b' h) fun r r' hr => ?_
    cases hr with
    | inl hc => exact ih hc
    | inr hc => exact .some hc

end Lockstep

end GraphReorder.Library
