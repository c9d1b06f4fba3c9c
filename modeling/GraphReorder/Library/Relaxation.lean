import Mathlib.Data.Finset.Card
import Mathlib.Order.Monotone.Defs
import Mathlib.Tactic.Common

/-! Labels of vertices that are lowered along the arcs of a graph, round after round, until they
settle: over any ordered labels, and whatever the order of things within a round. -/
namespace GraphReorder.Library

/-- An arc offers its target a label for the label that its source has. -/
structure Arc (V α : Type*) where
  src : V
  dst : V
  offer : α → α

section Walks
variable {V α : Type*} (E : Set (Arc V α))

/-- A walk of `k` arcs from `u` that makes `y` at `v` out of `x` at `u`. -/
inductive Along (u : V) (x : α) : Nat → V → α → Prop
  | nil : Along u x 0 u x
  | snoc {k : Nat} {e : Arc V α} {y : α} (hwalk : Along u x k e.src y) (he : e ∈ E) :
      Along u x (k + 1) e.dst (e.offer y)

variable {E} {u v w : V} {x y z : α} {j k : Nat}

theorem Along.trans (h : Along E u x j v y) (h' : Along E v y k w z) :
    Along E u x (j + k) w z := by
  induction h' with
  | nil => exact h
  | snoc _ he ih => exact .snoc ih he

theorem Along.keeps (P : V → α → Prop) (hP : ∀ e ∈ E, ∀ x, P e.src x → P e.dst (e.offer x))
    (h : Along E u x k v y) (hu : P u x) : P v y := by
  induction h with
  | nil => exact hu
  | snoc _ he ih => exact hP _ he _ ih

theorem Along.trace (h : Along E u x k v y) : ∃ (p : Nat → V) (q : Nat → α),
    p 0 = u ∧ q 0 = x ∧ p k = v ∧ q k = y ∧
      ∀ i j, i ≤ j → j ≤ k → Along E (p i) (q i) (j - i) (p j) (q j) := by
  induction h with
  | nil =>
    refine ⟨fun _ => u, fun _ => x, rfl, rfl, rfl, rfl, fun i j hij hj => ?_⟩
    obtain rfl : j = 0 := Nat.le_zero.mp hj
    rw [Nat.zero_sub]
    exact .nil
  | @snoc k e y _ he ih =>
    obtain ⟨p, q, hp0, hq0, hpk, hqk, hpart⟩ := ih
    refine ⟨fun i => if i ≤ k then p i else e.dst, fun i => if i ≤ k then q i else e.offer y,
      ?_, ?_, ?_, ?_, fun i j hij hj => ?_⟩
    · simpa using hp0
    · simpa using hq0
    · simp
    · simp
    · by_cases hjk : j ≤ k
      · simp only [hjk, hij.trans hjk, if_true]
        exact hpart i j hij hjk
      · obtain rfl : j = k + 1 := by omega
        by_cases hik : i ≤ k
        · have hlast := hpart i k hik le_rfl
          rw [hpk, hqk] at hlast
          simp only [hik, hjk, if_true, if_false, Nat.succ_sub hik]
          exact .snoc hlast he
        · obtain rfl : i = k + 1 := by omega
          simp only [hik, if_false, Nat.sub_self]
          exact .nil

end Walks

section Cycles
variable {V α : Type*} [Preorder α] {E : Set (Arc V α)} {u v w : V} {x x' y : α} {k : Nat}

theorem Along.mono (hE : ∀ e ∈ E, Monotone e.offer) (h : Along E u x k v y) (hx : x' ≤ x) :
    ∃ y' ≤ y, Along E u x' k v y' := by
  induction h with
  | nil => exact ⟨x', hx, .nil⟩
  | snoc _ he ih =>
    obtain ⟨y', hy, hwalk⟩ := ih
    exact ⟨_, hE _ he hy, .snoc hwalk he⟩

/-- No closed walk that is come upon from `u` makes a label lower. -/
def NoGain (E : Set (Arc V α)) (u : V) (x : α) : Prop :=
  ∀ j v y k z, Along E u x j v y → Along E v y k v z → y ≤ z

/-- A walk with as many arcs as there are vertices goes through one of them twice. -/
theorem Along.cut (hE : ∀ e ∈ E, Monotone e.offer) (hgain : NoGain E u x) {S : Finset V}
    (hS : ∀ e ∈ E, e.dst ∈ S) (hu : u ∈ S) (h : Along E u x k v y) (hk : S.card ≤ k) :
    ∃ j < k, ∃ y' ≤ y, Along E u x j v y' := by
  obtain ⟨p, q, rfl, rfl, rfl, rfl, hpart⟩ := h.trace
  have hin (i : Nat) (hi : i ∈ Finset.range (k + 1)) : p i ∈ S :=
    (hpart 0 i (Nat.zero_le i) (Nat.le_of_lt_succ (Finset.mem_range.mp hi))).keeps
      (fun v _ => v ∈ S) (fun e he _ _ => hS e he) hu
  obtain ⟨i, hi, j, hj, hne, htwice⟩ := Finset.exists_ne_map_eq_of_card_lt_of_maps_to
    (by rw [Finset.card_range]; exact Nat.lt_succ_of_le hk) hin
  wlog hij : i < j generalizing i j
  · exact this j hj i hi hne.symm htwice.symm (by omega)
  have hjk : j ≤ k := Nat.le_of_lt_succ (Finset.mem_range.mp hj)
  have hcycle := hpart i j hij.le hjk
  rw [← htwice] at hcycle
  have hrest := hpart j k hjk le_rfl
  rw [← htwice] at hrest
  obtain ⟨y', hy, hshort⟩ := hrest.mono hE
    (hgain _ _ _ _ _ (hpart 0 i (Nat.zero_le i) (hij.le.trans hjk)) hcycle)
  exact ⟨i - 0 + (k - j), by omega, y', hy,
    (hpart 0 i (Nat.zero_le i) (hij.le.trans hjk)).trans hshort⟩

/-- So walks with fewer arcs than there are vertices make the lowest labels. -/
theorem Along.short (hE : ∀ e ∈ E, Monotone e.offer) (hgain : NoGain E u x) {S : Finset V}
    (hS : ∀ e ∈ E, e.dst ∈ S) (hu : u ∈ S) (h : Along E u x k v y) :
    ∃ j < S.card, ∃ y' ≤ y, Along E u x j v y' := by
  induction k using Nat.strong_induction_on generalizing y with
  | _ k ih =>
    by_cases hk : k < S.card
    · exact ⟨k, hk, y, le_rfl, h⟩
    · obtain ⟨j, hj, y', hy, hwalk⟩ := h.cut hE hgain hS hu (Nat.le_of_not_lt hk)
      obtain ⟨i, hi, y'', hy', hwalk'⟩ := ih j hj hwalk
      exact ⟨i, hi, y'', hy'.trans hy, hwalk'⟩

end Cycles

section Repeat
variable {S : Type*} (R : S → S → Prop)

inductive Repeat (s : S) : Nat → S → Prop
  | zero : Repeat s 0 s
  | succ {k : Nat} {t t' : S} (hrun : Repeat s k t) (hstep : R t t') : Repeat s (k + 1) t'

variable {R}

theorem Repeat.map {T : Type*} {R' : T → T → Prop} (f : S → T) {s t : S} {k : Nat}
    (h : Repeat (fun a b => R' (f a) (f b)) s k t) : Repeat R' (f s) k (f t) := by
  induction h with
  | zero => exact .zero
  | succ _ hstep ih => exact .succ ih hstep

end Repeat

structure Labels (V α : Type*) where
  label : V → α
  active : Set V

section Rounds
variable {V α : Type*} [PartialOrder α] (E : Set (Arc V α))

/-- What a round does, in whatever order: labels only go down, the vertices whose labels did are
active next, every arc from an active vertex has offered its label or a lower one, and nothing is
made up. -/
structure Round (s s' : Labels V α) : Prop where
  lower : ∀ v, s'.label v ≤ s.label v
  active : ∀ v, v ∈ s'.active ↔ s'.label v < s.label v
  served : ∀ e ∈ E, e.src ∈ s.active → s'.label e.dst ≤ e.offer (s.label e.src)
  sound : ∀ P : V → α → Prop, (∀ v ∈ s.active, P v (s.label v)) →
    (∀ e ∈ E, e.src ∈ s.active → ∀ x ≤ s.label e.src, P e.src x → P e.dst (e.offer x)) →
    ∀ v, s'.label v = s.label v ∨ P v (s'.label v)

def Resting (s : Labels V α) : Prop :=
  ∀ e ∈ E, e.src ∉ s.active → s.label e.dst ≤ e.offer (s.label e.src)

def Offered (s : Labels V α) (k : Nat) (v : V) (x : α) : Prop :=
  ∃ u ∈ s.active, Along E u (s.label u) k v x

variable {E} {s s' t : Labels V α} {v : V} {x : α} {j k : Nat}

theorem Round.same (h : Round E s s') (hv : v ∉ s'.active) : s'.label v = s.label v := by
  by_contra hne
  exact hv ((h.active v).mpr (lt_of_le_of_ne (h.lower v) hne))

theorem Round.map {β : Type*} [PartialOrder β] {E' : Set (Arc V β)} (τ : α → β)
    (h : Round E s s') (hlower : ∀ v, τ (s'.label v) ≤ τ (s.label v))
    (hlt : ∀ v, τ (s'.label v) < τ (s.label v) ↔ s'.label v < s.label v)
    (hserved : ∀ e ∈ E', e.src ∈ s.active → τ (s'.label e.dst) ≤ e.offer (τ (s.label e.src)))
    (hoffer : ∀ e ∈ E, e.src ∈ s.active → ∀ x ≤ s.label e.src,
      ∃ e' ∈ E', e'.src = e.src ∧ e'.dst = e.dst ∧ τ x ≤ τ (s.label e.src) ∧
        e'.offer (τ x) = τ (e.offer x)) :
    Round E' ⟨fun v => τ (s.label v), s.active⟩ ⟨fun v => τ (s'.label v), s'.active⟩ where
  lower := hlower
  active v := (h.active v).trans (hlt v).symm
  served := hserved
  sound P hstart hkeeps v := by
    refine (h.sound (fun v x => P v (τ x)) hstart (fun e he hact x hx hP => ?_) v).imp_left
      (congrArg τ)
    obtain ⟨e', he', hsrc, hdst, hle, heq⟩ := hoffer e he hact x hx
    rw [← heq, ← hdst]
    rw [← hsrc] at hact hle hP
    exact hkeeps e' he' hact _ hle hP

theorem Round.resting (h : Round E s s') (hs : Resting E s) : Resting E s' := by
  intro e he hsrc
  rw [h.same hsrc]
  by_cases hact : e.src ∈ s.active
  · exact h.served e he hact
  · exact (h.lower e.dst).trans (hs e he hact)

theorem Repeat.resting (h : Repeat (Round E) s k t) (hs : Resting E s) : Resting E t := by
  induction h with
  | zero => exact hs
  | succ _ hstep ih => exact hstep.resting ih

/-- After `k` rounds a label is no higher than what a walk of `k` arcs at most offers. -/
theorem Repeat.within (hE : ∀ e ∈ E, Monotone e.offer) (h : Repeat (Round E) s k t)
    (hs : Resting E s) (hjk : j ≤ k) (hv : Offered E s j v x) : t.label v ≤ x := by
  induction h generalizing j v x with
  | zero =>
    obtain rfl : j = 0 := Nat.le_zero.mp hjk
    obtain ⟨u, _, hwalk⟩ := hv
    cases hwalk
    exact le_rfl
  | @succ k t t' hrun hstep ih =>
    obtain ⟨u, hu, hwalk⟩ := hv
    cases hwalk with
    | nil => exact (hstep.lower v).trans (ih (Nat.zero_le k) ⟨v, hu, .nil⟩)
    | @snoc j e y hwalk he =>
      have hsrc : t.label e.src ≤ y := ih (Nat.le_of_succ_le_succ hjk) ⟨u, hu, hwalk⟩
      have hnext : t'.label e.dst ≤ e.offer (t.label e.src) := by
        by_cases hact : e.src ∈ t.active
        · exact hstep.served e he hact
        · exact (hstep.lower e.dst).trans (hrun.resting hs e he hact)
      exact hnext.trans (hE e he hsrc)

/-- Every label is the one from the start or has been offered. -/
theorem Repeat.sound (h : Repeat (Round E) s k t) :
    (∀ v ∈ t.active, ∃ j, Offered E s j v (t.label v)) ∧
      ∀ v, t.label v = s.label v ∨ ∃ j, Offered E s j v (t.label v) := by
  induction h with
  | zero => exact ⟨fun v hv => ⟨0, v, hv, .nil⟩, fun v => .inl rfl⟩
  | @succ k t t' _ hstep ih =>
    obtain ⟨hact, hall⟩ := ih
    have hsound := hstep.sound (fun v x => ∃ j, Offered E s j v x) hact (by
      rintro e he _ x _ ⟨j, u, hu, hwalk⟩
      exact ⟨j + 1, u, hu, .snoc hwalk he⟩)
    refine ⟨fun v hv => ?_, fun v => ?_⟩
    · cases hsound v with
      | inl hsame => exact absurd hsame ((hstep.active v).mp hv).ne
      | inr hoff => exact hoff
    · cases hsound v with
      | inl hsame =>
        rw [hsame]
        exact hall v
      | inr hoff => exact .inr hoff

theorem Resting.along (hE : ∀ e ∈ E, Monotone e.offer) (hs : Resting E s) (hquiet : s.active = ∅)
    {u : V} {y : α} (h : Along E u (s.label u) k v y) : s.label v ≤ y := by
  induction h with
  | nil => exact le_rfl
  | @snoc k e y _ he ih =>
    have hact : e.src ∉ s.active := by
      rw [hquiet]
      exact id
    exact (hs e he hact).trans (hE e he ih)

theorem Repeat.least (hE : ∀ e ∈ E, Monotone e.offer) (h : Repeat (Round E) s k t)
    (hs : Resting E s) (hquiet : t.active = ∅) (hv : Offered E s j v x) : t.label v ≤ x := by
  obtain ⟨u, hu, hwalk⟩ := hv
  obtain ⟨y, hy, hwalk'⟩ := hwalk.mono hE (h.within hE hs (Nat.zero_le k) ⟨u, hu, .nil⟩)
  exact ((h.resting hs).along hE hquiet hwalk').trans hy

/-- Where no closed walk gains, there are no more rounds than vertices. -/
theorem Repeat.quiet (hE : ∀ e ∈ E, Monotone e.offer)
    (hgain : ∀ u ∈ s.active, NoGain E u (s.label u)) {S : Finset V}
    (hS : ∀ e ∈ E, e.dst ∈ S) (hact : ∀ v ∈ s.active, v ∈ S) (h : Repeat (Round E) s k t)
    (hs : Resting E s) (hk : S.card ≤ k) : t.active = ∅ := by
  refine Set.eq_empty_iff_forall_notMem.mpr fun v hv => ?_
  cases h with
  | zero => exact absurd (hact v hv) (by rw [Finset.card_eq_zero.mp (Nat.le_zero.mp hk)]; simp)
  | @succ k t' _ hrun hstep =>
    obtain ⟨j, u, hu, hwalk⟩ := (Repeat.succ hrun hstep).sound.1 v hv
    obtain ⟨i, hi, y, hy, hshort⟩ := hwalk.short hE (hgain u hu) hS (hact u hu)
    have hbefore := hrun.within hE hs (Nat.le_of_lt_succ (hi.trans_le hk)) ⟨u, hu, hshort⟩
    exact absurd ((hbefore.trans hy).trans_lt ((hstep.active v).mp hv)) (lt_irrefl _)

theorem Repeat.near (h : Repeat (Round E) s k t) :
    (∀ v ∈ t.active, ∃ j ≤ k, ∃ x, Offered E s j v x) ∧
      ∀ v, t.label v = s.label v ∨ ∃ j ≤ k, ∃ x, Offered E s j v x := by
  induction h with
  | zero => exact ⟨fun v hv => ⟨0, le_rfl, _, v, hv, .nil⟩, fun v => .inl rfl⟩
  | @succ k t t' _ hstep ih =>
    obtain ⟨hact, hall⟩ := ih
    have hlate {v : V} (hv : ∃ j ≤ k, ∃ x, Offered E s j v x) :
        ∃ j ≤ k + 1, ∃ x, Offered E s j v x :=
      hv.imp fun j hj => ⟨Nat.le_succ_of_le hj.1, hj.2⟩
    have hsound := hstep.sound (fun v _ => ∃ j ≤ k + 1, ∃ x, Offered E s j v x)
      (fun v hv => hlate (hact v hv)) (by
        intro e he hsrc _ _ _
        obtain ⟨j, hj, x, u, hu, hwalk⟩ := hact e.src hsrc
        exact ⟨j + 1, Nat.succ_le_succ hj, _, u, hu, .snoc hwalk he⟩)
    refine ⟨fun v hv => (hsound v).resolve_left ((hstep.active v).mp hv).ne, fun v => ?_⟩
    cases hsound v with
    | inl hsame =>
      rw [hsame]
      exact (hall v).imp_right hlate
    | inr hoff => exact .inr hoff

/-- As long as some vertex is to be reached, and when it just has been, there is another round. -/
theorem Repeat.busy {m : Nat} (hE : ∀ e ∈ E, Monotone e.offer) (h : Repeat (Round E) s k t)
    (hs : Resting E s) (hv : Offered E s m v x) (hfar : ∀ j < m, ∀ x, ¬ Offered E s j v x)
    (hlow : m ≠ 0 → x < s.label v) (hk : k ≤ m) : t.active ≠ ∅ := by
  intro hquiet
  have hle : t.label v ≤ x := h.least hE hs hquiet hv
  have hnear : m ≤ k := by
    by_cases hm : m = 0
    · omega
    · obtain ⟨j, hj, y, hoff⟩ := (h.near.2 v).resolve_left (hle.trans_lt (hlow hm)).ne
      by_contra hlt
      exact hfar j (by omega) y hoff
  obtain rfl := le_antisymm hk hnear
  cases h with
  | zero =>
    obtain ⟨u, hu, _⟩ := hv
    rw [hquiet] at hu
    exact hu
  | @succ k t' _ hrun hstep =>
    -- the round before had not reached it
    have hbefore : t'.label v = s.label v := (hrun.near.2 v).resolve_right (by
      rintro ⟨j, hj, y, hoff⟩
      exact hfar j (Nat.lt_succ_of_le hj) y hoff)
    have hact := (hstep.active v).mpr (hbefore ▸ hle.trans_lt (hlow (Nat.succ_ne_zero k)))
    rw [hquiet] at hact
    exact hact

end Rounds

end GraphReorder.Library
