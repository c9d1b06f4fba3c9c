import Mathlib.Order.Basic
import Mathlib.Order.Nat
import Mathlib.Tactic.Common

/-! Positions sorted by a small cost, with one boundary per cost value. Moving an element by
one cost unit is an exchange with the edge of its bucket. Boundaries below the frontier `u`
may be out of date: they are read as `max (start c) u`. -/
namespace GraphReorder.Library

/-- From `u` on, the costs of the positions below `n` are at most `top`, and those of cost at
least `c` are exactly the ones from `max (start c) u` on. -/
structure Bucketed (u n top : Nat) (cost start : Nat → Nat) : Prop where
  cap : ∀ p, u ≤ p → p < n → cost p ≤ top
  bound : ∀ c ≤ top, start c ≤ n
  exact : ∀ c ≤ top, ∀ p, u ≤ p → p < n → (c ≤ cost p ↔ max (start c) u ≤ p)

namespace Bucketed
variable {u n top c : Nat} {cost start : Nat → Nat}

theorem sorted (h : Bucketed u n top cost start) {p q : Nat} (hu : u ≤ p) (hpq : p ≤ q)
    (hq : q < n) : cost p ≤ cost q := by
  have hp := (h.exact (cost p) (h.cap p hu (by omega)) p hu (by omega)).mp le_rfl
  exact (h.exact (cost p) (h.cap p hu (by omega)) q (by omega) hq).mpr (by omega)

theorem advance (h : Bucketed u n top cost start) {u' : Nat} (hu : u ≤ u') :
    Bucketed u' n top cost start where
  cap p hp hn := h.cap p (by omega) hn
  bound := h.bound
  exact c hc p hp hn := by
    rw [h.exact c hc p (by omega) hn]
    omega

theorem raise_target (h : Bucketed u n top cost start) {p : Nat} (hu : u ≤ p) (hp : p < n)
    (htop : cost p < top) :
    p < start (cost p + 1) ∧ cost (start (cost p + 1) - 1) = cost p := by
  have hb := h.bound (cost p + 1) (by omega)
  have h1 := h.exact (cost p + 1) (by omega) p hu hp
  have hlt : p < start (cost p + 1) := by omega
  have h2 := h.exact (cost p + 1) (by omega) (start (cost p + 1) - 1) (by omega) (by omega)
  have h3 := h.sorted hu (q := start (cost p + 1) - 1) (by omega) (by omega)
  omega

theorem raise {cost' start' : Nat → Nat} (h : Bucketed u n top cost start) {q : Nat}
    (hu : u ≤ q) (hq : q < n) (hcq : cost q = c) (htop : c < top) (hs : start (c + 1) = q + 1)
    (hcost : ∀ p, cost' p = if p = q then c + 1 else cost p)
    (hstart : ∀ d, start' d = if d = c + 1 then q else start d) :
    Bucketed u n top cost' start' where
  cap p hp hn := by
    rw [hcost]
    split_ifs
    · omega
    · exact h.cap p hp hn
  bound d hd := by
    rw [hstart]
    split_ifs
    · omega
    · exact h.bound d hd
  exact d hd p hp hn := by
    have hx := h.exact d hd p hp hn
    rw [hcost, hstart]
    by_cases hpq : p = q
    · subst hpq
      by_cases hdc : d = c + 1
      · simp only [hdc, if_true]; omega
      · simp only [hdc, if_true, if_false]; omega
    · by_cases hdc : d = c + 1
      · subst hdc
        simp only [hpq, if_true, if_false]; omega
      · simp only [hpq, hdc, if_false]; exact hx

theorem lower_target (h : Bucketed u n top cost start) {p : Nat} (hu : u ≤ p) (hp : p < n) :
    max (start (cost p)) u ≤ p ∧ cost (max (start (cost p)) u) = cost p := by
  have hc := h.cap p hu hp
  have h1 := (h.exact (cost p) hc p hu hp).mp le_rfl
  have h2 := (h.exact (cost p) hc (max (start (cost p)) u) (by omega) (by omega)).mpr le_rfl
  have h3 := h.sorted (p := max (start (cost p)) u) (by omega) h1 hp
  omega

theorem lower {cost' start' : Nat → Nat} (h : Bucketed u n top cost start) {q : Nat}
    (hu : u ≤ q) (hq : q < n) (hcq : cost q = c + 1) (hs : max (start (c + 1)) u = q)
    (hcost : ∀ p, cost' p = if p = q then c else cost p)
    (hstart : ∀ d, start' d = if d = c + 1 then q + 1 else if d = c then max (start c) u
      else start d) :
    Bucketed u n top cost' start' where
  cap p hp hn := by
    have := h.cap p hp hn
    rw [hcost]
    split_ifs with hpq
    · subst hpq; omega
    · exact this
  bound d hd := by
    have := h.bound d hd
    rw [hstart]
    split_ifs with h1 h2
    · omega
    · subst h2; omega
    · exact this
  exact d hd p hp hn := by
    have hx := h.exact d hd p hp hn
    rw [hcost, hstart]
    by_cases hpq : p = q
    · subst hpq
      by_cases hdc : d = c + 1
      · simp only [hdc, if_true]; omega
      · by_cases hdc' : d = c
        · subst hdc'; simp only [if_true, hdc, if_false]; omega
        · simp only [hdc, hdc', if_true, if_false]; omega
    · by_cases hdc : d = c + 1
      · subst hdc
        simp only [hpq, if_true, if_false]; omega
      · by_cases hdc' : d = c
        · subst hdc'; simp only [hpq, hdc, if_true, if_false]; omega
        · simp only [hpq, hdc, hdc', if_false]; exact hx

theorem initial (n top : Nat) (h : ∀ p < n, cost p = top) (hs : ∀ c ≤ top, start c = 0) :
    Bucketed 0 n top cost start where
  cap p _ hn := (h p hn).le
  bound c hc := by rw [hs c hc]; omega
  exact c hc p _ hn := by rw [h p hn, hs c hc]; omega

end Bucketed

end GraphReorder.Library
