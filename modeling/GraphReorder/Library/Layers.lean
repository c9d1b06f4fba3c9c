import Mathlib.Data.Finset.Card
import Mathlib.Data.Nat.Find
import GraphReorder.Library.Relaxation

/-! A breadth-first search that finds the vertices of a graph layer by layer, all of one layer at
once, and gives each a parent in the layer before. -/
namespace GraphReorder.Library
variable {V : Type*} (E : V → V → Prop) (r : V)

inductive Leads : Nat → V → Prop
  | nil : Leads 0 r
  | snoc {k : Nat} {u v : V} (hwalk : Leads k u) (hedge : E u v) : Leads (k + 1) v

/-- `k` edges lead to `v` from the root, and no fewer do. -/
def Depth (k : Nat) (v : V) : Prop := Leads E r k v ∧ ∀ j < k, ¬ Leads E r j v

structure SearchTree (V : Type*) where
  parent : V → Option V
  frontier : Set V

/-- One layer more. Which parent a vertex gets is left open. -/
structure Layer (t t' : SearchTree V) : Prop where
  kept : ∀ v u, t.parent v = some u → t'.parent v = some u
  found : ∀ v, v ∈ t'.frontier ↔ t.parent v = none ∧ ∃ u ∈ t.frontier, E u v
  seen : ∀ v ∈ t'.frontier, t'.parent v ≠ none
  parent : ∀ v u, t.parent v = none → t'.parent v = some u → u ∈ t.frontier ∧ E u v

structure Searched (k : Nat) (t : SearchTree V) : Prop where
  frontier : ∀ v, v ∈ t.frontier ↔ Depth E r k v
  seen : ∀ v, t.parent v ≠ none ↔ ∃ j ≤ k, Leads E r j v
  root : t.parent r = some r
  tree : ∀ v u, v ≠ r → t.parent v = some u → E u v ∧ ∃ m, Depth E r m u ∧ Depth E r (m + 1) v

variable {E r} {k : Nat} {u v : V} {t t' : SearchTree V}

theorem Leads.depth (h : Leads E r k v) : ∃ j ≤ k, Depth E r j v := by
  classical
  have hex : ∃ j, Leads E r j v := ⟨k, h⟩
  exact ⟨Nat.find hex, Nat.find_min' hex h, Nat.find_spec hex, fun j hj => Nat.find_min hex hj⟩

theorem Depth.before (h : Depth E r (k + 1) v) : ∃ u, Depth E r k u ∧ E u v := by
  obtain ⟨hwalk, hleast⟩ := h
  cases hwalk with
  | @snoc _ u _ hwalk hedge =>
    refine ⟨u, ⟨hwalk, fun j hj hlead => ?_⟩, hedge⟩
    exact hleast (j + 1) (Nat.succ_lt_succ hj) (hlead.snoc hedge)

theorem Searched.layer (h : Searched E r k t) (hlayer : Layer E t t') :
    Searched E r (k + 1) t' := by
  have hnone {v : V} : t.parent v = none ↔ ∀ j ≤ k, ¬ Leads E r j v := by
    have hseen := not_congr (h.seen v)
    rw [not_not] at hseen
    rw [hseen]
    push Not
    rfl
  -- what is found through the frontier has the next depth
  have hdepth {v u : V} (hv : t.parent v = none) (hu : u ∈ t.frontier) (hedge : E u v) :
      Depth E r (k + 1) v := by
    have hwalk := ((h.frontier u).mp hu).1
    exact ⟨hwalk.snoc hedge, fun j hj => hnone.mp hv j (Nat.le_of_lt_succ hj)⟩
  have hfrontier (v : V) : v ∈ t'.frontier ↔ Depth E r (k + 1) v := by
    rw [hlayer.found v]
    constructor
    · rintro ⟨hv, u, hu, hedge⟩
      exact hdepth hv hu hedge
    · intro hv
      obtain ⟨u, hu, hedge⟩ := hv.before
      exact ⟨hnone.mpr fun j hj => hv.2 j (Nat.lt_succ_of_le hj), u, (h.frontier u).mpr hu, hedge⟩
  refine ⟨hfrontier, fun v => ⟨fun hv => ?_, fun hv => ?_⟩, hlayer.kept r r h.root,
    fun v u hvr hpar => ?_⟩
  · by_cases hold : t.parent v = none
    · obtain ⟨u, hu⟩ := Option.ne_none_iff_exists'.mp hv
      obtain ⟨hfront, hedge⟩ := hlayer.parent v u hold hu
      exact ⟨k + 1, le_rfl, (hdepth hold hfront hedge).1⟩
    · obtain ⟨j, hj, hwalk⟩ := (h.seen v).mp hold
      exact ⟨j, hj.trans (Nat.le_succ k), hwalk⟩
  · obtain ⟨j, hj, hwalk⟩ := hv
    obtain ⟨i, hi, hdep⟩ := hwalk.depth
    rcases Nat.lt_or_eq_of_le (hi.trans hj) with hlt | rfl
    · obtain ⟨u, hu⟩ := Option.ne_none_iff_exists'.mp
        ((h.seen v).mpr ⟨i, Nat.le_of_lt_succ hlt, hdep.1⟩)
      rw [hlayer.kept v u hu]
      exact Option.some_ne_none u
    · exact hlayer.seen v ((hfrontier v).mpr hdep)
  · cases hold : t.parent v with
    | none =>
      obtain ⟨hfront, hedge⟩ := hlayer.parent v u hold hpar
      exact ⟨hedge, k, (h.frontier u).mp hfront, hdepth hold hfront hedge⟩
    | some u' =>
      obtain rfl : u' = u := Option.some.inj ((hlayer.kept v u' hold).symm.trans hpar)
      exact h.tree v u' hvr hold

/-- When a layer is empty, all that the root reaches has been found. -/
theorem Searched.closed (h : Searched E r k t) (hempty : t.frontier = ∅) {j : Nat}
    (hwalk : Leads E r j v) : t.parent v ≠ none := by
  refine (h.seen v).mpr ?_
  induction hwalk with
  | nil => exact ⟨0, Nat.zero_le k, .nil⟩
  | @snoc _ u v _ hedge ih =>
    obtain ⟨i, hi, hu⟩ := ih
    obtain ⟨m, hm, hdep⟩ := hu.depth
    have hne : m ≠ k := by
      rintro rfl
      have hmem := (h.frontier u).mpr hdep
      rw [hempty] at hmem
      exact hmem
    exact ⟨m + 1, by omega, hdep.1.snoc hedge⟩

theorem Depth.lt_card {S : Finset V} (hS : ∀ j v, Leads E r j v → v ∈ S) (h : Depth E r k v) :
    k < S.card := by
  have hbefore (j : Nat) (hj : j ≤ k) : ∃ u, Depth E r j u := by
    obtain ⟨i, rfl⟩ := Nat.exists_eq_add_of_le hj
    clear hj
    induction i generalizing v with
    | zero => exact ⟨v, h⟩
    | succ i ih =>
      obtain ⟨u, hu, _⟩ := Depth.before h
      exact ih hu
  have : Nonempty V := ⟨v⟩
  choose! pick hpick using hbefore
  have hcard : (Finset.range (k + 1)).card ≤ S.card := by
    refine Finset.card_le_card_of_injOn pick (fun j hj => ?_) fun i hi j hj heq => ?_
    · exact hS j _ (hpick j (Nat.le_of_lt_succ (Finset.mem_range.mp hj))).1
    · have hpi := hpick i (Nat.le_of_lt_succ (Finset.mem_range.mp hi))
      have hpj := hpick j (Nat.le_of_lt_succ (Finset.mem_range.mp hj))
      rcases Nat.lt_trichotomy i j with hlt | hij | hlt
      · exact absurd hpi.1 (heq ▸ hpj.2 i hlt)
      · exact hij
      · exact absurd hpj.1 (heq ▸ hpi.2 j hlt)
  rwa [Finset.card_range] at hcard

end GraphReorder.Library
