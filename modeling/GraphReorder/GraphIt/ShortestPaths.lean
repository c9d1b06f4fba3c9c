import Mathlib.Algebra.Order.Monoid.Unbundled.WithTop
import GraphReorder.GraphIt.Direction

/-! The benchmark program `sssp`: the lengths of the shortest walks from vertex 0, and what the
program says about negative cycles. -/
namespace GraphReorder.GraphIt
open Library

/-- `int` addition; overflow is a fault, so that no run goes on behind one. -/
def addInt (x y : Int) : Option Int :=
  if -2 ^ 31 ≤ x + y ∧ x + y < 2 ^ 31 then some (x + y) else none

def INT_MAX : Int := 2147483647

namespace Sssp

/-- `SP[dst] min= (SP[src] + weight)`. -/
def updateEdge (weight label : Int) : Option Int := addInt label weight

def start (g : WGraph) : Option Program := do
  let SP ← store (Array.replicate g.num_nodes INT_MAX) 0 0
  pure ⟨SP, none, (VertexSubset.make g.num_nodes 0).addVertex 0⟩

/-- The head of the loop after `rounds` rounds, in a run in which no addition has overflowed.
`if ((rounds) == (n))` breaks off. -/
inductive Main (dir : Direction) (g : WGraph) : Nat → Program → Prop
  | start {st : Program} (h : Sssp.start g = some st) : Main dir g 0 st
  | round {rounds : Nat} {st st' : Program} (h : Main dir g rounds st)
      (hbreak : rounds ≠ g.num_nodes) (hloop : dir.Loop g updateEdge st st') :
      Main dir g (rounds + 1) st'

def Over (g : WGraph) (rounds : Nat) (st : Program) : Prop :=
  st.frontier.num_vertices = 0 ∨ rounds = g.num_nodes

def Reported (g : WGraph) (rounds : Nat) : Prop := rounds = g.num_nodes

end Sssp

inductive Walk (g : WGraph) (u : Nat) : Nat → Nat → Int → Prop
  | nil : Walk g u 0 u 0
  | snoc {k v : Nat} {w : Int} {d : WNode} (hwalk : Walk g u k v w) (hd : d ∈ g.out_neigh[v]!) :
      Walk g u (k + 1) d.v (w + d.w)

def Bounded (g : WGraph) (n W : Nat) : Prop :=
  ∀ s < n, ∀ d ∈ g.out_neigh[s]!, -(W : Int) ≤ d.w ∧ d.w ≤ W

/-- Closed walks that vertex 0 reaches do not have a negative sum. -/
def NoNegativeCycle (g : WGraph) : Prop :=
  ∀ j v a k c, Walk g 0 j v a → Walk g v k v c → 0 ≤ c

section Labels
variable {g : WGraph} {n W : Nat} {j k u v : Nat} {a w x : Int} {y : WithTop Int}

def tag (x : Int) : WithTop Int := if x = INT_MAX then ⊤ else x

theorem tag_of_lt (h : x < INT_MAX) : tag x = x := if_neg h.ne

theorem tag_le {x y : Int} (hy : y ≤ INT_MAX) (h : x ≤ y) : tag x ≤ tag y := by
  rcases hy.eq_or_lt with rfl | hlt
  · rw [tag, tag, if_pos rfl]
    exact le_top
  · rw [tag_of_lt hlt, tag_of_lt (h.trans_lt hlt)]
    exact WithTop.coe_le_coe.mpr h

theorem tag_lt_iff {x y : Int} (hx : x ≤ INT_MAX) (hy : y ≤ INT_MAX) : tag x < tag y ↔ x < y := by
  constructor
  · intro h
    by_contra hle
    exact (tag_le hx (Int.not_lt.mp hle)).not_gt h
  · intro h
    rw [tag_of_lt (h.trans_le hy)]
    rcases hy.eq_or_lt with rfl | hlt
    · rw [tag, if_pos rfl]
      exact WithTop.coe_lt_top x
    · rw [tag_of_lt hlt]
      exact WithTop.coe_lt_coe.mpr h

def topArcs (g : WGraph) (n : Nat) : Set (Arc Nat (WithTop Int)) :=
  fun e => ∃ s < n, ∃ d ∈ g.out_neigh[s]!, e = ⟨s, d.v, WithTop.map (· + d.w)⟩

theorem topArcs_monotone : ∀ e ∈ topArcs g n, Monotone e.offer := by
  rintro e ⟨s, _, d, _, rfl⟩
  exact Monotone.withTop_map fun x y h => Int.add_le_add_right h d.w

theorem Walk.lt (hg : g.Wellformed n) (hu : u < n) (h : Walk g u k v w) : v < n := by
  induction h with
  | nil => exact hu
  | snoc _ hd ih => exact hg.out_lt _ ih _ hd

theorem Walk.along (hg : g.Wellformed n) (hu : u < n) (h : Walk g u k v w) :
    Along (topArcs g n) u (a : WithTop Int) k v ((a + w : Int) : WithTop Int) := by
  induction h with
  | nil =>
    rw [Int.add_zero]
    exact .nil
  | @snoc k v w d hwalk hd ih =>
    have hstep := Along.snoc (e := ⟨v, d.v, WithTop.map (· + d.w)⟩) ih ⟨v, hwalk.lt hg hu, d, hd, rfl⟩
    rw [← Int.add_assoc]
    exact hstep

theorem walk_of_along (h : Along (topArcs g n) u (a : WithTop Int) k v y) :
    ∃ w, Walk g u k v w ∧ y = ((a + w : Int) : WithTop Int) := by
  induction h with
  | nil => exact ⟨0, .nil, by rw [Int.add_zero]⟩
  | snoc _ he ih =>
    obtain ⟨s, _, d, hd, rfl⟩ := he
    obtain ⟨w, hwalk, rfl⟩ := ih
    refine ⟨w + d.w, .snoc hwalk hd, ?_⟩
    rw [← Int.add_assoc]
    rfl

theorem Walk.bounds (hg : g.Wellformed n) (hW : Bounded g n W) (hu : u < n)
    (h : Walk g u k v w) : -((k * W : Nat) : Int) ≤ w := by
  induction h with
  | nil => simp
  | @snoc k v w d hwalk hd ih =>
    have := (hW v (hwalk.lt hg hu) d hd).1
    rw [Nat.succ_mul]
    omega

theorem Walk.nonneg (hg : g.Wellformed n) (hu : u < n)
    (hweight : ∀ s < n, ∀ d ∈ g.out_neigh[s]!, 0 ≤ d.w) (h : Walk g u k v w) : 0 ≤ w := by
  induction h with
  | nil => exact le_rfl
  | snoc hwalk hd ih => exact Int.add_nonneg ih (hweight _ (hwalk.lt hg hu) _ hd)

theorem NoNegativeCycle.of_nonneg (hg : g.Wellformed n) (hn : 0 < n)
    (hweight : ∀ s < n, ∀ d ∈ g.out_neigh[s]!, 0 ≤ d.w) : NoNegativeCycle g :=
  fun _ _ _ _ _ hwalk hcycle => hcycle.nonneg hg (hwalk.lt hg hn) hweight

end Labels

section Example

theorem oneEdge_bounded : Bounded oneEdge 2 5 := by
  unfold Bounded
  decide

theorem oneEdge_walk : Walk oneEdge 0 1 1 5 := .snoc (d := ⟨1, 5⟩) .nil (by decide)

theorem oneEdge_noNegativeCycle : NoNegativeCycle oneEdge :=
  .of_nonneg oneEdge_wellformed (by decide) (by decide)

theorem oneEdge_sssp : Sssp.Main .pull oneEdge 2
    ⟨#[0, 5], none, ⟨2, 0, none, [], some #[false, false]⟩⟩ := by
  have hfirst : PullRound oneEdge Sssp.updateEdge
      ⟨#[0, INT_MAX], none, (VertexSubset.make 2 0).addVertex 0⟩
      ⟨#[0, 5], none, ⟨2, 1, none, [], some #[false, true]⟩⟩ :=
    @PullRound.strands oneEdge Sssp.updateEdge _ _ _ [1, 0, 1, 1, 1]
      ⟨_, #[false, true], [.joined, .joined]⟩ rfl rfl rfl (by simp)
  have hsecond : PullRound oneEdge Sssp.updateEdge
      ⟨#[0, 5], none, ⟨2, 1, none, [], some #[false, true]⟩⟩
      ⟨#[0, 5], none, ⟨2, 0, none, [], some #[false, false]⟩⟩ :=
    @PullRound.strands oneEdge Sssp.updateEdge _ _ _ [1, 0, 1]
      ⟨_, #[false, false], [.joined, .joined]⟩ rfl rfl rfl (by simp)
  exact .round (.round (.start rfl) (by decide) ⟨by decide, hfirst⟩) (by decide)
    ⟨by decide, hsecond⟩

def twoCycle : WGraph := ⟨#[[⟨1, 1⟩], [⟨0, -2⟩]], #[[⟨1, -2⟩], [⟨0, 1⟩]]⟩

theorem twoCycle_wellformed : twoCycle.Wellformed 2 where
  out_size := rfl
  in_size := rfl
  fits := by decide
  out_lt := by decide
  in_lt := by decide
  transposed s hs d hd w := by
    interval_cases s <;> interval_cases d <;> simp [twoCycle]

theorem twoCycle_bounded : Bounded twoCycle 2 2 := by
  unfold Bounded
  decide

theorem twoCycle_walk : Walk twoCycle 0 2 0 (-1) :=
  .snoc (d := ⟨0, -2⟩) (.snoc (d := ⟨1, 1⟩) .nil (by decide)) (by decide)

theorem twoCycle_sssp : Sssp.Main .pull twoCycle 2
    ⟨#[-1, 1], none, ⟨2, 1, none, [], some #[true, false]⟩⟩ := by
  have hfirst : PullRound twoCycle Sssp.updateEdge
      ⟨#[0, INT_MAX], none, (VertexSubset.make 2 0).addVertex 0⟩
      ⟨#[0, 1], none, ⟨2, 1, none, [], some #[false, true]⟩⟩ :=
    @PullRound.strands twoCycle Sssp.updateEdge _ _ _ [0, 0, 1, 1, 1, 1]
      ⟨_, #[false, true], [.joined, .joined]⟩ rfl rfl rfl (by simp)
  have hsecond : PullRound twoCycle Sssp.updateEdge
      ⟨#[0, 1], none, ⟨2, 1, none, [], some #[false, true]⟩⟩
      ⟨#[-1, 1], none, ⟨2, 1, none, [], some #[true, false]⟩⟩ :=
    @PullRound.strands twoCycle Sssp.updateEdge _ _ _ [0, 0, 0, 0, 1, 1]
      ⟨_, #[true, false], [.joined, .joined]⟩ rfl rfl rfl (by simp)
  exact .round (.round (.start rfl) (by decide) ⟨by decide, hfirst⟩) (by decide)
    ⟨by decide, hsecond⟩

end Example

section Program
variable {g : WGraph} {n W : Nat} {k v : Nat} {l l' : Labels Nat Int} {dir : Direction}
variable {st st₀ : Program}

/-- What is known after `k` rounds: every label is the length of a walk, and no more than `k` edges
can add up to. -/
structure Reached (g : WGraph) (n W k : Nat) (l : Labels Nat Int) : Prop where
  top : ∀ v, l.label v ≤ INT_MAX
  active : ∀ v ∈ l.active, v < n ∧ l.label v ≠ INT_MAX
  walk : ∀ v < n, l.label v ≠ INT_MAX → l.label v ≤ (k * W : Nat) ∧ ∃ j, Walk g 0 j v (l.label v)

def tagged (l : Labels Nat Int) : Labels Nat (WithTop Int) := ⟨fun v => tag (l.label v), l.active⟩

theorem mul_lt_max (hfit : n * W < 2147483647) (hk : k ≤ n) : ((k * W : Nat) : Int) < INT_MAX := by
  have := Nat.mul_le_mul_right W hk
  rw [INT_MAX]
  omega

theorem Reached.round_walk (hg : g.Wellformed n) (hW : Bounded g n W) (h : Reached g n W k l)
    (hround : Round (arcs g n fun w x => x + w) l l') (v : Nat) :
    l'.label v = l.label v ∨ v < n ∧ l'.label v ≤ ((k + 1) * W : Nat) ∧
      ∃ j, Walk g 0 j v (l'.label v) := by
  refine hround.sound (fun v x => v < n ∧ x ≤ ((k + 1) * W : Nat) ∧ ∃ j, Walk g 0 j v x)
    (fun v hv => ?_) ?_ v
  · obtain ⟨hvn, hmax⟩ := h.active v hv
    obtain ⟨hle, hwalk⟩ := h.walk v hvn hmax
    rw [Nat.succ_mul]
    exact ⟨hvn, by omega, hwalk⟩
  · rintro e ⟨s, hs, d, hd, rfl⟩ hact x hx ⟨_, _, i, hwalk⟩
    obtain ⟨hle, _⟩ := h.walk s hs (h.active s hact).2
    have hw := (hW s hs d hd).2
    rw [Nat.succ_mul]
    refine ⟨hg.out_lt s hs d hd, ?_, i + 1, .snoc hwalk hd⟩
    simp only at hx ⊢
    omega

theorem Reached.round (hg : g.Wellformed n) (hW : Bounded g n W) (hfit : n * W < 2147483647)
    (hk : k < n) (h : Reached g n W k l) (hround : Round (arcs g n fun w x => x + w) l l') :
    Reached g n W (k + 1) l' ∧ Round (topArcs g n) (tagged l) (tagged l') := by
  have hwalk := h.round_walk hg hW hround
  have htop (v : Nat) : l'.label v ≤ INT_MAX := (hround.lower v).trans (h.top v)
  -- the label of an active vertex can still be added to
  have hbelow {s : Nat} {d : WNode} (hs : s < n) (hd : d ∈ g.out_neigh[s]!) (hact : s ∈ l.active) :
      l.label s < INT_MAX ∧ l.label s + d.w < INT_MAX := by
    obtain ⟨hle, _⟩ := h.walk s hs (h.active s hact).2
    have hw := (hW s hs d hd).2
    have hmax := mul_lt_max hfit hk
    have hmax' := mul_lt_max hfit hk.le
    rw [Nat.succ_mul] at hmax
    omega
  refine ⟨⟨htop, fun v hv => ?_, fun v hv hne => ?_⟩, hround.map tag
    (fun v => tag_le (h.top v) (hround.lower v)) (fun v => tag_lt_iff (htop v) (h.top v)) ?_ ?_⟩
  · rcases hwalk v with hsame | ⟨hvn, hle, _⟩
    · exact absurd hsame ((hround.active v).mp hv).ne
    · exact ⟨hvn, (hle.trans_lt (mul_lt_max hfit hk)).ne⟩
  · rcases hwalk v with hsame | ⟨_, hall⟩
    · rw [hsame] at hne ⊢
      obtain ⟨hle, hw⟩ := h.walk v hv hne
      rw [Nat.succ_mul]
      exact ⟨by omega, hw⟩
    · exact hall
  · rintro e ⟨s, hs, d, hd, rfl⟩ hact
    obtain ⟨hlt, hsum⟩ := hbelow hs hd hact
    have hserved := hround.served _ ⟨s, hs, d, hd, rfl⟩ hact
    simp only at hserved ⊢
    rw [tag_of_lt hlt, tag_of_lt (hserved.trans_lt hsum)]
    exact WithTop.coe_le_coe.mpr hserved
  · rintro e ⟨s, hs, d, hd, rfl⟩ hact x hx
    obtain ⟨hlt, hsum⟩ := hbelow hs hd hact
    simp only at hx ⊢
    refine ⟨_, ⟨s, hs, d, hd, rfl⟩, rfl, rfl, tag_le (h.top s) hx, ?_⟩
    rw [tag_of_lt (hx.trans_lt hlt), tag_of_lt (show x + d.w < INT_MAX by omega)]
    rfl

theorem Sssp.start_spec (hg : g.Wellformed n) (hn : 0 < n) (hstart : Sssp.start g = some st₀) :
    Ready n st₀ {0} ∧ Reached g n W 0 (st₀.view {0}) ∧ st₀.labels[0]! = 0 ∧
      ∀ v < n, v ≠ 0 → st₀.labels[v]! = INT_MAX := by
  have hnodes : g.num_nodes = n := hg.out_size
  have hsize : 0 < (Array.replicate n INT_MAX).size := by simpa using hn
  rw [Sssp.start, hnodes, store_eq hsize, some_bind] at hstart
  obtain rfl := Option.some.inj hstart
  have hget (v : Nat) (hv : v < n) : ((Array.replicate n INT_MAX).setIfInBounds 0 0)[v]! =
      if v = 0 then 0 else INT_MAX := by
    rw [put_get hsize, replicate_get n v INT_MAX hv]
  refine ⟨⟨by simp, fun a ha => (by cases ha), VertexSubset.make_single hn⟩,
    ⟨fun v => ?_, fun v hv => ?_, fun v hv hne => ?_⟩, by rw [hget 0 hn, if_pos rfl],
    fun v hv hne => by rw [hget v hv, if_neg hne]⟩
  · simp only [Program.view]
    by_cases hv : v < n
    · rw [hget v hv]
      split_ifs <;> decide
    · rw [getElem!_neg _ v (by simpa using hv)]
      decide
  · obtain rfl : v = 0 := Finset.mem_singleton.mp hv
    simp only [Program.view, hget 0 hn, if_true]
    exact ⟨hn, by decide⟩
  · simp only [Program.view, hget v hv] at hne ⊢
    by_cases hv0 : v = 0
    · subst hv0
      exact ⟨by simp, 0, .nil⟩
    · rw [if_neg hv0] at hne
      exact absurd rfl hne

theorem Sssp.offers {F : Finset Nat} (h : Reached g n W k (st.view F)) :
    Offers g Sssp.updateEdge (fun w x => x + w) (fun v x => ∃ j, Walk g 0 j v x) F
      fun v => st.labels[v]! where
  start s hs := by
    obtain ⟨hsn, hne⟩ := h.active s hs
    exact (h.walk s hsn hne).2
  mono w _ _ hxy := Int.add_le_add_right hxy w
  keeps s _ d hd x y hwalk _ hupd := by
    rw [Sssp.updateEdge, addInt] at hupd
    split_ifs at hupd
    cases hupd
    obtain ⟨j, hwalk⟩ := hwalk
    exact ⟨rfl, j + 1, .snoc hwalk hd⟩

theorem Sssp.Main.loops (hg : g.Wellformed n) (h : Sssp.Main dir g k st) :
    ∃ st₀, Sssp.start g = some st₀ ∧ Repeat (dir.Loop g Sssp.updateEdge) st₀ k st ∧ k ≤ n := by
  have hnodes : g.num_nodes = n := hg.out_size
  induction h with
  | start h => exact ⟨_, h, .zero, Nat.zero_le n⟩
  | round _ hbreak hloop ih =>
    obtain ⟨st₀, hstart, hrun, hk⟩ := ih
    exact ⟨st₀, hstart, .succ hrun hloop, lt_of_le_of_ne hk (hnodes ▸ hbreak)⟩

theorem Sssp.simulates (hg : g.Wellformed n) (hn : 0 < n) (hW : Bounded g n W)
    (hfit : n * W < 2147483647) (hstart : Sssp.start g = some st₀) (hk : k ≤ n)
    (hrun : Repeat (dir.Loop g Sssp.updateEdge) st₀ k st) :
    ∃ F, Ready n st F ∧ Repeat (Round (topArcs g n)) (tagged (st₀.view {0})) k (tagged (st.view F)) ∧
      Reached g n W k (st.view F) := by
  obtain ⟨hready, hreached, _⟩ := Sssp.start_spec (W := W) hg hn hstart
  obtain ⟨F, hst, hrounds, hJ⟩ := Direction.simulates
    (R := fun l l' => Round (topArcs g n) (tagged l) (tagged l')) (Reached g n W) hg hready hreached
    (fun k st F _ _ hJ => Sssp.offers hJ)
    (fun k l l' hk hJ hround => hJ.round hg hW hfit hk hround) hrun hk
  exact ⟨F, hst, hrounds.map tagged, hJ⟩

section Start
variable (hg : g.Wellformed n) (hn : 0 < n) (hstart : Sssp.start g = some st₀)
include hg hn hstart

theorem Sssp.start_label : (tagged (st₀.view {0})).label 0 = ((0 : Int) : WithTop Int) := by
  obtain ⟨_, _, hzero, _⟩ := Sssp.start_spec (W := 0) hg hn hstart
  simp only [tagged, Program.view, hzero]
  exact tag_of_lt (by decide)

theorem Sssp.start_top (hv : v < n) (hv0 : v ≠ 0) : (tagged (st₀.view {0})).label v = ⊤ := by
  obtain ⟨_, _, _, htop⟩ := Sssp.start_spec (W := 0) hg hn hstart
  simp only [tagged, Program.view, htop v hv hv0]
  exact if_pos rfl

theorem Sssp.resting : Resting (topArcs g n) (tagged (st₀.view {0})) := by
  rintro e ⟨s, hs, d, _, rfl⟩ hrest
  have hs0 : s ≠ 0 := fun he => hrest (Finset.mem_singleton.mpr he)
  simp only [Sssp.start_top hg hn hstart hs hs0]
  exact le_top

theorem Sssp.offered_iff {y : WithTop Int} :
    Offered (topArcs g n) (tagged (st₀.view {0})) k v y ↔ ∃ w : Int, Walk g 0 k v w ∧ y = w := by
  constructor
  · rintro ⟨u, hu, hwalk⟩
    obtain rfl : u = 0 := Finset.mem_singleton.mp hu
    rw [Sssp.start_label hg hn hstart] at hwalk
    obtain ⟨w, hw, rfl⟩ := walk_of_along hwalk
    exact ⟨w, hw, by rw [Int.zero_add]⟩
  · rintro ⟨w, hw, rfl⟩
    refine ⟨0, Finset.mem_singleton_self 0, ?_⟩
    rw [Sssp.start_label hg hn hstart]
    have hwalk := hw.along (a := 0) hg hn
    rwa [Int.zero_add] at hwalk

end Start

theorem NoNegativeCycle.noGain (h : NoNegativeCycle g) :
    NoGain (topArcs g n) 0 ((0 : Int) : WithTop Int) := by
  intro j v y k z hfirst hcycle
  obtain ⟨a, ha, rfl⟩ := walk_of_along hfirst
  obtain ⟨c, hc, rfl⟩ := walk_of_along hcycle
  have := h j v a k c ha hc
  exact WithTop.coe_le_coe.mpr (by omega)

theorem topArcs_lt (hg : g.Wellformed n) : ∀ e ∈ topArcs g n, e.dst ∈ Finset.range n := by
  rintro e ⟨s, hs, d, hd, rfl⟩
  exact Finset.mem_range.mpr (hg.out_lt s hs d hd)

/-- Without negative cycles a walk is no shorter than fewer than `n` edges can make it. -/
theorem Walk.ge (hg : g.Wellformed n) (hn : 0 < n) (hW : Bounded g n W)
    (hcycle : NoNegativeCycle g) {w : Int} (h : Walk g 0 k v w) : -((n * W : Nat) : Int) + W ≤ w := by
  have hwalk := h.along (a := 0) hg hn
  obtain ⟨j, hj, y, hy, hshort⟩ := hwalk.short topArcs_monotone hcycle.noGain (topArcs_lt hg)
    (Finset.mem_range.mpr hn)
  obtain ⟨w', hw', rfl⟩ := walk_of_along hshort
  have hle := WithTop.coe_le_coe.mp hy
  have hlow := hw'.bounds hg hW hn
  rw [Finset.card_range] at hj
  have hmul := Nat.mul_le_mul_right W (Nat.succ_le_of_lt hj)
  rw [Nat.succ_mul] at hmul
  omega

theorem Sssp.defined (hg : g.Wellformed n) (hn : 0 < n) (hW : Bounded g n W)
    (hfit : n * W < 2147483647) (hcycle : NoNegativeCycle g) (hk : k < n) {F : Finset Nat}
    (h : Reached g n W k (st.view F)) :
    Defined g Sssp.updateEdge (fun v x => ∃ j, Walk g 0 j v x) F fun v => st.labels[v]! := by
  rintro s hs d hd x ⟨j, hwalk⟩ hx
  obtain ⟨hsn, hne⟩ := h.active s hs
  have hle : x ≤ (k * W : Nat) := hx.trans (h.walk s hsn hne).1
  have hlow := hwalk.ge hg hn hW hcycle
  have hw := hW s hsn d hd
  have hmul := Nat.mul_le_mul_right W (Nat.succ_le_of_lt hk)
  rw [Nat.succ_mul] at hmul
  exact ⟨x + d.w, if_pos (by omega)⟩

/-- Where no negative cycle is reached the last round has emptied the frontier. -/
theorem Sssp.quiet (hg : g.Wellformed n) (hn : 0 < n) (hcycle : NoNegativeCycle g)
    (hstart : Sssp.start g = some st₀) {t : Labels Nat (WithTop Int)}
    (hrounds : Repeat (Round (topArcs g n)) (tagged (st₀.view {0})) n t) : t.active = ∅ := by
  refine hrounds.quiet (S := Finset.range n) topArcs_monotone (fun u hu => ?_) (topArcs_lt hg)
    (fun u hu => ?_) (Sssp.resting hg hn hstart) (Finset.card_range n).le
  · obtain rfl : u = 0 := Finset.mem_singleton.mp hu
    rw [Sssp.start_label hg hn hstart]
    exact hcycle.noGain
  · obtain rfl : u = 0 := Finset.mem_singleton.mp hu
    exact Finset.mem_range.mpr hn

/-- Without negative cycles no round gets stuck in any order of its steps, by an overflow or else. -/
theorem Sssp.Main.goes_on (dir : Direction) (hg : g.Wellformed n) (hn : 0 < n) (hW : Bounded g n W)
    (hfit : n * W < 2147483647) (hcycle : NoNegativeCycle g) (hrun : Sssp.Main dir g k st)
    (hmore : ¬ Sssp.Over g k st) :
    dir.Safe g Sssp.updateEdge st ∧ ∃ st', dir.Apply g Sssp.updateEdge st st' := by
  have hnodes : g.num_nodes = n := hg.out_size
  obtain ⟨st₀, hstart, hloops, hk⟩ := hrun.loops hg
  obtain ⟨F, hst, _, hreached⟩ := Sssp.simulates hg hn hW hfit hstart hk hloops
  obtain ⟨hmore, hkn⟩ := not_or.mp hmore
  have hF := hst.nonempty_iff.mp hmore
  have hdef := Sssp.defined hg hn hW hfit hcycle (lt_of_le_of_ne hk (hnodes ▸ hkn)) hreached
  exact ⟨Direction.safe hg hst hF (Sssp.offers hreached) hdef,
    Direction.round_exists hg hn hst hF (Sssp.offers hreached) hdef⟩

/-- Without negative cycles, and with weights that cannot overflow: no round gets stuck in any order
of its steps, and when the loop is over, every label is the length of a shortest walk, or `INT_MAX`
where there is none. -/
theorem sssp_shortest (dir : Direction) (hg : g.Wellformed n) (hn : 0 < n) (hW : Bounded g n W)
    (hfit : n * W < 2147483647) (hcycle : NoNegativeCycle g) (hrun : Sssp.Main dir g k st) :
    (¬ Sssp.Over g k st → dir.Safe g Sssp.updateEdge st ∧
      ∃ st', dir.Apply g Sssp.updateEdge st st') ∧
    (Sssp.Over g k st → ∀ v < n,
      ((∃ j w, Walk g 0 j v w) → (∃ j, Walk g 0 j v st.labels[v]!) ∧
        ∀ j w, Walk g 0 j v w → st.labels[v]! ≤ w) ∧
      ((¬ ∃ j w, Walk g 0 j v w) → st.labels[v]! = INT_MAX)) := by
  have hnodes : g.num_nodes = n := hg.out_size
  obtain ⟨st₀, hstart, hloops, hk⟩ := hrun.loops hg
  obtain ⟨F, hst, hrounds, hreached⟩ := Sssp.simulates hg hn hW hfit hstart hk hloops
  have hresting := Sssp.resting hg hn hstart
  refine ⟨hrun.goes_on dir hg hn hW hfit hcycle, fun hover v hv => ?_⟩
  have hquiet : (tagged (st.view F)).active = ∅ := by
    cases hover with
    | inl hdone =>
      exact Set.eq_empty_iff_forall_notMem.mpr fun u hu => hst.nonempty_iff.mpr ⟨u, hu⟩ hdone
    | inr hkn =>
      obtain rfl : k = n := hkn.trans hnodes
      exact Sssp.quiet hg hn hcycle hstart hrounds
  have hleast {j : Nat} {w : Int} (hw : Walk g 0 j v w) : tag st.labels[v]! ≤ w :=
    hrounds.least topArcs_monotone hresting hquiet
      ((Sssp.offered_iff hg hn hstart).mpr ⟨w, hw, rfl⟩)
  refine ⟨fun hsome => ?_, fun hnone => ?_⟩
  · obtain ⟨j, w, hw⟩ := hsome
    have hne : st.labels[v]! ≠ INT_MAX := by
      intro he
      have hle := hleast hw
      rw [he, tag, if_pos rfl] at hle
      exact absurd (top_le_iff.mp hle) WithTop.coe_ne_top
    refine ⟨(hreached.walk v hv hne).2, fun j' w' hw' => ?_⟩
    have hle := hleast hw'
    rw [tag, if_neg hne] at hle
    exact WithTop.coe_le_coe.mp hle
  · by_contra hne
    obtain ⟨_, j, hwalk⟩ := hreached.walk v hv hne
    exact hnone ⟨j, _, hwalk⟩

theorem sssp_shortest_oneEdge :
    (∃ j, Walk oneEdge 0 j 1 5) ∧ ∀ j w, Walk oneEdge 0 j 1 w → 5 ≤ w :=
  ((sssp_shortest .pull oneEdge_wellformed (by decide) oneEdge_bounded (by decide)
    oneEdge_noNegativeCycle oneEdge_sssp).2 (.inl rfl) 1 (by decide)).1 ⟨1, 5, oneEdge_walk⟩

/-- With a negative cycle that vertex 0 reaches, the loop only ends with the message, in a run in which
no addition overflows. -/
theorem sssp_negative_cycle (dir : Direction) (hg : g.Wellformed n) (hn : 0 < n)
    (hW : Bounded g n W) (hfit : n * W < 2147483647) {i j : Nat} {a c : Int}
    (hwalk : Walk g 0 i v a) (hcycle : Walk g v j v c) (hneg : c < 0)
    (hrun : Sssp.Main dir g k st) (hover : Sssp.Over g k st) : Sssp.Reported g k := by
  obtain ⟨st₀, hstart, hloops, hk⟩ := hrun.loops hg
  obtain ⟨F, hst, hrounds, hreached⟩ := Sssp.simulates hg hn hW hfit hstart hk hloops
  have hresting := Sssp.resting hg hn hstart
  refine hover.resolve_left fun hdone => ?_
  have hquiet : (tagged (st.view F)).active = ∅ :=
    Set.eq_empty_iff_forall_notMem.mpr fun u hu => hst.nonempty_iff.mpr ⟨u, hu⟩ hdone
  have hvn := hwalk.lt hg hn
  have hle := hrounds.least topArcs_monotone hresting hquiet
    ((Sssp.offered_iff hg hn hstart).mpr ⟨a, hwalk, rfl⟩)
  have hne : st.labels[v]! ≠ INT_MAX := by
    intro he
    rw [show (tagged (st.view F)).label v = ⊤ from if_pos he] at hle
    exact absurd (top_le_iff.mp hle) WithTop.coe_ne_top
  have hlabel : (tagged (st.view F)).label v = ((st.labels[v]! : Int) : WithTop Int) := if_neg hne
  -- once around the cycle would make the label lower still
  have hround := hcycle.along (a := st.labels[v]!) hg hvn
  rw [← hlabel] at hround
  have hgain := (hrounds.resting hresting).along topArcs_monotone hquiet hround
  rw [hlabel] at hgain
  have := WithTop.coe_le_coe.mp hgain
  omega

theorem sssp_negative_cycle_twoCycle : Sssp.Reported twoCycle 2 :=
  sssp_negative_cycle .pull twoCycle_wellformed (by decide) twoCycle_bounded (by decide) .nil
    twoCycle_walk (by decide) twoCycle_sssp (.inr rfl)

/-- So it does where a vertex is `n - 1` edges away, as the end of a path is: the message comes
without any negative cycle, and no order of the steps keeps the program from it. -/
theorem sssp_far_vertex (dir : Direction) (hg : g.Wellformed n) (hn : 0 < n)
    (hW : Bounded g n W) (hfit : n * W < 2147483647) (hcycle : NoNegativeCycle g) {w : Int}
    (hwalk : Walk g 0 (n - 1) v w) (hfar : ∀ j < n - 1, ∀ w, ¬ Walk g 0 j v w)
    (hrun : Sssp.Main dir g k st) :
    (¬ Sssp.Over g k st → dir.Safe g Sssp.updateEdge st ∧
      ∃ st', dir.Apply g Sssp.updateEdge st st') ∧
    (Sssp.Over g k st → Sssp.Reported g k) := by
  refine ⟨hrun.goes_on dir hg hn hW hfit hcycle, fun hover => ?_⟩
  have hnodes : g.num_nodes = n := hg.out_size
  obtain ⟨st₀, hstart, hloops, hk⟩ := hrun.loops hg
  obtain ⟨F, hst, hrounds, _⟩ := Sssp.simulates hg hn hW hfit hstart hk hloops
  by_contra hkn
  have hdone := hover.resolve_right hkn
  have hlt : k < n := lt_of_le_of_ne hk (hnodes ▸ hkn)
  refine hrounds.busy (m := n - 1) topArcs_monotone (Sssp.resting hg hn hstart)
    ((Sssp.offered_iff hg hn hstart).mpr ⟨w, hwalk, rfl⟩) (fun j hj y hoff => ?_) (fun hm => ?_)
    (Nat.le_sub_one_of_lt hlt) (Set.eq_empty_iff_forall_notMem.mpr fun u hu =>
      hst.nonempty_iff.mpr ⟨u, hu⟩ hdone)
  · obtain ⟨w', hw', _⟩ := (Sssp.offered_iff hg hn hstart).mp hoff
    exact hfar j hj w' hw'
  · have hv0 : v ≠ 0 := by
      rintro rfl
      exact hfar 0 (Nat.pos_of_ne_zero hm) 0 .nil
    rw [Sssp.start_top hg hn hstart (hwalk.lt hg hn) hv0]
    exact WithTop.coe_lt_top w

theorem sssp_far_vertex_oneEdge : Sssp.Reported oneEdge 2 :=
  (sssp_far_vertex .pull oneEdge_wellformed (by decide) oneEdge_bounded (by decide)
    oneEdge_noNegativeCycle oneEdge_walk
    (fun j hj w hwalk => by obtain rfl := Nat.lt_one_iff.mp hj; cases hwalk) oneEdge_sssp).2
    (.inl rfl)

end Program

end GraphReorder.GraphIt
