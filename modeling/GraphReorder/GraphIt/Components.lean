import GraphReorder.GraphIt.Direction

/-! The benchmark program `cc`: every vertex ends up with the least vertex that reaches it. -/
namespace GraphReorder.GraphIt
open Library

namespace Cc

def updateEdge (_weight label : Int) : Option Int := some label

def start (g : WGraph) : Program where
  labels := (Array.range g.num_nodes).map Int.ofNat
  flags := none
  frontier := VertexSubset.make g.num_nodes g.num_nodes

end Cc

def Reaches (g : WGraph) : Nat → Nat → Prop :=
  Relation.ReflTransGen fun u v => ∃ d ∈ g.out_neigh[u]!, d.v = v

section Components
variable {g : WGraph} {n : Nat} {st : Program} {k u v : Nat} {x y : Int} {dir : Direction}

theorem Reaches.lt (hg : g.Wellformed n) (hu : u < n) (h : Reaches g u v) : v < n := by
  induction h with
  | refl => exact hu
  | tail _ hstep ih =>
    obtain ⟨d, hd, rfl⟩ := hstep
    exact hg.out_lt _ ih d hd

theorem Cc.along_iff (hg : g.Wellformed n) (hu : u < n) :
    (∃ k, Along (arcs g n fun _ x => x) u x k v y) ↔ Reaches g u v ∧ y = x := by
  constructor
  · rintro ⟨k, h⟩
    induction h with
    | nil => exact ⟨.refl, rfl⟩
    | snoc _ he ih =>
      obtain ⟨s, _, d, hd, rfl⟩ := he
      exact ⟨ih.1.tail ⟨d, hd, rfl⟩, ih.2⟩
  · rintro ⟨h, rfl⟩
    induction h with
    | refl => exact ⟨0, .nil⟩
    | @tail s t hpath hstep ih =>
      obtain ⟨d, hd, rfl⟩ := hstep
      obtain ⟨k, hwalk⟩ := ih
      exact ⟨k + 1, .snoc (e := ⟨s, d.v, fun x => x⟩) hwalk
        ⟨s, Reaches.lt hg hu hpath, d, hd, rfl⟩⟩

theorem Cc.start_ready (hg : g.Wellformed n) : Ready n (Cc.start g) (Finset.range n) := by
  have hnodes : g.num_nodes = n := hg.out_size
  rw [Cc.start, hnodes]
  exact ⟨by simp, fun a ha => (by cases ha), VertexSubset.make_all n⟩

theorem Cc.start_label (hg : g.Wellformed n) (hv : v < n) : (Cc.start g).labels[v]! = v := by
  have hnodes : g.num_nodes = n := hg.out_size
  rw [Cc.start, getElem!_pos _ v (by simpa [hnodes] using hv)]
  simp

theorem Cc.offers {F : Finset Nat} (l : Nat → Int) :
    Offers g Cc.updateEdge (fun _ x => x) (fun _ _ => True) F l where
  start _ _ := trivial
  mono _ := monotone_id
  keeps _ _ _ _ _ _ _ _ h := ⟨(Option.some.inj h).symm, trivial⟩

theorem Cc.defined {F : Finset Nat} (l : Nat → Int) :
    Defined g Cc.updateEdge (fun _ _ => True) F l := fun _ _ _ _ x _ _ => ⟨x, rfl⟩

/-- After `k` rounds of `cc`, the labels are what `k` rounds of the relaxation make of them. -/
theorem Cc.simulates (hg : g.Wellformed n)
    (hrun : Repeat (dir.Loop g Cc.updateEdge) (Cc.start g) k st) :
    ∃ F, Ready n st F ∧ Repeat (Round (arcs g n fun _ x => x))
      ((Cc.start g).view (Finset.range n)) k (st.view F) := by
  obtain ⟨F, hst, hrounds, _⟩ := Direction.simulates (Q := fun _ _ _ => True) (fun _ _ => True) hg
    (Cc.start_ready hg) trivial (fun _ st _ _ _ _ => Cc.offers fun v => st.labels[v]!)
    (fun _ _ _ _ _ hround => ⟨trivial, hround⟩) hrun le_rfl
  exact ⟨F, hst, hrounds⟩

theorem Cc.monotone : ∀ e ∈ arcs g n fun _ x => x, Monotone e.offer :=
  (Cc.offers (g := g) (F := ∅) fun _ => 0).monotone

theorem Cc.resting : Resting (arcs g n fun _ x => x) ((Cc.start g).view (Finset.range n)) := by
  rintro e ⟨s, hs, d, hd, rfl⟩ hrest
  exact absurd (Finset.mem_range.mpr hs) hrest

theorem Cc.offered_iff (hg : g.Wellformed n) :
    (∃ k, Offered (arcs g n fun _ x => x) ((Cc.start g).view (Finset.range n)) k v x) ↔
      ∃ u < n, Reaches g u v ∧ x = u := by
  constructor
  · rintro ⟨k, u, hu, hwalk⟩
    have hun : u < n := Finset.mem_range.mp hu
    obtain ⟨hpath, hx⟩ := (Cc.along_iff hg hun).mp ⟨k, hwalk⟩
    exact ⟨u, hun, hpath, hx.trans (Cc.start_label hg hun)⟩
  · rintro ⟨u, hu, hpath, hx⟩
    obtain ⟨k, hwalk⟩ := (Cc.along_iff hg hu).mpr ⟨hpath, hx.trans (Cc.start_label hg hu).symm⟩
    exact ⟨k, u, Finset.mem_range.mpr hu, hwalk⟩

theorem Cc.quiet (hg : g.Wellformed n) {F : Finset Nat} (hk : n ≤ k)
    (h : Repeat (Round (arcs g n fun _ x => x)) ((Cc.start g).view (Finset.range n)) k
      (st.view F)) : F = ∅ := by
  have hempty : (st.view F).active = ∅ := h.quiet (S := Finset.range n) Cc.monotone
    (fun u hu => ?_) ?_ (fun v hv => hv) Cc.resting ((Finset.card_range n).le.trans hk)
  · refine Finset.eq_empty_iff_forall_notMem.mpr fun v hv => ?_
    have : v ∈ (st.view F).active := hv
    rw [hempty] at this
    exact this
  · intro j v y k z hfirst hcycle
    have hun : u < n := Finset.mem_range.mp hu
    have hvn := ((Cc.along_iff hg hun).mp ⟨j, hfirst⟩).1.lt hg hun
    exact ((Cc.along_iff hg hvn).mp ⟨k, hcycle⟩).2.ge
  · rintro e ⟨s, hs, d, hd, rfl⟩
    exact Finset.mem_range.mpr (hg.out_lt s hs d hd)

/-- The loop ends after as many rounds as there are vertices at most, no round gets stuck in any
order of its steps, and at the end the label of every vertex is the least vertex with a path to
it. -/
theorem cc_components (dir : Direction) (hg : g.Wellformed n)
    (hrun : Repeat (dir.Loop g Cc.updateEdge) (Cc.start g) k st) :
    k ≤ n ∧
    (st.frontier.num_vertices ≠ 0 → dir.Safe g Cc.updateEdge st ∧
      ∃ st', dir.Apply g Cc.updateEdge st st') ∧
    (st.frontier.num_vertices = 0 →
      ∀ v < n, ∃ u : Nat, st.labels[v]! = u ∧ IsLeast (fun u => u < n ∧ Reaches g u v) u) := by
  obtain ⟨F, hst, hrounds⟩ := Cc.simulates hg hrun
  refine ⟨?_, fun hmore => ?_, fun hdone v hv => ?_⟩
  · cases hrun with
    | zero => exact Nat.zero_le n
    | @succ k t _ hbefore hloop =>
      obtain ⟨F', hst', hrounds'⟩ := Cc.simulates hg hbefore
      by_contra hk
      have hF' := Cc.quiet hg (Nat.le_of_lt_succ (Nat.not_le.mp hk)) hrounds'
      exact (hst'.nonempty_iff.mp hloop.1).ne_empty hF'
  · have hF := hst.nonempty_iff.mp hmore
    obtain ⟨v, hv⟩ := hF
    exact ⟨Direction.safe hg hst ⟨v, hv⟩ (Cc.offers _) (Cc.defined _),
      Direction.round_exists hg (Nat.zero_lt_of_lt (hst.frontier.inside v hv)) hst ⟨v, hv⟩
        (Cc.offers _) (Cc.defined _)⟩
  · have hF : (st.view F).active = ∅ := by
      refine Set.eq_empty_iff_forall_notMem.mpr fun u hu => ?_
      exact hst.nonempty_iff.mpr ⟨u, hu⟩ hdone
    obtain ⟨u, hu, hpath, hlabel⟩ : ∃ u < n, Reaches g u v ∧ (st.view F).label v = u := by
      refine (Cc.offered_iff hg).mp ?_
      cases hrounds.sound.2 v with
      | inl hsame =>
        rw [hsame]
        exact ⟨0, v, Finset.mem_range.mpr hv, .nil⟩
      | inr hoff => exact hoff
    refine ⟨u, hlabel, ⟨hu, hpath⟩, fun u' hu' => ?_⟩
    obtain ⟨j, hoff⟩ := (Cc.offered_iff hg).mpr ⟨u', hu'.1, hu'.2, rfl⟩
    have hle := hrounds.least Cc.monotone Cc.resting hF hoff
    rw [hlabel] at hle
    exact Int.ofNat_le.mp hle

theorem oneEdge_cc : Repeat (Direction.pull.Loop oneEdge Cc.updateEdge) (Cc.start oneEdge) 2
    ⟨#[0, 0], none, ⟨2, 0, none, [], some #[false, false]⟩⟩ := by
  have hstart : Cc.start oneEdge = ⟨#[0, 1], none, VertexSubset.make 2 2⟩ := by
    simp [Cc.start, WGraph.num_nodes, oneEdge, ← Array.toList_inj, List.range_succ]
  have hfirst : PullRound oneEdge Cc.updateEdge (Cc.start oneEdge)
      ⟨#[0, 0], none, ⟨2, 1, none, [], some #[false, true]⟩⟩ :=
    hstart ▸ @PullRound.strands oneEdge Cc.updateEdge _ _ _ [1, 0, 1, 1, 1]
      ⟨_, #[false, true], [.joined, .joined]⟩ rfl rfl rfl (by simp)
  have hsecond : PullRound oneEdge Cc.updateEdge
      ⟨#[0, 0], none, ⟨2, 1, none, [], some #[false, true]⟩⟩
      ⟨#[0, 0], none, ⟨2, 0, none, [], some #[false, false]⟩⟩ :=
    @PullRound.strands oneEdge Cc.updateEdge _ _ _ [1, 0, 1]
      ⟨_, #[false, false], [.joined, .joined]⟩ rfl rfl rfl (by simp)
  exact .succ (.succ .zero ⟨by decide, hfirst⟩) ⟨by decide, hsecond⟩

theorem cc_components_oneEdge :
    ∃ u : Nat, (#[0, 0] : Array Int)[1]! = u ∧ IsLeast (fun u => u < 2 ∧ Reaches oneEdge u 1) u :=
  (cc_components .pull oneEdge_wellformed oneEdge_cc).2.2 rfl 1 (by decide)

end Components

end GraphReorder.GraphIt
