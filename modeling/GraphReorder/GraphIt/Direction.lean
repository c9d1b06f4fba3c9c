import Mathlib.Tactic.IntervalCases
import GraphReorder.GraphIt.Pull

/-! The three ways in which the programs are compiled: every round pushes, every round pulls, or a
round pulls when the frontier is large. -/
namespace GraphReorder.GraphIt
open Library

section Model
variable (g : WGraph) (updateEdge : Int → Int → Option Int)

/-- `edgeset_apply_hybrid_dense_parallel_deduplicatied_from_vertexset_with_frontier`. -/
inductive HybridRound (st : Program) : Program → Prop
  | pull {vs : VertexSubset} {degrees : Array Nat} {st' : Program}
      (hsparse : st.frontier.toSparse = some vs) (hdegrees : outDegrees g vs = some degrees)
      (hlarge : vs.num_vertices + degrees.toList.sum > g.num_edges / 20)
      (hround : PullRound g updateEdge { st with frontier := vs } st') : HybridRound st st'
  | push {vs : VertexSubset} {degrees : Array Nat} {st' : Program}
      (hsparse : st.frontier.toSparse = some vs) (hdegrees : outDegrees g vs = some degrees)
      (hsmall : ¬ vs.num_vertices + degrees.toList.sum > g.num_edges / 20)
      (hround : PushRound g updateEdge { st with frontier := vs } st') : HybridRound st st'

inductive Direction
  | push
  | pull
  | pushPull

def Direction.Apply : Direction → Program → Program → Prop
  | .push => PushRound g updateEdge
  | .pull => PullRound g updateEdge
  | .pushPull => HybridRound g updateEdge

def Direction.Safe (st : Program) : Direction → Prop
  | .push => PushSafe g updateEdge st
  | .pull => PullSafe g updateEdge st
  | .pushPull => ∃ vs degrees, st.frontier.toSparse = some vs ∧ outDegrees g vs = some degrees ∧
    PushSafe g updateEdge { st with frontier := vs } ∧
    PullSafe g updateEdge { st with frontier := vs }

def Direction.Loop (dir : Direction) (st st' : Program) : Prop :=
  st.frontier.num_vertices ≠ 0 ∧ dir.Apply g updateEdge st st'

end Model

section Specs
variable {g : WGraph} {n : Nat} {updateEdge : Int → Int → Option Int} {f : Int → Int → Int}
variable {P : Nat → Int → Prop} {F : Finset Nat} {st st' : Program} {dir : Direction}

theorem Ready.nonempty_iff (hst : Ready n st F) : st.frontier.num_vertices ≠ 0 ↔ F.Nonempty := by
  rw [hst.frontier.count, Finset.card_ne_zero]

theorem Ready.sparse (hst : Ready n st F) (hF : F.Nonempty) (hg : g.Wellformed n) :
    ∃ vs degrees, st.frontier.toSparse = some vs ∧ outDegrees g vs = some degrees ∧
      Ready n { st with frontier := vs } F := by
  obtain ⟨vs, a, hsparse, ha, hvs⟩ := VertexSubset.toSparse_spec hst.frontier hF
  obtain ⟨degs, hdegs, _⟩ := outDegrees_spec hg hvs ha
  exact ⟨vs, degs, hsparse, hdegs, hst.labels, hst.flags, hvs⟩

theorem Direction.relaxes (hg : g.Wellformed n) (hn : 0 < n) (hst : Ready n st F) (hF : F.Nonempty)
    (ho : Offers g updateEdge f P F fun v => st.labels[v]!)
    (hround : dir.Apply g updateEdge st st') :
    ∃ F', Ready n st' F' ∧ Round (arcs g n f) (st.view F) (st'.view F') := by
  cases dir with
  | push => exact push_relaxes hg hn hst hF ho hround
  | pull => exact pull_relaxes hg hn hst ho hround
  | pushPull =>
    obtain ⟨vs, _, hsparse, _, hready⟩ := hst.sparse hF hg
    cases hround with
    | pull hsparse' _ _ hround =>
      obtain rfl := Option.some.inj (hsparse'.symm.trans hsparse)
      have hrelaxed := pull_relaxes hg hn hready ho hround
      exact hrelaxed
    | push hsparse' _ _ hround =>
      obtain rfl := Option.some.inj (hsparse'.symm.trans hsparse)
      exact push_relaxes hg hn hready hF ho hround

theorem Direction.safe (hg : g.Wellformed n) (hst : Ready n st F) (hF : F.Nonempty)
    (ho : Offers g updateEdge f P F fun v => st.labels[v]!)
    (hdef : Defined g updateEdge P F fun v => st.labels[v]!) : dir.Safe g updateEdge st := by
  cases dir with
  | push => exact push_safe hg hst hF ho hdef
  | pull => exact pull_safe hg hst ho hdef
  | pushPull =>
    obtain ⟨vs, degs, hsparse, hdegs, hready⟩ := hst.sparse hF hg
    exact ⟨vs, degs, hsparse, hdegs, push_safe hg hready hF ho hdef,
      pull_safe hg hready ho hdef⟩

theorem Direction.round_exists (hg : g.Wellformed n) (hn : 0 < n) (hst : Ready n st F)
    (hF : F.Nonempty) (ho : Offers g updateEdge f P F fun v => st.labels[v]!)
    (hdef : Defined g updateEdge P F fun v => st.labels[v]!) :
    ∃ st', dir.Apply g updateEdge st st' := by
  cases dir with
  | push => exact push_exists hg hn hst hF ho hdef
  | pull => exact pull_exists hg hst ho hdef
  | pushPull =>
    obtain ⟨vs, degs, hsparse, hdegs, hready⟩ := hst.sparse hF hg
    by_cases hlarge : vs.num_vertices + degs.toList.sum > g.num_edges / 20
    · obtain ⟨st', hround⟩ := pull_exists hg hready ho hdef
      exact ⟨st', .pull hsparse hdegs hlarge hround⟩
    · obtain ⟨st', hround⟩ := push_exists hg hn hready hF ho hdef
      exact ⟨st', .push hsparse hdegs hlarge hround⟩

/-- A loop of the program is a loop of the relaxation, as long as `J` holds, which says what
`updateEdge` may be asked about. -/
theorem Direction.simulates {st₀ : Program} {F₀ : Finset Nat} {Q : Nat → Nat → Int → Prop}
    {R : Labels Nat Int → Labels Nat Int → Prop} (J : Nat → Labels Nat Int → Prop) {K k : Nat}
    (hg : g.Wellformed n) (hst₀ : Ready n st₀ F₀) (hstart : J 0 (st₀.view F₀))
    (hoffers : ∀ k st F, k < K → Ready n st F → J k (st.view F) →
      Offers g updateEdge f (Q k) F fun v => st.labels[v]!)
    (hkeeps : ∀ k l l', k < K → J k l → Round (arcs g n f) l l' → J (k + 1) l' ∧ R l l')
    (hrun : Repeat (dir.Loop g updateEdge) st₀ k st) (hk : k ≤ K) :
    ∃ F, Ready n st F ∧ Repeat R (st₀.view F₀) k (st.view F) ∧ J k (st.view F) := by
  induction hrun with
  | zero => exact ⟨F₀, hst₀, .zero, hstart⟩
  | @succ k st st' _ hloop ih =>
    obtain ⟨F, hst, hrounds, hJ⟩ := ih (Nat.le_of_succ_le hk)
    obtain ⟨hmore, hround⟩ := hloop
    obtain ⟨v, hv⟩ := hst.nonempty_iff.mp hmore
    obtain ⟨F', hst', hrelaxed⟩ := Direction.relaxes hg
      (Nat.zero_lt_of_lt (hst.frontier.inside v hv)) hst ⟨v, hv⟩ (hoffers k st F hk hst hJ) hround
    obtain ⟨hnext, hR⟩ := hkeeps k _ _ hk hJ hrelaxed
    exact ⟨F', hst', .succ hrounds hR, hnext⟩

end Specs

section Example

def oneEdge : WGraph := ⟨#[[⟨1, 5⟩], []], #[[], [⟨0, 5⟩]]⟩

theorem oneEdge_wellformed : oneEdge.Wellformed 2 where
  out_size := rfl
  in_size := rfl
  fits := by decide
  out_lt := by decide
  in_lt := by decide
  transposed s hs d hd w := by
    interval_cases s <;> interval_cases d <;> simp [oneEdge]

end Example

end GraphReorder.GraphIt
