import Mathlib.Algebra.BigOperators.Group.Finset.Basic
import Mathlib.Algebra.Order.BigOperators.Group.Finset
import GraphReorder.Loading

/-! Flushing the pending updates of the head, and the eviction loop around it. -/
namespace GraphReorder
open Library

variable {S : Setting} {s : Placement} {u v p : Nat} {w owed : List Nat}

/-- All pending updates: the measure of the flush loops. -/
def Setting.pending (S : Setting) (s : Placement) : Nat :=
  ∑ v ∈ Finset.range S.G1.numVertex, s.updates[v]!

theorem sum_row_length (hG : S.G1.Csr S.G2.numVertex) :
    ∑ v ∈ Finset.range S.G1.numVertex, (S.G1.row v).length = S.G1.numEdges := by
  have hl := congrArg List.length hG.flat
  rw [slice_length, List.length_flatMap, Nat.sub_zero] at hl
  rw [← hl]
  rfl

theorem pending_lt_rounds (hS : S.Sound) (h : Balanced S w [] s) : S.pending s < S.rounds := by
  have hle : S.pending s ≤ ∑ v ∈ Finset.range S.G1.numVertex, (S.G1.row v).length := by
    refine Finset.sum_le_sum fun v hv => ?_
    have hv' := Finset.mem_range.mp hv
    cases hp : s.isPlaced[v]! with
    | true => rw [h.quiet v hv' hp]; exact Nat.zero_le _
    | false =>
      have hu := h.updates_le hv' hp
      have hl := S.low_le_length v
      omega
  rw [sum_row_length hS.csr1] at hle
  unfold Setting.rounds
  omega

theorem pending_decr {o : Nat} {s' : Placement} (ho : o < S.G1.numVertex)
    (hpos : 0 < s.updates[o]!)
    (h : ∀ v, s'.updates[v]! = if v = o then s.updates[o]! - 1 else s.updates[v]!) :
    S.pending s' < S.pending s := by
  refine Finset.sum_lt_sum (fun v _ => ?_) ⟨o, Finset.mem_range.mpr ho, ?_⟩
  · rw [h]
    split_ifs with hv
    · rw [hv]
      exact Nat.sub_le _ _
    · exact le_rfl
  · rw [h, if_pos rfl]
    omega

def Placement.relieve (s : Placement) (o : Nat) : Placement :=
  { s with updates := s.updates.setIfInBounds o (s.updates[o]! - 1) }

theorem flush_step {o : Nat} (hn : s.minPtr < S.G1.numVertex) (hid : s.nodeId[s.minPtr]! = o)
    (h : Moment S s.minPtr w [] s) (hpos : 0 < s.updates[o]!) :
    s.cost[s.nodeMap[o]!]! < S.maxCost ∧ ∃ s', moveRight o (s.relieve o) = some s' ∧
      s.relieve o ≤ s' ∧ Framed s s' ∧ s'.cachePresence = s.cachePresence ∧
      Moment S s.minPtr w [] s' ∧ S.pending s' < S.pending s := by
  have ho : o < S.G1.numVertex := by rw [← hid]; exact h.ordered.inverse.maps' s.minPtr hn
  have hpos' : s.nodeMap[o]! = s.minPtr := by
    rw [← hid]
    exact h.ordered.inverse.right s.minPtr hn
  have hun : s.isPlaced[o]! = false := h.ordered.unplaced_of_le ho hpos'.ge
  have hbal := h.balanced.balance o ho hun
  simp only [List.count_nil] at hbal
  have h2 := (h.unplaced_lt ho).2
  have hlt : s.cost[s.nodeMap[o]!]! < S.maxCost := by omega
  have hshape : Shape S (s.relieve o) :=
    h.shape.congr rfl rfl rfl rfl rfl (by simp [Placement.relieve]) rfl
  have hord : Ordered S s.minPtr (s.relieve o) := h.ordered.congr rfl rfl rfl rfl rfl
  obtain ⟨s', hrun, hm⟩ := moveRight_spec hshape hord ho hpos'.ge hlt
  have hupd (v : Nat) : s'.updates[v]! = if v = o then s.updates[o]! - 1 else s.updates[v]! := by
    rw [hm.updates]
    exact put_get h2 _ v
  refine ⟨hlt, s', hrun, hm.climb, ⟨hm.isPlaced, hm.minPtr, hm.currWinCost, hm.currWinStartId⟩,
    hm.cachePresence, ?_, pending_decr ho hpos hupd⟩
  refine hm.moment ⟨h.present.presence, h.present.counted⟩ (fun v hv hn' => ?_)
    (fun v hv hn' => ?_) fun v hv hp => ?_
  · have hb := h.balanced.balance v hv hn'
    rw [← hm.updates, hupd]
    by_cases hvo : v = o
    · subst hvo
      rw [if_pos rfl, if_pos rfl]
      change s.cost[s.nodeMap[v]!]! + 1 + _ + _ = _
      simp only [List.count_nil]
      omega
    · rw [if_neg hvo, if_neg hvo]
      exact hb
  · have hb := h.balanced.floor v hv hn'
    by_cases hvo : v = o
    · subst hvo
      rw [if_pos rfl]
      change S.maxCost ≤ s.cost[s.nodeMap[v]!]! + 1 + _
      omega
    · rw [if_neg hvo]
      exact hb
  · have hvo : v ≠ o := by
      intro he
      rw [he] at hp
      change s.isPlaced[o]! = true at hp
      rw [hun] at hp
      cases hp
    rw [← hm.updates, hupd, if_neg hvo]
    exact h.balanced.quiet v hv hp

structure Flushed (S : Setting) (w : List Nat) (s : Placement) (o : Nat) (s' : Placement) :
    Prop where
  framed : Framed s s'
  cachePresence : s'.cachePresence = s.cachePresence
  moment : Moment S s'.minPtr w [] s'
  head : o = s'.nodeId[s'.minPtr]!
  quiet : s'.updates[o]! = 0

/-- The flush loop ends with a head that has nothing pending. -/
theorem flush_spec (hS : S.Sound) (hn : s.minPtr < S.G1.numVertex)
    (h : Moment S s.minPtr w [] s) :
    Meets S.discipline (S.flush s.nodeId[s.minPtr]!) s fun o s' => Flushed S w s o s' := by
  unfold Setting.flush
  refine meets_loop (fun o s' => Framed s s' ∧ s'.cachePresence = s.cachePresence ∧
      Moment S s'.minPtr w [] s' ∧ s'.nodeId[s'.minPtr]! = o)
    (fun _ s' => S.pending s') ?_ ⟨.refl s, rfl, h, rfl⟩ (pending_lt_rounds hS h.balanced)
  intro o t hI
  obtain ⟨hf, hc, hm, hid⟩ := hI
  have hn' : t.minPtr < S.G1.numVertex := by rw [hf.minPtr]; exact hn
  have ho : o < S.G1.numVertex := by rw [← hid]; exact hm.ordered.inverse.maps' t.minPtr hn'
  have h2 := (hm.unplaced_lt ho).2
  refine meets_bind (meets_read (read_eq h2) ?_)
  by_cases hpos : 0 < t.updates[o]!
  · rw [if_pos hpos]
    obtain ⟨hlt, t', hrun, hle, hf', hc', hm', hμ⟩ := flush_step hn' hid hm hpos
    refine meets_bind (meets_update (t.relieve o) (by rw [decr_eq h2 hpos]; rfl)
      (Placement.le_of_same rfl rfl) ?_)
    have hCI : (t.relieve o).cost[(t.relieve o).nodeMap[o]!]! + 1 < (t.relieve o).CI.size := by
      change t.cost[t.nodeMap[o]!]! + 1 < t.CI.size
      rw [hm.shape.CI]
      omega
    refine meets_bind (meets_note ⟨hlt, hCI⟩ rfl ?_)
    refine meets_bind (meets_update _ hrun hle ?_)
    have hord : Ordered S t'.minPtr t' := by rw [hf'.minPtr]; exact hm'.ordered
    refine meets_bind (meets_note hord rfl ?_)
    have hmin : t'.minPtr < t'.nodeId.size := by rw [hm'.shape.nodeId, hf'.minPtr]; exact hn'
    refine meets_bind (meets_read (read_eq hmin) (meets_pure ?_))
    exact ⟨⟨hf.trans hf', hc'.trans hc, by rw [hf'.minPtr]; exact hm', rfl⟩, hμ⟩
  · rw [if_neg hpos]
    exact meets_pure ⟨hf, hc, hm, hid.symm, by omega⟩

end GraphReorder
