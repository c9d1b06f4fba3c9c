import GraphReorder.Rounds

/-! The placement loop as a whole: it never faults, it ends, and every observation is good. -/
namespace GraphReorder
open Library

variable {S : Setting} {s s' : Placement} {u v p : Nat} {w owed : List Nat}

section Capacity

theorem Present.card_le (h : Present S w s) : w.toFinset.card ≤ S.G2.numVertex := by
  rw [← h.card]
  exact List.countP_le_length.trans_eq List.length_range

theorem Setting.Plain.filter_counts (hP : S.Plain) (row : List Nat) :
    row.filter S.counts = row := by
  refine List.filter_eq_self.mpr fun p _ => ?_
  simp [Setting.counts, Setting.skips, hP.thresh]

theorem Setting.Plain.row_length_le (hP : S.Plain) (hS : S.Sound) (hv : v < S.G1.numVertex) :
    (S.G1.row v).length ≤ S.G2.numVertex := by
  have hsub : (S.G1.row v).toFinset ⊆ Finset.range S.G2.numVertex := fun x hx =>
    Finset.mem_range.mpr (hS.csr1.row_lt hv (List.mem_toFinset.mp hx))
  have hcard := Finset.card_le_card hsub
  rwa [List.toFinset_card_of_nodup (hP.nodup v hv), Finset.card_range] at hcard

/-- Without pending updates, `nodeCost` is what the node has not resident. -/
theorem fresh_add_resident (hn : s.minPtr < S.G1.numVertex)
    (h : Moment S s.minPtr w [] s) {o : Nat} (hid : s.nodeId[s.minPtr]! = o)
    (hq : s.updates[o]! = 0) : S.fresh o s + resident w (S.G1.row o) = (S.G1.row o).length := by
  have ho := h.ordered.inverse.maps' s.minPtr hn
  have hmap : s.nodeMap[s.nodeId[s.minPtr]!]! = s.minPtr := h.ordered.inverse.right s.minPtr hn
  have hb := h.balanced.balance _ ho (h.ordered.unplaced_of_le ho hmap.ge)
  have hr : resident w (S.G1.row o) ≤ (S.G1.row o).length := List.countP_le_length
  rw [hmap, hid, hq] at hb
  simp only [List.count_nil] at hb
  unfold Setting.fresh
  omega

/-- In a block graph, loading the head costs exactly its `nodeCost`, and the sum that the
guard forms does not wrap. -/
theorem loaded_cost (hS : S.Sound) (hP : S.Plain) (hn : s.minPtr < S.G1.numVertex)
    (h : Moment S s.minPtr w [] s) {o : Nat} (hid : s.nodeId[s.minPtr]! = o)
    (hq : s.updates[o]! = 0) :
    (w ++ (S.G1.row o).filter S.counts).toFinset.card = w.toFinset.card + S.fresh o s ∧
      uadd w.toFinset.card (S.fresh o s) = w.toFinset.card + S.fresh o s := by
  have ho : o < S.G1.numVertex := by rw [← hid]; exact h.ordered.inverse.maps' _ hn
  have hcard := card_append_nodup w (hP.nodup o ho)
  have hfresh := fresh_add_resident hn h hid hq
  have hlen := hP.row_length_le hS ho
  have hw := h.present.card_le
  have hsmall := hP.small
  rw [hP.filter_counts]
  exact ⟨by omega, uadd_of_lt (by omega)⟩

theorem Flushed.absent_eq_fresh (hS : S.Sound) {h s₁ : Placement} {o₁ : Nat} (hh : Head S h)
    (hfl : Flushed S (S.window h) h o₁ s₁) (hn : s₁.minPtr < S.G1.numVertex) :
    h.absent (S.G1.row o₁) = S.fresh o₁ s₁ := by
  have ho : o₁ < S.G1.numVertex := by
    rw [hfl.head]
    exact hfl.moment.ordered.inverse.maps' _ hn
  have hpa := h.present_add_absent (S.G1.row o₁)
  have hfr := fresh_add_resident hn hfl.moment hfl.head.symm hfl.quiet
  rw [hh.moment.present.present_eq fun p hp => hS.csr1.row_lt ho hp] at hpa
  omega

theorem short_window {start m : Nat} (h : ¬ start < usub m S.slack) : m - start ≤ S.slack := by
  unfold usub at h
  split_ifs at h <;> omega

/-- The bound on the window holds after loading exactly when the round was timely. -/
theorem capacity_iff_timely (hS : S.Sound) (hP : S.Plain) {h s₁ t l : Placement} {o₁ o c : Nat}
    {tr : List Obs} (hn : h.minPtr < S.G1.numVertex) (hh : Head S h)
    (hrun : S.flush h.nodeId[h.minPtr]! h = some (o₁, s₁, tr))
    (hfl : Flushed S (S.window h) h o₁ s₁)
    (he : Evicting S (S.fresh h.nodeId[h.minPtr]! h) s₁ o c t) (hmust : S.mustEvict c t = false)
    (hmin : l.minPtr = t.minPtr) (hsta : l.currWinStartId = t.currWinStartId)
    (hcost : l.currWinCost = (S.window t ++ (S.G1.row o).filter S.counts).toFinset.card) :
    S.Capacity l ↔ S.Timely h := by
  have hmin₁ : s₁.minPtr = h.minPtr := hfl.framed.minPtr
  have hsta₁ : s₁.currWinStartId = h.currWinStartId := hfl.framed.currWinStartId
  have hwc₁ : s₁.currWinCost = h.currWinCost := hfl.framed.currWinCost
  have hnt : t.minPtr < S.G1.numVertex := by rw [he.minPtr, hmin₁]; exact hn
  obtain ⟨hload, hsum⟩ := loaded_cost hS hP hnt he.moment he.head he.quiet
  have hstop : ¬ S.CACHE_SIZE < uadd t.currWinCost c ∨ t.minPtr - t.currWinStartId ≤ S.slack := by
    simp only [Setting.mustEvict, Bool.and_eq_false_iff, decide_eq_false_iff_not] at hmust
    exact hmust.imp_right short_window
  have hstale := (nodeCost_spec hS hn hh.moment).2
  have hcap : S.Capacity l ↔ t.currWinCost + S.fresh o t ≤ S.CACHE_SIZE ∨
      t.minPtr - t.currWinStartId ≤ S.slack := by
    rw [Setting.Capacity, hcost, hload, hmin, hsta, he.winCost]
  rw [hcap]
  cases he.origin with
  | inl h0 =>
    -- the loop was left at its first test, made with the cost from before the flush
    obtain ⟨rfl, rfl⟩ := h0
    have ho : o₁ = o := hfl.head.trans he.head
    have habsent := hfl.absent_eq_fresh hS hh hnt
    have htimely : S.Timely h ↔ t.minPtr - t.currWinStartId ≤ S.slack ∨
        S.CACHE_SIZE < uadd t.currWinCost (S.fresh h.nodeId[h.minPtr]! h) ∨
        t.currWinCost + S.fresh o₁ t ≤ S.CACHE_SIZE := by
      simp only [Setting.Timely, Setting.flushed, hrun, hstale, Option.map_some,
        Option.some.injEq, exists_eq_left', habsent, hmin₁, hsta₁, hwc₁]
    rw [htimely, ← ho]
    omega
  | inr h0 =>
    -- the loop was entered, so every later test used the cost of the node at `minPtr`
    obtain ⟨rfl, hover⟩ := h0
    have htimely : S.Timely h := .inr (.inl ⟨_, hstale, by rw [← hwc₁]; exact hover⟩)
    rw [← he.winCost] at hsum
    rw [hsum] at hstop
    simp only [htimely, iff_true]
    omega

theorem Flushed.foremost (hS : S.Sound) {h s₁ : Placement} {o₁ : Nat} {w : List Nat}
    (hfl : Flushed S w h o₁ s₁) (hn : s₁.minPtr < S.G1.numVertex) :
    o₁ < S.G1.numVertex ∧ S.Foremost o₁ h := by
  have ho : o₁ < S.G1.numVertex := by
    rw [hfl.head]
    exact hfl.moment.ordered.inverse.maps' _ hn
  have hpos : s₁.nodeMap[o₁]! = s₁.minPtr := by
    rw [hfl.head]
    exact hfl.moment.ordered.inverse.right _ hn
  have hun := hfl.moment.ordered.unplaced_of_le ho hpos.ge
  have hquiet := hfl.quiet
  rw [hfl.head] at hquiet
  have hgreedy : ∀ v < S.G1.numVertex, s₁.isPlaced[v]! = false →
    s₁.present (S.G1.row v) ≤ s₁.present (S.G1.row s₁.nodeId[s₁.minPtr]!) :=
    head_greedy hS hn hfl.moment hquiet
  have hpresent (row : List Nat) : s₁.present row = h.present row := by
    rw [Placement.present, hfl.cachePresence]
    rfl
  rw [hfl.framed.isPlaced] at hun
  refine ⟨ho, hun, fun v hv hvn => ?_⟩
  rw [← hfl.framed.isPlaced] at hvn
  rw [← hpresent, ← hpresent, hfl.head]
  exact hgreedy v hv hvn

/-- The sum that the first eviction test of a round forms does not wrap. -/
theorem Head.cost_add (hS : S.Sound) (hP : S.Plain) (hh : Head S s) {o : Nat}
    (ho : o < S.G1.numVertex) :
    uadd s.currWinCost (S.fresh o s) = s.currWinCost + S.fresh o s := by
  have hw := hh.moment.present.card_le
  have hlen := hP.row_length_le hS ho
  have hle := S.fresh_le o (s := s)
  have hsmall := hP.small
  rw [hh.winCost]
  exact uadd_of_lt (by omega)

theorem Setting.Settled.timely (hS : S.Sound) (hP : S.Plain) (hh : Head S s)
    (hn : s.minPtr < S.G1.numVertex) (h : S.Settled s) : S.Timely s := by
  obtain ⟨o₁, s₁, tr, hrun, _, hfl⟩ := flush_spec hS hn hh.moment
  have ho := hh.moment.ordered.inverse.maps' s.minPtr hn
  have hn₁ : s₁.minPtr < S.G1.numVertex := by rw [hfl.framed.minPtr]; exact hn
  have hstale := (nodeCost_spec hS hn hh.moment).2
  have hsum := hh.cost_add hS hP ho
  have habsent := hfl.absent_eq_fresh hS hh hn₁
  -- where the flushed node has no more to load than the test assumed, passing the test is enough
  have hfits (hle : s.absent (S.G1.row o₁) ≤ S.fresh s.nodeId[s.minPtr]! s) : S.Timely s := by
    by_cases hover : S.CACHE_SIZE < uadd s.currWinCost (S.fresh s.nodeId[s.minPtr]! s)
    · exact .inr (.inl ⟨_, hstale, hover⟩)
    · refine .inr (.inr ⟨o₁, ?_, by omega⟩)
      rw [Setting.flushed, hrun]
      rfl
  obtain hquiet | hshort | ⟨c, hc, hcase⟩ := h
  · refine hfits (habsent.trans_le (Nat.le_of_eq ?_))
    obtain ⟨b, t, tr', hrun', _, rfl, rfl⟩ := flush_quiet (S := S)
      (Q := fun b t => b = s.nodeId[s.minPtr]! ∧ t = s) (hh.moment.unplaced_lt ho).2 hquiet ⟨rfl, rfl⟩
    rw [hrun'] at hrun
    cases hrun
    rfl
  · exact .inl hshort
  · rw [hstale] at hc
    cases hc
    cases hcase with
    | inl hmust =>
      simp only [Setting.mustEvict, Bool.and_eq_true, decide_eq_true_eq] at hmust
      exact .inr (.inl ⟨_, hstale, hmust.1⟩)
    | inr hall =>
      obtain ⟨ho₁, hfore⟩ := hfl.foremost hS hn₁
      exact hfits (hall o₁ ho₁ hfore)

end Capacity

/-- At the very first position nothing was ever evicted, so nothing is pending there; later the
window is not empty. -/
theorem Head.safe (h : Head S s) (hn : s.minPtr < S.G1.numVertex) {o₁ : Nat} {s₁ : Placement}
    {tr : List Obs} (hrun : S.flush s.nodeId[s.minPtr]! s = some (o₁, s₁, tr))
    (hfl : Flushed S (S.window s) s o₁ s₁) : s₁.currWinStartId < s₁.minPtr ∨
      S.fresh s.nodeId[s.minPtr]! s = S.fresh o₁ s₁ := by
  by_cases hpos : 0 < s.minPtr
  · left
    rw [hfl.framed.currWinStartId, hfl.framed.minPtr]
    exact h.strict hpos
  · have ho := h.moment.ordered.inverse.maps' s.minPtr hn
    obtain ⟨b, t, tr', hrun', _, rfl, rfl⟩ := flush_quiet (S := S)
      (Q := fun b t => b = s.nodeId[s.minPtr]! ∧ t = s) (h.moment.unplaced_lt ho).2
      (h.still (by omega) _ ho) ⟨rfl, rfl⟩
    rw [hrun'] at hrun
    obtain ⟨rfl, rfl, _⟩ := Prod.mk.injEq .. ▸ Option.some.inj hrun
    exact .inr rfl

theorem Flushed.window {o₁ : Nat} {s₁ : Placement} (hfl : Flushed S w s o₁ s₁)
    (ho : Ordered S s.minPtr s) (hle : s ≤ s₁) (hn : s.minPtr < S.G1.numVertex) :
    S.window s₁ = S.window s := by
  unfold Setting.window
  rw [hfl.framed.minPtr, hfl.framed.currWinStartId]
  exact Setting.windowOf_congr fun p hp => ho.nodeId_eq hfl.moment.ordered hle (by omega) (by omega)

/-- One round keeps the invariant and moves `minPtr` on by one, or leaves the loop. -/
theorem round_spec (hS : S.Sound) (h : Head S s) :
    Meets S.discipline (S.round ()) s fun r s' => Head S s' ∧
      (r = .inl () → s.minPtr < S.G1.numVertex ∧ s'.minPtr = s.minPtr + 1) ∧
      (r = .inr () → s' = s ∧ (S.G1.numVertex ≤ s'.minPtr ∨ S.halt s'.minPtr = true)) := by
  unfold Setting.round
  refine meets_bind (meets_note h rfl ?_)
  refine meets_bind (meets_read rfl ?_)
  by_cases hexit : (decide (S.G1.numVertex ≤ s.minPtr) || S.halt s.minPtr) = true
  · rw [if_pos hexit]
    refine meets_pure ⟨h, by simp, fun _ => ⟨rfl, ?_⟩⟩
    simpa using hexit
  · rw [if_neg hexit]
    have hn : s.minPtr < S.G1.numVertex := by
      by_contra hge
      exact hexit (by simp [Nat.le_of_not_lt hge])
    have hsz : s.minPtr < s.nodeId.size := by rw [h.moment.shape.nodeId]; exact hn
    obtain ⟨hgood, hcost⟩ := nodeCost_spec hS hn h.moment
    refine meets_bind (meets_read (read_eq hsz) ?_)
    refine meets_bind (meets_note hgood rfl ?_)
    refine meets_bind (meets_read hcost ?_)
    refine meets_seq (meets_run (flush_spec hS hn h.moment)) fun o₁ s₁ hle hfl => ?_
    obtain ⟨hfl, tr, hrun⟩ := hfl
    have hmin₁ : s₁.minPtr = s.minPtr := hfl.framed.minPtr
    have hn₁ : s₁.minPtr < S.G1.numVertex := by omega
    have ho₁ : o₁ < S.G1.numVertex := by
      rw [hfl.head]
      exact hfl.moment.ordered.inverse.maps' _ hn₁
    have hwin : S.window s₁ = S.window s := hfl.window h.moment.ordered hle hn
    have hmom := hfl.moment
    rw [← hwin] at hmom
    have hwc : s₁.currWinCost = (S.window s₁).toFinset.card := by
      rw [hwin, ← h.winCost]
      exact hfl.framed.currWinCost
    have hsta₁ : s₁.currWinStartId = s.currWinStartId := hfl.framed.currWinStartId
    have hbehind : s₁.currWinStartId ≤ s₁.minPtr := by
      rw [hsta₁, hmin₁]
      exact h.behind
    refine meets_bind (meets_read (hS.deg _ ho₁) ?_)
    by_cases hheavy : S.CACHE_SIZE < (S.G1.row o₁).length
    · rw [if_pos hheavy]
      refine meets_seq (placeHeavy_spec hS hn₁ hbehind hmom hwc hfl.head.symm hfl.quiet hheavy)
        fun _ t _ ht => meets_pure ⟨ht.1, fun _ => ⟨hn, by omega⟩, by simp⟩
    · rw [if_neg hheavy]
      have hsafe := h.safe hn hrun hfl
      refine meets_seq (evictWindow_spec hS hn₁ hbehind hmom hwc hfl.head.symm hfl.quiet
        (not_lt.mp hheavy) hsafe) fun r t _ hr => ?_
      obtain ⟨o, c⟩ := r
      obtain ⟨he, hstop⟩ := hr
      simp only at he hstop
      have hmin : t.minPtr = s.minPtr := he.minPtr.trans hmin₁
      have hnt : t.minPtr < S.G1.numVertex := by omega
      have ho : o < S.G1.numVertex := by
        rw [← he.head]
        exact he.moment.ordered.inverse.maps' _ hnt
      refine meets_bind (meets_read (hS.deg _ ho) ?_)
      by_cases hheavy' : S.CACHE_SIZE < (S.G1.row o).length
      · rw [if_pos hheavy']
        refine meets_seq (placeHeavy_spec hS hnt he.behind he.moment he.winCost he.head he.quiet
          hheavy') fun _ t' _ ht => meets_pure ⟨ht.1, fun _ => ⟨hn, by omega⟩, by simp⟩
      · rw [if_neg hheavy']
        have hlight := not_lt.mp hheavy'
        refine meets_seq (placeLight_spec hS hnt hmin.symm he.behind he.moment he.winCost he.head
          he.quiet hlight fun l hl hl' hl'' => ⟨h, hn, fun hP => ?_⟩)
          fun _ t' _ ht => meets_pure ⟨ht.1, fun _ => ⟨hn, by omega⟩, by simp⟩
        exact capacity_iff_timely hS hP hn h hrun hfl he (hstop hlight) hl hl' hl''

/-- The placement loop never faults, passes good observations only, and stops at its end. -/
theorem placeAll_spec (hS : S.Sound) (h : Head S s) :
    Meets S.discipline S.placeAll s fun _ s' => Head S s' ∧
      (S.G1.numVertex ≤ s'.minPtr ∨ S.halt s'.minPtr = true) := by
  unfold Setting.placeAll
  refine meets_loop (fun _ s' => Head S s') (fun _ s' => S.G1.numVertex - s'.minPtr) ?_ h ?_
  · intro _ t ht
    refine meets_mono (round_spec hS ht) fun r t' _ hr => ?_
    obtain ⟨hhead, hgo, hstop⟩ := hr
    cases r with
    | inl =>
      have hadv := hgo rfl
      exact ⟨hhead, by omega⟩
    | inr => exact ⟨hhead, (hstop rfl).2⟩
  · unfold Setting.rounds
    omega

end GraphReorder
