import GraphReorder.Flushing

/-! One round of the placement loop keeps the loop invariant, and the loop ends. -/
namespace GraphReorder
open Library

variable {S : Setting} {s s' : Placement} {u v p : Nat} {w owed : List Nat}

theorem Ordered.nodeId_eq (h : Ordered S u s) (h' : Ordered S v s') (hle : s ≤ s')
    (hp : p < u) (hn : p < S.G1.numVertex) : s'.nodeId[p]! = s.nodeId[p]! := by
  have hpl := h.placed p hn
  rw [decide_eq_true hp] at hpl
  have hmap := ((Placement.le_iff.mp hle) _ hpl).2
  have hid : s.nodeMap[s.nodeId[p]!]! = p := h.inverse.right p hn
  have hleft : s'.nodeId[s'.nodeMap[s.nodeId[p]!]!]! = s.nodeId[p]! :=
    h'.inverse.left _ (h.inverse.maps' p hn)
  rwa [hmap, hid] at hleft

/-- `nodeCost`, exactly: what the node has not resident, as far as the costs know. -/
def Setting.fresh (S : Setting) (o : Nat) (s : Placement) : Nat :=
  (S.G1.row o).length - (S.maxCost - s.cost[s.minPtr]!)

theorem Setting.fresh_le (o : Nat) : S.fresh o s ≤ (S.G1.row o).length := Nat.sub_le _ _

/-- No subtraction in `nodeCost` wraps. -/
theorem nodeCost_spec (hS : S.Sound) (hn : s.minPtr < S.G1.numVertex)
    (h : Moment S s.minPtr w [] s) : S.Good (.nodeCost s.nodeId[s.minPtr]! s) ∧
      S.nodeCost s.nodeId[s.minPtr]! s = some (S.fresh s.nodeId[s.minPtr]! s) := by
  have ho := h.ordered.inverse.maps' s.minPtr hn
  have hmap : s.nodeMap[s.nodeId[s.minPtr]!]! = s.minPtr := h.ordered.inverse.right s.minPtr hn
  have hb := h.balanced.updates_le ho (h.ordered.unplaced_of_le ho hmap.ge)
  have hl := S.low_le_length s.nodeId[s.minPtr]!
  rw [hmap] at hb
  have hd := hS.deg _ ho
  have hc : s.minPtr < s.cost.size := by rw [h.shape.cost]; exact hn
  refine ⟨⟨hb.1, _, hd, by omega⟩, ?_⟩
  simp only [Setting.nodeCost, hd, read_eq hc, Option.bind_eq_bind, Option.bind_some,
    usub_of_le hb.1]
  rw [usub_of_le (by omega)]
  rfl

section Evict

theorem evictOldest_spec (hS : S.Sound) (hn : s.minPtr < S.G1.numVertex)
    (hlt : s.currWinStartId < s.minPtr) (h : Moment S s.minPtr (S.window s) [] s)
    (hcost : s.currWinCost = (S.window s).toFinset.card) :
    Meets S.discipline S.evictOldest s fun _ s' =>
      s' = { s with updates := s'.updates, cachePresence := s'.cachePresence,
                    currWinCost := s'.currWinCost } ∧
      Moment S s.minPtr (S.windowOf s.nodeId (s.currWinStartId + 1) s.minPtr) [] s' ∧
      s'.currWinCost = (S.windowOf s.nodeId (s.currWinStartId + 1) s.minPtr).toFinset.card := by
  have hstart : s.currWinStartId < S.G1.numVertex := by omega
  have hv := h.ordered.inverse.maps' _ hstart
  unfold Setting.window at h hcost
  rw [Setting.windowOf_cons _ hlt] at h hcost
  generalize S.windowOf s.nodeId (s.currWinStartId + 1) s.minPtr = rest at h hcost
  unfold Setting.evictOldest
  refine meets_bind (meets_read rfl ?_)
  refine meets_bind (meets_read (read_eq (by rw [h.shape.nodeId]; exact hstart)) ?_)
  refine meets_bind (meets_read (hS.deg _ hv) ?_)
  by_cases hd : (S.G1.row s.nodeId[s.currWinStartId]!).length ≤ S.CACHE_SIZE
  · rw [if_pos hd]
    rw [Setting.loads, if_neg (by omega)] at h hcost
    have hpl := h.ordered.placed _ hstart
    rw [decide_eq_true hlt] at hpl
    refine meets_bind (meets_note hpl rfl ?_)
    refine meets_seq (evictParents_spec hS hstart h) fun k t _ hk => ?_
    obtain ⟨hf, hm, hk⟩ := hk
    have hle : k ≤ t.currWinCost := by rw [hf]; change k ≤ s.currWinCost; omega
    refine meets_bind (meets_note hle rfl ?_)
    refine meets_update _ rfl (Placement.le_of_same rfl rfl) ⟨by rw [hf], ?_, ?_⟩
    · exact hm.congr rfl rfl rfl rfl rfl rfl rfl
    · have hw : t.currWinCost = s.currWinCost := by rw [hf]
      change usub t.currWinCost k = _
      rw [usub_of_le hle]
      omega
  · rw [if_neg hd]
    rw [Setting.loads, if_pos (by omega), List.nil_append] at h hcost
    exact meets_pure ⟨rfl, h, hcost⟩

/-- The state of the eviction loop: entered in `s₁` with the cost `c₀`, now in `s` with the
node `o` at `minPtr` and the cost `c`. -/
structure Evicting (S : Setting) (c₀ : Nat) (s₁ : Placement) (o c : Nat) (s : Placement) :
    Prop where
  minPtr : s.minPtr = s₁.minPtr
  behind : s.currWinStartId ≤ s.minPtr
  moment : Moment S s.minPtr (S.window s) [] s
  winCost : s.currWinCost = (S.window s).toFinset.card
  head : s.nodeId[s.minPtr]! = o
  quiet : s.updates[o]! = 0
  origin : (s = s₁ ∧ c = c₀) ∨ (c = S.fresh o s ∧ S.CACHE_SIZE < uadd s₁.currWinCost c₀)

theorem evict_step (hS : S.Sound) {c₀ o c : Nat} {s₁ : Placement}
    (hn : s.minPtr < S.G1.numVertex) (h : Evicting S c₀ s₁ o c s)
    (hlt : s.currWinStartId < s.minPtr) (hmust : S.CACHE_SIZE < uadd s₁.currWinCost c₀) :
    Meets S.discipline S.evictStep s fun r s' => Evicting S c₀ s₁ r.1 r.2 s' ∧
        r.2 = S.fresh r.1 s' ∧ s'.currWinStartId = s.currWinStartId + 1 := by
  unfold Setting.evictStep
  refine meets_seq (evictOldest_spec hS hn hlt h.moment h.winCost) fun _ t htle ht => ?_
  obtain ⟨hf, hm, hc⟩ := ht
  have hmin : t.minPtr = s.minPtr := by rw [hf]
  have hsta : t.currWinStartId = s.currWinStartId := by rw [hf]
  have hid : t.nodeId = s.nodeId := by rw [hf]
  rw [← hmin] at hm
  refine meets_bind (meets_read (read_eq (by rw [hm.shape.nodeId]; omega)) ?_)
  refine meets_seq (flush_spec hS (by omega) hm) fun o' t' htle' hfl => ?_
  have hmin' : t'.minPtr = t.minPtr := hfl.framed.minPtr
  have hn' : t'.minPtr < S.G1.numVertex := by omega
  obtain ⟨hgood, hcost⟩ := nodeCost_spec hS hn' hfl.moment
  rw [← hfl.head] at hgood hcost
  refine meets_bind (meets_note hgood rfl ?_)
  refine meets_bind (meets_read hcost ?_)
  refine meets_bind (meets_update _ rfl (Placement.le_of_same rfl rfl) (meets_pure ?_))
  have hsta' : t'.currWinStartId = s.currWinStartId := hfl.framed.currWinStartId.trans hsta
  have hwin : S.windowOf t'.nodeId (s.currWinStartId + 1) t'.minPtr =
      S.windowOf s.nodeId (s.currWinStartId + 1) s.minPtr := by
    rw [hmin', hmin, ← hid]
    exact Setting.windowOf_congr fun p hp => hm.ordered.nodeId_eq hfl.moment.ordered htle'
      (by omega) (by omega)
  have hwin' : S.window { t' with currWinStartId := t'.currWinStartId + 1 } =
      S.windowOf s.nodeId (s.currWinStartId + 1) s.minPtr := by
    rw [← hwin, ← hsta']
    rfl
  refine ⟨⟨?_, ?_, ?_, ?_, hfl.head.symm, hfl.quiet, .inr ⟨rfl, hmust⟩⟩, rfl, ?_⟩
  · exact hmin'.trans (hmin.trans h.minPtr)
  · change t'.currWinStartId + 1 ≤ t'.minPtr
    omega
  · have hmom := hfl.moment
    rw [← hmin] at hwin'
    rw [hwin']
    exact hmom.congr rfl rfl rfl rfl rfl rfl rfl
  · rw [hwin', ← hc]
    exact hfl.framed.currWinCost
  · change t'.currWinStartId + 1 = _
    rw [hsta']

/-- An empty window costs nothing, so a light node never asks for an eviction from it. -/
theorem Evicting.nonempty {c₀ o c : Nat} {s₁ : Placement} (h : Evicting S c₀ s₁ o c s)
    (hlight : (S.G1.row o).length ≤ S.CACHE_SIZE)
    (hsafe : s.currWinStartId < s.minPtr ∨ c = S.fresh o s)
    (hover : S.CACHE_SIZE < uadd s.currWinCost c) : s.currWinStartId < s.minPtr := by
  have hb := h.behind
  by_contra hge
  have hz : s.currWinCost = 0 := by
    rw [h.winCost, Setting.window, Setting.windowOf, Nat.sub_eq_zero_of_le (by omega)]
    rfl
  have hle := uadd_le s.currWinCost c
  have hfl := S.fresh_le o (s := s)
  cases hsafe with
  | inl h1 => omega
  | inr h1 => omega

/-- What the eviction loop leaves: if the node at `minPtr` is to be loaded, the loop test has
failed on its `nodeCost`, unless the loop was not entered at all. -/
theorem evictWindow_spec (hS : S.Sound) {o : Nat} (hn : s.minPtr < S.G1.numVertex)
    (hbehind : s.currWinStartId ≤ s.minPtr)
    (h : Moment S s.minPtr (S.window s) [] s) (hcost : s.currWinCost = (S.window s).toFinset.card)
    (hid : s.nodeId[s.minPtr]! = o) (hq : s.updates[o]! = 0)
    (hlight : (S.G1.row o).length ≤ S.CACHE_SIZE) {c₀ : Nat}
    (hsafe : s.currWinStartId < s.minPtr ∨ c₀ = S.fresh o s) :
    Meets S.discipline (S.evictWindow (o, c₀)) s fun r s' => Evicting S c₀ s r.1 r.2 s' ∧
      ((S.G1.row r.1).length ≤ S.CACHE_SIZE → S.mustEvict r.2 s' = false) := by
  unfold Setting.evictWindow
  refine meets_loop (fun r s' => Evicting S c₀ s r.1 r.2 s' ∧
      (S.G1.row r.1).length ≤ S.CACHE_SIZE ∧
      (s'.currWinStartId < s'.minPtr ∨ r.2 = S.fresh r.1 s'))
    (fun _ s' => s'.minPtr - s'.currWinStartId) ?_
    ⟨⟨rfl, hbehind, h, hcost, hid, hq, .inl ⟨rfl, rfl⟩⟩, hlight, hsafe⟩ ?_
  · intro r t hI
    obtain ⟨o', c⟩ := r
    obtain ⟨he, hl, hsf⟩ := hI
    simp only at he hl hsf
    have hn' : t.minPtr < S.G1.numVertex := by rw [he.minPtr]; exact hn
    refine meets_bind (meets_read rfl ?_)
    cases hmust : S.mustEvict c t with
    | false =>
      simp only [Bool.false_eq_true, if_false]
      exact meets_pure ⟨he, fun _ => hmust⟩
    | true =>
      simp only [if_true]
      have hover : S.CACHE_SIZE < uadd t.currWinCost c := by
        simp only [Setting.mustEvict, Bool.and_eq_true, decide_eq_true_eq] at hmust
        exact hmust.1
      have hmust₁ : S.CACHE_SIZE < uadd s.currWinCost c₀ := by
        cases he.origin with
        | inl h0 => rwa [h0.1, h0.2] at hover
        | inr h0 => exact h0.2
      have hlt := he.nonempty hl hsf hover
      refine meets_seq (evict_step hS hn' he hlt hmust₁) fun r t' _ hr => ?_
      obtain ⟨hr, hfresh, hadv⟩ := hr
      have hn'' : t'.minPtr < S.G1.numVertex := by rw [hr.minPtr]; exact hn
      have ho : r.1 < S.G1.numVertex := by
        rw [← hr.head]
        exact hr.moment.ordered.inverse.maps' _ hn''
      refine meets_bind (meets_read (hS.deg _ ho) ?_)
      by_cases hheavy : S.CACHE_SIZE < (S.G1.row r.1).length
      · rw [if_pos hheavy]
        exact meets_pure ⟨hr, fun hle => absurd hle (Nat.not_le.mpr hheavy)⟩
      · rw [if_neg hheavy]
        have hmin : t'.minPtr = t.minPtr := hr.minPtr.trans he.minPtr.symm
        exact meets_pure ⟨⟨hr, not_lt.mp hheavy, .inr hfresh⟩, by omega⟩
  · unfold Setting.rounds
    omega

end Evict

/-- A head without pending updates has the most resident parents of all unplaced nodes. -/
theorem head_greedy (hS : S.Sound) (hn : s.minPtr < S.G1.numVertex)
    (h : Moment S s.minPtr w [] s) (hq : s.updates[s.nodeId[s.minPtr]!]! = 0) :
    S.Good (.place s.nodeId[s.minPtr]! s) := by
  intro v hv hun
  have ho := h.ordered.inverse.maps' s.minPtr hn
  have hmap : s.nodeMap[s.nodeId[s.minPtr]!]! = s.minPtr := h.ordered.inverse.right s.minPtr hn
  have hbo := h.balanced.balance _ ho (h.ordered.unplaced_of_le ho hmap.ge)
  have hbv := h.balanced.balance v hv hun
  have hle := h.ordered.le_of_unplaced hv hun
  have hsorted : s.cost[s.minPtr]! ≤ s.cost[s.nodeMap[v]!]! :=
    h.ordered.buckets.sorted le_rfl hle (h.ordered.inverse.maps v hv)
  rw [h.present.present_eq fun p hp => hS.csr1.row_lt hv hp,
    h.present.present_eq fun p hp => hS.csr1.row_lt ho hp]
  rw [hmap, hq] at hbo
  simp only [List.count_nil] at hbo hbv
  omega

theorem markPlaced_spec (hS : S.Sound) (hn : s.minPtr < S.G1.numVertex) {o : Nat}
    (h : Moment S s.minPtr w [] s) (hid : s.nodeId[s.minPtr]! = o) (hq : s.updates[o]! = 0) :
    Meets S.discipline (Setting.markPlaced o) s fun _ s' =>
      s' = { s with isPlaced := s'.isPlaced } ∧ Moment S (s.minPtr + 1) w [] s' := by
  have hgreedy := head_greedy hS hn h (by rw [hid]; exact hq)
  have ho := h.ordered.inverse.maps' s.minPtr hn
  have hmap : s.nodeMap[s.nodeId[s.minPtr]!]! = s.minPtr := h.ordered.inverse.right s.minPtr hn
  have hun := h.ordered.unplaced_of_le ho hmap.ge
  rw [hid] at hgreedy ho hmap hun
  have hsz := (h.unplaced_lt ho).1
  have hput := put_get hsz true
  have hrest (v : Nat) (hv : (s.isPlaced.setIfInBounds o true)[v]! = false) :
      s.isPlaced[v]! = false := by
    rw [hput] at hv
    split_ifs at hv
    exact hv
  unfold Setting.markPlaced
  refine meets_bind (meets_note hgreedy rfl ?_)
  refine meets_update { s with isPlaced := s.isPlaced.setIfInBounds o true }
    (by rw [store_eq hsz]; rfl) ?_ ⟨rfl, ?_, ⟨h.ordered.inverse, ?_, ?_⟩, ⟨?_, ?_, ?_⟩,
      h.present.presence, h.present.counted⟩
  · refine Placement.le_iff.mpr fun v hv => ⟨?_, rfl⟩
    rw [hput]
    split_ifs
    · rfl
    · exact hv
  · exact h.shape.congr rfl rfl (by simp) rfl rfl rfl rfl
  · intro p hp
    change (Array.setIfInBounds _ _ _)[s.nodeId[p]!]! = _
    rw [hput]
    by_cases hpm : p = s.minPtr
    · rw [hpm, hid, if_pos rfl, decide_eq_true (by omega)]
    · have hne : s.nodeId[p]! ≠ o := fun he =>
        hpm (h.ordered.inverse.symm.injective hp hn (he.trans hid.symm))
      rw [if_neg hne, h.ordered.placed p hp, decide_eq_decide]
      omega
  · exact h.ordered.buckets.advance (Nat.le_succ _)
  · exact fun v hv hn' => h.balanced.balance v hv (hrest v hn')
  · exact fun v hv hn' => h.balanced.floor v hv (hrest v hn')
  · intro v hv hp
    change (Array.setIfInBounds _ _ _)[v]! = _ at hp
    rw [hput] at hp
    split_ifs at hp with hvo
    · rw [hvo]
      exact hq
    · exact h.balanced.quiet v hv hp

theorem flush_quiet {o : Nat} {Q : Nat → Placement → Prop} (ho : o < s.updates.size)
    (hq : s.updates[o]! = 0) (hQ : Q o s) : Meets S.discipline (S.flush o) s Q := by
  have hr : 0 < S.rounds := Nat.succ_pos _
  refine meets_loop (fun a s' => a = o ∧ s' = s) (fun _ _ => 0) ?_ ⟨rfl, rfl⟩ hr
  intro a t hI
  obtain ⟨rfl, rfl⟩ := hI
  refine meets_bind (meets_read (read_eq ho) ?_)
  rw [hq, if_neg (Nat.lt_irrefl 0)]
  exact meets_pure hQ

theorem meets_advance {Q : Unit → Placement → Prop} (hQ : Q () { s with minPtr := s.minPtr + 1 }) :
    Meets S.discipline Setting.advance s Q :=
  meets_update _ rfl (Placement.le_of_same rfl rfl) hQ

theorem head_advance (hn : s.minPtr < S.G1.numVertex) (hbehind : s.currWinStartId ≤ s.minPtr)
    (h : Moment S (s.minPtr + 1) (S.windowOf s.nodeId s.currWinStartId (s.minPtr + 1)) [] s)
    (hcost : s.currWinCost =
      (S.windowOf s.nodeId s.currWinStartId (s.minPtr + 1)).toFinset.card) :
    Head S { s with minPtr := s.minPtr + 1 } where
  inside := hn
  behind := Nat.le_succ_of_le hbehind
  strict _ := Nat.lt_succ_of_le hbehind
  still h0 := absurd h0 (Nat.succ_ne_zero _)
  moment := h.congr rfl rfl rfl rfl rfl rfl rfl
  winCost := hcost

theorem placeHeavy_spec (hS : S.Sound) (hn : s.minPtr < S.G1.numVertex) {o : Nat}
    (hbehind : s.currWinStartId ≤ s.minPtr) (h : Moment S s.minPtr (S.window s) [] s)
    (hcost : s.currWinCost = (S.window s).toFinset.card) (hid : s.nodeId[s.minPtr]! = o)
    (hq : s.updates[o]! = 0) (hheavy : S.CACHE_SIZE < (S.G1.row o).length) :
    Meets S.discipline (Setting.placeHeavy o) s fun _ s' =>
      Head S s' ∧ s'.minPtr = s.minPtr + 1 := by
  refine meets_seq (markPlaced_spec hS hn h hid hq) fun _ t _ ht => meets_advance ?_
  obtain ⟨hf, hm⟩ := ht
  have hwin : S.windowOf t.nodeId t.currWinStartId (t.minPtr + 1) = S.window s := by
    rw [hf]
    change S.windowOf s.nodeId s.currWinStartId (s.minPtr + 1) = _
    rw [Setting.windowOf_snoc _ hbehind, hid, Setting.loads, if_pos hheavy, List.append_nil]
    rfl
  have hmin : t.minPtr = s.minPtr := by rw [hf]
  refine ⟨head_advance (by omega) (by rw [hf]; exact hbehind) ?_ ?_, by rw [hf]⟩
  · rw [hwin, hmin]
    exact hm
  · rw [hwin, ← hcost, hf]

theorem placeLight_spec (hS : S.Sound) (hn : s.minPtr < S.G1.numVertex) {o : Nat}
    {atHead : Placement} (hat : atHead.minPtr = s.minPtr)
    (hbehind : s.currWinStartId ≤ s.minPtr) (h : Moment S s.minPtr (S.window s) [] s)
    (hcost : s.currWinCost = (S.window s).toFinset.card) (hid : s.nodeId[s.minPtr]! = o)
    (hq : s.updates[o]! = 0) (hlight : (S.G1.row o).length ≤ S.CACHE_SIZE)
    (hloaded : ∀ t : Placement, t.minPtr = s.minPtr → t.currWinStartId = s.currWinStartId →
      t.currWinCost = (S.window s ++ (S.G1.row o).filter S.counts).toFinset.card →
      S.Good (.loaded atHead t)) :
    Meets S.discipline (S.placeLight atHead o) s fun _ s' =>
      Head S s' ∧ s'.minPtr = s.minPtr + 1 := by
  have ho : o < s.updates.size := (h.unplaced_lt (hid ▸ h.ordered.inverse.maps' _ hn)).2
  refine meets_bind (flush_quiet ho hq ?_)
  refine meets_seq (markPlaced_spec hS hn h hid hq) fun _ t _ ht => ?_
  obtain ⟨hf, hm⟩ := ht
  have hmin : t.minPtr = s.minPtr := by rw [hf]
  have hsta : t.currWinStartId = s.currWinStartId := by rw [hf]
  have hwc : t.currWinCost = s.currWinCost := by rw [hf]
  have htid : t.nodeId = s.nodeId := by rw [hf]
  rw [← hmin] at hm
  rw [hat, ← hmin]
  refine meets_seq (loadParents_spec hS (by omega) hm) fun k t' hle ht' => ?_
  obtain ⟨hfr, hm', hk⟩ := ht'
  rw [htid, hmin, hid] at hm' hk
  have hmin' : t'.minPtr = s.minPtr := hfr.minPtr.trans hmin
  have hsta' : t'.currWinStartId = s.currWinStartId := hfr.currWinStartId.trans hsta
  have hwc' : t'.currWinCost + k =
      (S.window s ++ (S.G1.row o).filter S.counts).toFinset.card := by
    rw [hfr.currWinCost, hwc, ← hk, hcost]
    omega
  refine meets_bind (meets_update _ rfl (Placement.le_of_same rfl rfl) ?_)
  refine meets_bind (meets_note (hloaded _ hmin' hsta' hwc') rfl (meets_advance ?_))
  have hid' (p : Nat) (hp : p < s.minPtr + 1) : t'.nodeId[p]! = s.nodeId[p]! := by
    rw [← htid]
    exact hm.ordered.nodeId_eq hm'.ordered hle (by omega) (by omega)
  have hwin : S.windowOf t'.nodeId t'.currWinStartId (t'.minPtr + 1) =
      S.window s ++ (S.G1.row o).filter S.counts := by
    rw [hsta', hmin', Setting.windowOf_congr hid', Setting.windowOf_snoc _ hbehind, hid,
      Setting.loads, if_neg (by omega)]
    rfl
  refine ⟨head_advance (by change t'.minPtr < _; omega)
    (by change t'.currWinStartId ≤ t'.minPtr; omega) ?_ ?_, by change t'.minPtr + 1 = _; omega⟩
  · change Moment S (t'.minPtr + 1) (S.windowOf t'.nodeId t'.currWinStartId (t'.minPtr + 1)) [] _
    rw [hwin, hmin']
    exact hm'.congr rfl rfl rfl rfl rfl rfl rfl
  · change t'.currWinCost + k =
      (S.windowOf t'.nodeId t'.currWinStartId (t'.minPtr + 1)).toFinset.card
    rw [hwin, hwc']

end GraphReorder
