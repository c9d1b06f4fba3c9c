import GraphReorder.Accounting

/-! Loading and evicting the parents of a node, and flushing pending updates: each keeps the
books balanced. -/
namespace GraphReorder
open Library

variable {S : Setting} {s : Placement} {u v p : Nat} {w owed : List Nat}

theorem Moment.unplaced_lt (h : Moment S u w owed s) (hv : v < S.G1.numVertex) :
    v < s.isPlaced.size ∧ v < s.updates.size := by
  have h1 := h.shape.isPlaced
  have h2 := h.shape.updates
  omega

theorem Present.drop (h : Present S (p :: w) s) (hsz : p < s.cachePresence.size) :
    Present S w { s with cachePresence := s.cachePresence.setIfInBounds p (w.count p) } := by
  refine ⟨fun q hq => ?_, fun q hq => h.counted q (List.mem_cons_of_mem p hq)⟩
  change (Array.setIfInBounds _ _ _)[q]! = _
  rw [put_get hsz]
  by_cases hqp : q = p
  · simp [hqp]
  · rw [if_neg hqp, h.presence q hq, List.count_cons_of_ne (Ne.symm hqp)]

theorem Present.push (h : Present S w s) (hp : p < S.G2.numVertex) (hc : S.counts p = true)
    (hsz : p < s.cachePresence.size) :
    Present S (w ++ [p])
      { s with cachePresence := s.cachePresence.setIfInBounds p (w.count p + 1) } := by
  refine ⟨fun q hq => ?_, fun q hq => ?_⟩
  · change (Array.setIfInBounds _ _ _)[q]! = _
    rw [put_get hsz, List.count_append]
    by_cases hqp : q = p
    · simp [hqp]
    · rw [if_neg hqp, h.presence q hq, List.count_cons_of_ne (Ne.symm hqp), List.count_nil,
        Nat.add_zero]
  · cases List.mem_append.mp hq with
    | inl hw => exact h.counted q hw
    | inr hq =>
      rw [List.mem_singleton] at hq
      exact ⟨hq ▸ hp, hq ▸ hc⟩

theorem Moved.moment {c x : Nat} {s' : Placement} (hm : Moved S u c x s s') (hp : Present S w s)
    (hbal : ∀ v < S.G1.numVertex, s.isPlaced[v]! = false →
      (if v = c then x else s.cost[s.nodeMap[v]!]!) + s.updates[v]! + resident w (S.G1.row v) =
        S.maxCost + owed.count v)
    (hfloor : ∀ v < S.G1.numVertex, s.isPlaced[v]! = false →
      S.maxCost ≤ (if v = c then x else s.cost[s.nodeMap[v]!]!) + S.low v)
    (hquiet : ∀ v < S.G1.numVertex, s.isPlaced[v]! = true → s.updates[v]! = 0) :
    Moment S u w owed s' where
  shape := hm.shape
  ordered := hm.ordered
  balanced := by
    refine ⟨fun v hv hn => ?_, fun v hv hn => ?_, fun v hv hn => ?_⟩
    · rw [hm.isPlaced] at hn
      rw [hm.cost v hv, hm.updates]
      exact hbal v hv hn
    · rw [hm.isPlaced] at hn
      rw [hm.cost v hv]
      exact hfloor v hv hn
    · rw [hm.isPlaced] at hn
      rw [hm.updates]
      exact hquiet v hv hn
  present := ⟨fun q hq => by rw [hm.cachePresence]; exact hp.presence q hq, hp.counted⟩

theorem forChildren_spec (hS : S.Sound) (hp : p < S.G2.numVertex) {body : Nat → Run Unit}
    (I : List Nat → Placement → Prop) (h0 : I (S.G2.row p) s)
    (hstep : ∀ c rest s, c < S.G1.numVertex → I (c :: rest) s →
      Meets S.discipline (body c) s fun _ s' => I rest s') :
    Meets S.discipline (S.forChildren S.G2.VI[p]! (S.G2.stop p) body) s fun _ s' => I [] s' := by
  have hle := hS.csr2.start_le_stop hp
  have hnil : slice S.G2.EI (S.G2.stop p) (S.G2.stop p) = [] := slice_empty _ le_rfl
  refine meets_mono (P := fun _ s' => I (slice S.G2.EI (S.G2.stop p) (S.G2.stop p)) s')
    ?_ fun _ s' _ h => by rwa [hnil] at h
  refine meets_forRange (fun j _ s => I (slice S.G2.EI j (S.G2.stop p)) s) hle h0 ?_
  intro j _ s hj hj' hI
  rw [slice_cons _ hj'] at hI
  have hc : S.G2.EI[j]! < S.G1.numVertex :=
    hS.csr2.entries j (by have := hS.csr2.stop_le hp; omega)
  exact meets_bind (meets_read (read_eq (hS.csr2.stop_lt_size hp hj')) (hstep _ _ s hc hI))

section Evict

structure Postponed (S : Setting) (s : Placement) (owing : Nat → Nat) (s' : Placement) : Prop where
  frame : s' = { s with updates := s'.updates }
  size : s'.updates.size = s.updates.size
  updates : ∀ v < S.G1.numVertex,
    s'.updates[v]! = s.updates[v]! + if s.isPlaced[v]! then 0 else owing v

theorem evictChild_spec {c : Nat} {s₀ : Placement} {owing : Nat → Nat} {rest : List Nat}
    (hs : Shape S s₀) (hc : c < S.G1.numVertex)
    (h : Postponed S s₀ (fun v => owing v - (c :: rest).count v) s)
    (hle : ∀ v, (c :: rest).count v ≤ owing v) :
    Meets S.discipline (Setting.evictChild c) s fun _ s' =>
      Postponed S s₀ (fun v => owing v - rest.count v) s' := by
  have hf := h.frame
  have hpl : s.isPlaced = s₀.isPlaced := by rw [hf]
  have h1 : c < s.isPlaced.size := by rw [hpl, hs.isPlaced]; exact hc
  have h2 : c < s.updates.size := by rw [h.size]; have := hs.updates; omega
  unfold Setting.evictChild
  refine meets_bind (meets_read (read_eq h1) ?_)
  by_cases hb : s.isPlaced[c]! = true
  · simp only [hb, Bool.not_true, Bool.false_eq_true, if_false]
    refine meets_pure ⟨h.frame, h.size, fun v hv => ?_⟩
    rw [h.updates v hv]
    by_cases hcv : c = v
    · subst hcv
      rw [hpl] at hb
      simp [hb]
    · rw [List.count_cons_of_ne hcv]
  · simp only [hb, Bool.not_false, if_true]
    refine meets_update ({ s with updates := s.updates.setIfInBounds c (s.updates[c]! + 1) })
      (by rw [incr_eq h2]; rfl) (Placement.le_of_same rfl rfl) ⟨?_, by simpa using h.size, ?_⟩
    · rw [hf]
    · intro v hv
      have hle' := hle v
      rw [put_get h2]
      by_cases hcv : v = c
      · subst hcv
        have hb' : ¬ s₀.isPlaced[v]! = true := by rw [← hpl]; exact hb
        rw [if_pos rfl, h.updates v hv, if_neg hb', if_neg hb']
        rw [List.count_cons_self] at hle' ⊢
        omega
      · rw [if_neg hcv, h.updates v hv, List.count_cons_of_ne (Ne.symm hcv)]

theorem evictChildren_spec (hS : S.Sound) (hp : p < S.G2.numVertex) (hs : Shape S s) :
    Meets S.discipline (S.forChildren S.G2.VI[p]! (S.G2.stop p) Setting.evictChild) s
      fun _ s' => Postponed S s (fun v => (S.G2.row p).count v) s' := by
  refine meets_mono (forChildren_spec hS hp (fun rest s' =>
    Postponed S s (fun v => (S.G2.row p).count v - rest.count v) s' ∧
      ∀ v, rest.count v ≤ (S.G2.row p).count v) ⟨⟨rfl, rfl, by simp⟩, fun v => le_rfl⟩ ?_) ?_
  · intro c rest s' hc h
    refine meets_mono (evictChild_spec hs hc h.1 h.2) fun _ s'' _ h' => ⟨h', fun v => ?_⟩
    exact (List.count_le_count_cons).trans (h.2 v)
  · intro _ s' _ h
    simpa using h.1

/-- The last reference to `p` is gone, and its children owe what its presence had saved them. -/
theorem Postponed.moment (hS : S.Sound) (hp : p < S.G2.numVertex) (hw : p ∉ w) {s' : Placement}
    (hshape : Shape S s) (hord : Ordered S u s) (hbal : Balanced S (p :: w) [] s)
    (hpres : Present S w s) (h : Postponed S s (fun v => (S.G2.row p).count v) s') :
    Moment S u w [] s' := by
  have hf := h.frame
  refine ⟨?_, ?_, ⟨fun v hv hn => ?_, fun v hv hn => ?_, fun v hv hn => ?_⟩, ?_⟩
  · exact hshape.congr (by rw [hf]) (by rw [hf]) (by rw [hf]) (by rw [hf]) (by rw [hf]) h.size
      (by rw [hf])
  · exact hord.congr (by rw [hf]) (by rw [hf]) (by rw [hf]) (by rw [hf]) (by rw [hf])
  · rw [hf] at hn
    have hb := hbal.balance v hv hn
    have hup := h.updates v hv
    have hn' : s.isPlaced[v]! = false := hn
    rw [resident_cons_new hw] at hb
    rw [if_neg (by simp [hn']), hS.transpose v hv p hp] at hup
    rw [hup, hf]
    change s.cost[s.nodeMap[v]!]! + (s.updates[v]! + _) + _ = _
    omega
  · rw [hf] at hn ⊢
    exact hbal.floor v hv hn
  · rw [hf] at hn
    have hup := h.updates v hv
    rw [if_pos hn] at hup
    rw [hup]
    exact hbal.quiet v hv hn
  · refine ⟨fun q hq => ?_, hpres.counted⟩
    rw [hf]
    exact hpres.presence q hq

theorem evictParent_spec (hS : S.Sound) (hp : p < S.G2.numVertex) (hc : S.counts p = true)
    {k : Nat} (h : Moment S u (p :: w) [] s) :
    Meets S.discipline (S.evictParent p k) s fun k' s' =>
      s' = { s with updates := s'.updates, cachePresence := s'.cachePresence } ∧
      Moment S u w [] s' ∧ k' + w.toFinset.card = k + (p :: w).toFinset.card := by
  have hpres := h.present.presence p hp
  rw [List.count_cons_self] at hpres
  have hsz : p < s.cachePresence.size := by have := h.shape.cachePresence; omega
  unfold Setting.evictParent
  refine meets_bind (meets_read (hS.skips_eq hp) ?_)
  simp only [hc, Bool.not_true, Bool.false_eq_true, if_false]
  refine meets_bind (meets_note (by change 0 < _; omega) rfl ?_)
  let s₁ : Placement := { s with cachePresence := s.cachePresence.setIfInBounds p (w.count p) }
  have hdecr : decr s.cachePresence p = some (s.cachePresence.setIfInBounds p (w.count p)) := by
    rw [decr_eq hsz (by omega), hpres, Nat.add_sub_cancel]
  refine meets_bind (meets_update s₁ (by rw [hdecr]; rfl) (Placement.le_of_same rfl rfl) ?_)
  have hshape : Shape S s₁ := h.shape.congr rfl rfl rfl rfl rfl rfl (by simp [s₁])
  have hpresent : Present S w s₁ := h.present.drop hsz
  have hord : Ordered S u s₁ := h.ordered.congr rfl rfl rfl rfl rfl
  have hread : s₁.cachePresence[p]? = some (w.count p) := by
    rw [read_eq (by simpa [s₁] using hsz), hpresent.presence p hp]
  refine meets_bind (meets_read hread ?_)
  by_cases hw : p ∈ w
  · rw [if_neg (by have := List.count_pos_iff.mpr hw; omega)]
    refine meets_pure ⟨rfl, ⟨hshape, hord, ⟨?_, h.balanced.floor, h.balanced.quiet⟩, hpresent⟩, ?_⟩
    · intro v hv hn
      have hb := h.balanced.balance v hv hn
      rwa [resident_cons_old hw] at hb
    · rw [card_cons_old hw]
  · rw [if_pos (List.count_eq_zero.mpr hw)]
    refine meets_bind (meets_read (hS.csr2.read_start hp) ?_)
    refine meets_bind (meets_read (hS.csr2.rowEnd_eq hp) ?_)
    refine meets_seq (evictChildren_spec hS hp hshape) fun _ s₂ _ hpost => meets_pure ?_
    have hbal : Balanced S (p :: w) [] s₁ := ⟨h.balanced.balance, h.balanced.floor, h.balanced.quiet⟩
    have hf := hpost.frame
    exact ⟨by rw [hf], hpost.moment hS hp hw hshape hord hbal hpresent,
      by rw [card_cons_new hw]; omega⟩

theorem evictParent_skip (hS : S.Sound) (hp : p < S.G2.numVertex) (hc : S.counts p = false)
    {k : Nat} {Q : Nat → Placement → Prop} (hQ : Q k s) :
    Meets S.discipline (S.evictParent p k) s Q := by
  unfold Setting.evictParent
  refine meets_bind (meets_read (hS.skips_eq hp) ?_)
  simp only [hc, Bool.not_false, if_true]
  exact meets_pure hQ

theorem evictParents_spec (hS : S.Sound) {node : Nat} (hn : node < S.G1.numVertex)
    (h : Moment S u ((S.G1.row s.nodeId[node]!).filter S.counts ++ w) [] s) :
    Meets S.discipline (S.evictParents node) s fun k s' =>
      s' = { s with updates := s'.updates, cachePresence := s'.cachePresence } ∧
      Moment S u w [] s' ∧ k + w.toFinset.card =
        ((S.G1.row s.nodeId[node]!).filter S.counts ++ w).toFinset.card := by
  have hv := h.ordered.inverse.maps' node hn
  unfold Setting.evictParents
  refine meets_bind (meets_read (read_eq (by rw [h.shape.nodeId]; exact hn)) ?_)
  refine meets_bind (meets_read (hS.csr1.read_start hv) ?_)
  refine meets_bind (meets_read (hS.csr1.rowEnd_eq hv) ?_)
  generalize hvv : s.nodeId[node]! = v at h hv
  let rest (i : Nat) : List Nat := (slice S.G1.EI i (S.G1.stop v)).filter S.counts ++ w
  have hdone : rest (S.G1.stop v) = w := by simp [rest, slice_empty]
  refine meets_mono (P := fun k s' =>
      s' = { s with updates := s'.updates, cachePresence := s'.cachePresence } ∧
      Moment S u (rest (S.G1.stop v)) [] s' ∧ k + (rest (S.G1.stop v)).toFinset.card =
        (rest S.G1.VI[v]!).toFinset.card) ?_ fun k s' _ hk => by rwa [hdone] at hk
  refine meets_forRange (fun i k s' =>
      s' = { s with updates := s'.updates, cachePresence := s'.cachePresence } ∧
      Moment S u (rest i) [] s' ∧ k + (rest i).toFinset.card = (rest S.G1.VI[v]!).toFinset.card)
    (hS.csr1.start_le_stop hv) ⟨rfl, h, Nat.zero_add _⟩ ?_
  intro i k s' hi hi' hI
  obtain ⟨hf, hm, hk⟩ := hI
  have hp : S.G1.EI[i]! < S.G2.numVertex :=
    hS.csr1.entries i (by have := hS.csr1.stop_le hv; omega)
  refine meets_bind (meets_read (read_eq (hS.csr1.stop_lt_size hv hi')) ?_)
  have hcons : rest i = if S.counts S.G1.EI[i]! then S.G1.EI[i]! :: rest (i + 1)
      else rest (i + 1) := by
    simp only [rest, slice_cons _ hi', List.filter_cons]
    split_ifs <;> rfl
  cases hc : S.counts S.G1.EI[i]! with
  | false =>
    rw [hcons, if_neg (by simp [hc])] at hm hk
    exact evictParent_skip hS hp hc ⟨hf, hm, hk⟩
  | true =>
    rw [hcons, if_pos hc] at hm hk
    refine meets_mono (evictParent_spec hS hp hc hm) fun k' s'' _ hr => ?_
    obtain ⟨hf', hm', hk'⟩ := hr
    exact ⟨by rw [hf', hf], hm', by omega⟩

end Evict

structure Framed (s s' : Placement) : Prop where
  isPlaced : s'.isPlaced = s.isPlaced
  minPtr : s'.minPtr = s.minPtr
  currWinCost : s'.currWinCost = s.currWinCost
  currWinStartId : s'.currWinStartId = s.currWinStartId

theorem Framed.refl (s : Placement) : Framed s s := ⟨rfl, rfl, rfl, rfl⟩

theorem Framed.trans {s s' s'' : Placement} (h : Framed s s') (h' : Framed s' s'') :
    Framed s s'' :=
  ⟨h'.isPlaced.trans h.isPlaced, h'.minPtr.trans h.minPtr, h'.currWinCost.trans h.currWinCost,
    h'.currWinStartId.trans h.currWinStartId⟩

section Load

theorem Moment.skip_placed {c : Nat} {rest : List Nat} (h : Moment S u w (c :: rest) s)
    (hb : s.isPlaced[c]! = true) : Moment S u w rest s := by
  refine ⟨h.shape, h.ordered, ⟨fun v hv hn => ?_, h.balanced.floor, h.balanced.quiet⟩, h.present⟩
  have hcv : c ≠ v := by
    intro he
    rw [he, hn] at hb
    cases hb
  rw [h.balanced.balance v hv hn, List.count_cons_of_ne hcv]

theorem Moment.cancel_pending {c : Nat} {rest : List Nat} (h : Moment S u w (c :: rest) s)
    (hc : c < S.G1.numVertex) (hb : s.isPlaced[c]! = false) (hpos : 0 < s.updates[c]!) :
    Moment S u w rest { s with updates := s.updates.setIfInBounds c (s.updates[c]! - 1) } := by
  have h2 := (h.unplaced_lt hc).2
  refine ⟨h.shape.congr rfl rfl rfl rfl rfl (by simp) rfl, h.ordered.congr rfl rfl rfl rfl rfl,
    ⟨fun v hv hn => ?_, h.balanced.floor, fun v hv hn => ?_⟩,
    ⟨h.present.presence, h.present.counted⟩⟩
  · have hb' := h.balanced.balance v hv hn
    change _ + (Array.setIfInBounds _ _ _)[v]! + _ = _
    rw [put_get h2]
    by_cases hvc : v = c
    · subst hvc
      rw [List.count_cons_self] at hb'
      rw [if_pos rfl]
      change s.cost[s.nodeMap[v]!]! + _ + _ = _
      omega
    · rw [if_neg hvc]
      rwa [List.count_cons_of_ne (Ne.symm hvc)] at hb'
  · have hvc : v ≠ c := by
      intro he
      subst he
      change s.isPlaced[v]! = true at hn
      rw [hb] at hn
      cases hn
    change (Array.setIfInBounds _ _ _)[v]! = _
    rw [put_get_ne hvc]
    exact h.balanced.quiet v hv hn

theorem Moment.lower_cost {c : Nat} {rest : List Nat} {s' : Placement}
    (h : Moment S u w (c :: rest) s) (hc : c < S.G1.numVertex) (hb : s.isPlaced[c]! = false)
    (hnone : s.updates[c]! = 0) (hcost : 0 < s.cost[s.nodeMap[c]!]!)
    (hm : Moved S u c (s.cost[s.nodeMap[c]!]! - 1) s s') : Moment S u w rest s' := by
  have hbal := h.balanced.balance c hc hb
  have hlow := h.present.resident_le c
  rw [List.count_cons_self] at hbal
  refine hm.moment h.present (fun v hv hn => ?_) (fun v hv hn => ?_) h.balanced.quiet
  · have hb' := h.balanced.balance v hv hn
    by_cases hvc : v = c
    · subst hvc
      rw [if_pos rfl]
      omega
    · rw [if_neg hvc]
      rwa [List.count_cons_of_ne (Ne.symm hvc)] at hb'
  · by_cases hvc : v = c
    · subst hvc
      rw [if_pos rfl]
      omega
    · rw [if_neg hvc]
      exact h.balanced.floor v hv hn

theorem loadChild_spec (hS : S.Sound) {c : Nat} {rest : List Nat} (hc : c < S.G1.numVertex)
    (h : Moment S (s.minPtr + 1) w (c :: rest) s) :
    Meets S.discipline (Setting.loadChild c) s fun _ s' =>
      Framed s s' ∧ Moment S (s.minPtr + 1) w rest s' := by
  obtain ⟨h1, h2⟩ := h.unplaced_lt hc
  unfold Setting.loadChild
  refine meets_bind (meets_read (read_eq h1) ?_)
  cases hb : s.isPlaced[c]! with
  | true =>
    simp only [Bool.not_true, Bool.false_eq_true, if_false]
    exact meets_pure ⟨.refl s, h.skip_placed hb⟩
  | false =>
    have hbal := h.balanced.balance c hc hb
    have hlow := (h.present.resident_le c).trans (hS.top c hc)
    rw [List.count_cons_self] at hbal
    simp only [Bool.not_false, if_true]
    refine meets_bind (meets_read (read_eq h2) ?_)
    by_cases hpos : 0 < s.updates[c]!
    · -- a pending increase is cancelled
      rw [if_pos hpos]
      exact meets_update
        ({ s with updates := s.updates.setIfInBounds c (s.updates[c]! - 1) })
        (by rw [decr_eq h2 hpos]; rfl) (Placement.le_of_same rfl rfl)
        ⟨⟨rfl, rfl, rfl, rfl⟩, h.cancel_pending hc hb hpos⟩
    · -- nothing is pending: the cost drops at once
      rw [if_neg hpos]
      have hcost : 0 < s.cost[s.nodeMap[c]!]! := by omega
      obtain ⟨s', hrun, hm⟩ := moveLeft_spec h.shape h.ordered hc
        (h.ordered.le_of_unplaced hc hb) hcost
      have hcap := h.ordered.cost_le hc (h.ordered.le_of_unplaced hc hb)
      refine meets_bind (meets_note ⟨hcost, by rw [h.shape.CI]; omega⟩ rfl ?_)
      refine meets_bind (meets_update _ hrun hm.climb ?_)
      refine meets_note (by change Ordered S _ s'; rw [hm.minPtr]; exact hm.ordered) rfl ?_
      exact ⟨⟨hm.isPlaced, hm.minPtr, hm.currWinCost, hm.currWinStartId⟩,
        h.lower_cost hc hb (Nat.eq_zero_of_not_pos hpos) hcost hm⟩

/-- With one more reference to a parent, its children are to be lowered if it is a new one. -/
theorem Moment.load (hS : S.Sound) {u : Nat} (hp : p < S.G2.numVertex) (hc : S.counts p = true)
    (hsz : p < s.cachePresence.size) (h : Moment S u w [] s) :
    Moment S u (w ++ [p]) (if p ∈ w then [] else S.G2.row p)
      { s with cachePresence := s.cachePresence.setIfInBounds p (w.count p + 1) } := by
  refine ⟨h.shape.congr rfl rfl rfl rfl rfl rfl (by simp), h.ordered.congr rfl rfl rfl rfl rfl,
    ⟨fun v hv hn => ?_, h.balanced.floor, h.balanced.quiet⟩, h.present.push hp hc hsz⟩
  change s.cost[s.nodeMap[v]!]! + s.updates[v]! + _ = _
  have hb : s.cost[s.nodeMap[v]!]! + s.updates[v]! + resident w (S.G1.row v) =
    S.maxCost + List.count v [] := h.balanced.balance v hv hn
  by_cases hw : p ∈ w
  · rw [if_pos hw]
    rwa [← resident_append_old hw] at hb
  · rw [if_neg hw, resident_append_new hw, hS.transpose v hv p hp]
    simp only [List.count_nil] at hb
    omega

theorem loadParent_spec (hS : S.Sound) (hp : p < S.G2.numVertex) (hc : S.counts p = true)
    {k : Nat} (h : Moment S (s.minPtr + 1) w [] s) :
    Meets S.discipline (S.loadParent p k) s fun k' s' => Framed s s' ∧
      Moment S (s.minPtr + 1) (w ++ [p]) [] s' ∧
      k' + w.toFinset.card = k + (w ++ [p]).toFinset.card := by
  have hpres := h.present.presence p hp
  have hsz : p < s.cachePresence.size := by have := h.shape.cachePresence; omega
  unfold Setting.loadParent
  refine meets_bind (meets_read (hS.skips_eq hp) ?_)
  simp only [hc, Bool.not_true, Bool.false_eq_true, if_false]
  let s₁ : Placement := { s with cachePresence := s.cachePresence.setIfInBounds p (w.count p + 1) }
  refine meets_bind (meets_update s₁ (by rw [incr_eq hsz, hpres]; rfl)
    (Placement.le_of_same rfl rfl) ?_)
  have hm := h.load hS hp hc hsz
  refine meets_bind (meets_read (hS.csr2.read_start hp) ?_)
  refine meets_bind (meets_read (hS.csr2.rowEnd_eq hp) ?_)
  have hread : s₁.cachePresence[p]? = some (w.count p + 1) := by
    rw [read_eq (by simpa [s₁] using hsz), hm.present.presence p hp]
    simp
  refine meets_bind (meets_read hread ?_)
  by_cases hw : p ∈ w
  · rw [if_neg (by have := List.count_pos_iff.mpr hw; omega)]
    rw [if_pos hw] at hm
    exact meets_pure ⟨⟨rfl, rfl, rfl, rfl⟩, hm, by rw [card_append_old hw]⟩
  · rw [if_pos (by rw [List.count_eq_zero.mpr hw])]
    rw [if_neg hw] at hm
    refine meets_seq (forChildren_spec hS hp (fun rest s' => Framed s₁ s' ∧
      Moment S (s₁.minPtr + 1) (w ++ [p]) rest s') ⟨.refl s₁, hm⟩ ?_) ?_
    · intro c rest s' hcn hI
      obtain ⟨hf, hm⟩ := hI
      rw [← hf.minPtr] at hm
      refine meets_mono (loadChild_spec hS hcn hm) fun _ s'' _ hr => ?_
      rw [hf.minPtr] at hr
      exact ⟨hf.trans hr.1, hr.2⟩
    · intro _ s' _ hI
      refine meets_pure ⟨⟨hI.1.isPlaced, hI.1.minPtr, hI.1.currWinCost, hI.1.currWinStartId⟩,
        hI.2, ?_⟩
      rw [card_append_new hw]
      omega

theorem loadParent_skip (hS : S.Sound) (hp : p < S.G2.numVertex) (hc : S.counts p = false)
    {k : Nat} {Q : Nat → Placement → Prop} (hQ : Q k s) :
    Meets S.discipline (S.loadParent p k) s Q := by
  unfold Setting.loadParent
  refine meets_bind (meets_read (hS.skips_eq hp) ?_)
  simp only [hc, Bool.not_false, if_true]
  exact meets_pure hQ

theorem loadParents_spec (hS : S.Sound) (hn : s.minPtr < S.G1.numVertex)
    (h : Moment S (s.minPtr + 1) w [] s) :
    Meets S.discipline (S.loadParents s.minPtr) s fun k s' => Framed s s' ∧
      Moment S (s.minPtr + 1) (w ++ (S.G1.row s.nodeId[s.minPtr]!).filter S.counts) [] s' ∧
      k + w.toFinset.card =
        (w ++ (S.G1.row s.nodeId[s.minPtr]!).filter S.counts).toFinset.card := by
  have hv := h.ordered.inverse.maps' s.minPtr hn
  unfold Setting.loadParents
  refine meets_bind (meets_read (read_eq (by rw [h.shape.nodeId]; exact hn)) ?_)
  refine meets_bind (meets_read (hS.csr1.read_start hv) ?_)
  refine meets_bind (meets_read (hS.csr1.rowEnd_eq hv) ?_)
  generalize s.nodeId[s.minPtr]! = v at hv
  let done (i : Nat) : List Nat := w ++ (slice S.G1.EI S.G1.VI[v]! i).filter S.counts
  have hnone : done S.G1.VI[v]! = w := by simp [done, slice_empty]
  refine meets_forRange (fun i k s' => Framed s s' ∧ Moment S (s.minPtr + 1) (done i) [] s' ∧
      k + w.toFinset.card = (done i).toFinset.card)
    (hS.csr1.start_le_stop hv) ⟨.refl s, by rwa [hnone], by rw [hnone, Nat.zero_add]⟩ ?_
  intro i k s' hi hi' hI
  obtain ⟨hf, hm, hk⟩ := hI
  have hp : S.G1.EI[i]! < S.G2.numVertex :=
    hS.csr1.entries i (by have := hS.csr1.stop_le hv; omega)
  refine meets_bind (meets_read (read_eq (hS.csr1.stop_lt_size hv hi')) ?_)
  have hsnoc : done (i + 1) = if S.counts S.G1.EI[i]! then done i ++ [S.G1.EI[i]!]
      else done i := by
    simp only [done, slice_succ _ hi, List.filter_append, List.filter_cons, List.filter_nil]
    split_ifs <;> simp
  cases hc : S.counts S.G1.EI[i]! with
  | false =>
    rw [if_neg (by simp [hc])] at hsnoc
    exact loadParent_skip hS hp hc ⟨hf, by rwa [hsnoc], by rwa [hsnoc]⟩
  | true =>
    rw [if_pos hc] at hsnoc
    rw [← hf.minPtr] at hm
    refine meets_mono (loadParent_spec hS hp hc hm) fun k' s'' _ hr => ?_
    obtain ⟨hf', hm', hk'⟩ := hr
    rw [hf.minPtr] at hm'
    exact ⟨hf.trans hf', by rwa [hsnoc], by rw [hsnoc]; omega⟩

end Load

end GraphReorder
