import GraphReorder.Installed

/-! The placement loop of `graphReordering/block_reordering`, on the compressed graph. -/
namespace GraphReorder.Block
open Library

/-- The body of the cost loop: the cost of a block is its number of parents. -/
def costRow (compG : Graph) (i : Nat) (st : Array Nat × Nat) : Option (Array Nat × Nat) := do
  let endId ← compG.rowEnd i
  let cost ← store st.1 i (usub endId (← compG.VI[i]?))
  let c ← cost[i]?
  some (cost, if st.2 < c then c else st.2)

def costs (compG : Graph) : Option (Array Nat × Nat) :=
  forRange 0 compG.numVertex (costRow compG) (Array.replicate compG.numVertex 0, 0)

/-- Everything between the compression and the placement loop; `numVertex` is that of the graph
that was read. -/
def setup (CACHE_SIZE numVertex : Nat) (compG : Graph) : Option (Setting × Placement) := do
  let deg ← degrees compG
  let G2 ← createReverseCSR compG numVertex
  let revDeg ← degrees G2
  let (cost, maxCost) ← costs compG
  let s ← prepare compG.numVertex numVertex G2.numVertex cost maxCost
  some ({
    G1 := compG, G2, deg, revDeg, maxCost, CACHE_SIZE
    thresh := none
    slack := 3
    halt := fun _ => false }, s)

structure Compressed (numVertex : Nat) (compG : Graph) : Prop where
  csr : compG.Csr numVertex
  nodup : ∀ b < compG.numVertex, (compG.row b).Nodup
  blocks : compG.numVertex ≤ numVertex
  word : numVertex < 2 ^ 32

variable {compG : Graph} {CACHE_SIZE numVertex : Nat} {S : Setting} {s : Placement}

structure Costed (compG : Graph) (i : Nat) (st : Array Nat × Nat) : Prop where
  size : st.1.size = compG.numVertex
  top : ∀ v < i, (compG.row v).length ≤ st.2

theorem costRow_step (h : compG.Csr numVertex) {i : Nat} (hi : i < compG.numVertex)
    {st : Array Nat × Nat} (hI : Costed compG i st) :
    ∃ st', costRow compG i st = some st' ∧ Costed compG (i + 1) st' := by
  have hsz : i < st.1.size := by rw [hI.size]; exact hi
  have hlen : usub (compG.stop i) compG.VI[i]! = (compG.row i).length := by
    rw [usub_of_le (h.start_le_stop hi), Graph.Csr.row_length]
  have hsz' : i < (st.1.setIfInBounds i (compG.row i).length).size := by simpa using hsz
  refine ⟨(st.1.setIfInBounds i (compG.row i).length,
    if st.2 < (compG.row i).length then (compG.row i).length else st.2), ?_, by simpa using hI.size,
    fun v hv => ?_⟩
  · simp only [costRow, h.rowEnd_eq hi, h.read_start hi, some_bind, hlen, store_eq hsz,
      read_eq hsz', put_get_self hsz]
  · change (compG.row v).length ≤
      if st.2 < (compG.row i).length then (compG.row i).length else st.2
    by_cases hvi : v = i
    · subst hvi
      split_ifs <;> omega
    · have htop := hI.top v (by omega)
      split_ifs <;> omega

theorem costs_spec (h : compG.Csr numVertex) :
    ∃ st, costs compG = some st ∧ Costed compG compG.numVertex st :=
  forRange_rule (Costed compG) (Nat.zero_le _)
    ⟨by simp, fun v hv => absurd hv (Nat.not_lt_zero v)⟩
    fun _ _ _ hi hI => costRow_step h hi hI

structure IsSetup (CACHE_SIZE numVertex : Nat) (compG : Graph) (S : Setting) (s : Placement) :
    Prop where
  installed : Installed CACHE_SIZE numVertex compG S s
  thresh : S.thresh = none
  slack : S.slack = 3
  halt : ∀ m, S.halt m = false

theorem setup_eq (CACHE_SIZE : Nat) (h : compG.Csr numVertex) (hb : compG.numVertex ≤ numVertex)
    (hword : numVertex < 2 ^ 32) :
    ∃ S cost, cost.size = compG.numVertex ∧
      (setup CACHE_SIZE numVertex compG =
        (prepare compG.numVertex numVertex numVertex cost S.maxCost).map fun s => (S, s)) ∧
      ∀ s, prepare compG.numVertex numVertex numVertex cost S.maxCost = some s →
        IsSetup CACHE_SIZE numVertex compG S s := by
  have hpos := h.pos
  obtain ⟨deg, hdeg, hds, hd⟩ := degrees_spec h
  obtain ⟨G2, hG2, hrev⟩ := createReverseCSR_spec h (hpos.trans hb) hword
  obtain ⟨revDeg, hrevDeg, _, _⟩ := degrees_spec hrev.csr
  obtain ⟨⟨cost, maxCost⟩, hcosts, hc⟩ := costs_spec h
  refine ⟨{
    G1 := compG, G2, deg, revDeg, maxCost, CACHE_SIZE
    thresh := none
    slack := 3
    halt := fun _ => false }, cost, hc.size, ?_,
    fun s hs => ⟨⟨rfl, h, hrev, rfl, ⟨hds, hd⟩, fun p _ => rfl, fun v hv => ?_, _, hb,
      prepare_some hc.size hpos h.vertexWord hs⟩, rfl, rfl, fun _ => rfl⟩⟩
  · simp only [setup, hdeg, hG2, hrevDeg, hcosts, hrev.numVertex, some_bind]
    cases prepare compG.numVertex numVertex numVertex cost maxCost <;> rfl
  · exact (Setting.low_le_length v).trans (hc.top v hv)

theorem setup_some (h : compG.Csr numVertex) (hb : compG.numVertex ≤ numVertex)
    (hword : numVertex < 2 ^ 32) (hs : setup CACHE_SIZE numVertex compG = some (S, s)) :
    IsSetup CACHE_SIZE numVertex compG S s := by
  obtain ⟨S', cost, _, heq, hsome⟩ := setup_eq CACHE_SIZE h hb hword
  rw [heq] at hs
  obtain ⟨s', hs', he⟩ := Option.map_eq_some_iff.mp hs
  cases he
  exact hsome s hs'

theorem setup_total (CACHE_SIZE : Nat) (h : compG.Csr numVertex)
    (hb : compG.numVertex ≤ numVertex) (hword : numVertex ≤ 2 ^ 31) :
    ∃ S s, setup CACHE_SIZE numVertex compG = some (S, s) := by
  obtain ⟨S, cost, hc, heq, _⟩ := setup_eq CACHE_SIZE h hb (by omega)
  obtain ⟨s, hs⟩ := prepare_total hc h.pos (hb.trans hword)
  exact ⟨S, s, by rw [heq, hs]; rfl⟩

theorem IsSetup.plain (h : IsSetup CACHE_SIZE numVertex compG S s)
    (hG : Compressed numVertex compG) (hsmall : numVertex < 2 ^ 31) : S.Plain where
  thresh := h.thresh
  nodup v hv := by
    rw [h.installed.graph] at hv ⊢
    exact hG.nodup v hv
  small := by
    rw [h.installed.reversed.numVertex]
    exact hsmall

theorem IsSetup.all_placed (h : IsSetup CACHE_SIZE numVertex compG S s) {s' : Placement}
    {tr : List Obs} (hrun : S.placeAll s = some ((), s', tr)) :
    ∀ b < compG.numVertex, ∃ t, Obs.place b t ∈ tr := by
  obtain ⟨t, tr', hrun', _, hhead, hend⟩ := h.installed.run
  rw [hrun'] at hrun
  cases hrun
  intro b hb
  refine (h.installed.seen hrun').2 b hb ?_
  have hb' : b < S.G1.numVertex := by rw [h.installed.graph]; exact hb
  rw [hhead.moment.ordered.placed_iff hb']
  have hmap := hhead.moment.ordered.inverse.maps b hb'
  rw [h.installed.graph] at hmap
  refine decide_eq_true (hmap.trans_le (hend.resolve_right fun hhalt => ?_))
  rw [h.halt] at hhalt
  cases hhalt

def twoBlocks : Graph where
  numVertex := 2
  numEdges := 4
  VI := #[0, 3]
  EI := #[2, 1, 0, 2]

theorem twoBlocks_compressed : Compressed 3 twoBlocks where
  csr := by decide
  nodup := by decide
  blocks := by decide
  word := by decide

/-- The block that is placed has the most resident neighbours. -/
theorem placement_greedy (hG : Compressed numVertex compG)
    (hs : setup CACHE_SIZE numVertex compG = some (S, s)) :
    ∃ s' tr, S.placeAll s = some ((), s', tr) ∧
      ∀ b t, Obs.place b t ∈ tr → ∀ v < compG.numVertex, t.isPlaced[v]! = false →
        (compG.row v).countP (fun p => decide (0 < t.cachePresence[p]!)) ≤
          (compG.row b).countP fun p => decide (0 < t.cachePresence[p]!) := by
  have hset := setup_some hG.csr hG.blocks hG.word hs
  obtain ⟨s', tr, hrun, hpass, _⟩ := hset.installed.run
  refine ⟨s', tr, hrun, fun b t ht v hv hn => ?_⟩
  have hgreedy : ∀ v < S.G1.numVertex, t.isPlaced[v]! = false →
    t.present (S.G1.row v) ≤ t.present (S.G1.row b) := hpass.good _ ht
  rw [hset.installed.graph] at hgreedy
  exact hgreedy v hv hn

theorem placement_greedy_twoBlocks : ∃ S s s' tr, setup 2 3 twoBlocks = some (S, s) ∧
    S.placeAll s = some ((), s', tr) ∧
    (∀ b t, Obs.place b t ∈ tr → ∀ v < 2, t.isPlaced[v]! = false →
      (twoBlocks.row v).countP (fun p => decide (0 < t.cachePresence[p]!)) ≤
        (twoBlocks.row b).countP fun p => decide (0 < t.cachePresence[p]!)) ∧
    ∃ t, Obs.place 0 t ∈ tr := by
  obtain ⟨S, s, hs⟩ := setup_total 2 twoBlocks_compressed.csr (by decide) (by decide)
  obtain ⟨s', tr, hrun, hgreedy⟩ := placement_greedy twoBlocks_compressed hs
  have hplaced := (setup_some twoBlocks_compressed.csr (by decide) (by decide) hs).all_placed hrun
  exact ⟨S, s, s', tr, hs, hrun, hgreedy, hplaced 0 (by decide)⟩

/-- After every load, the cache is within its capacity, or at most three placed positions are
left in the window. -/
def WithinCapacity (CACHE_SIZE numVertex : Nat) (compG : Graph) : Prop :=
  ∀ S s, setup CACHE_SIZE numVertex compG = some (S, s) →
    ∀ s' tr, S.placeAll s = some ((), s', tr) → ∀ h l, Obs.loaded h l ∈ tr →
      l.currWinCost ≤ CACHE_SIZE ∨ l.minPtr - l.currWinStartId ≤ 3

def sixBlocks : Graph where
  numVertex := 6
  numEdges := 15
  VI := #[0, 1, 4, 8, 12, 13]
  EI := #[1, 5, 4, 3, 5, 2, 1, 0, 5, 4, 2, 0, 5, 5, 4]

theorem sixBlocks_compressed : Compressed 6 sixBlocks where
  csr := by decide
  nodup := by decide
  blocks := by decide
  word := by decide

/-- When the last of them is loaded, the cache of capacity 5 holds 6 vertices although four
placed positions are left to evict. -/
theorem sixBlocks_exceed : Compressed 6 sixBlocks ∧ ¬ WithinCapacity 5 6 sixBlocks := by
  refine ⟨sixBlocks_compressed, fun hwithin => ?_⟩
  have hover : ((setup 5 6 sixBlocks).bind fun r => (r.1.placeAll r.2).map fun x =>
      x.2.2.any fun
        | .loaded _ l => decide (5 < l.currWinCost) && decide (3 < l.minPtr - l.currWinStartId)
        | _ => false) = some true := by decide +kernel
  obtain ⟨⟨S, s⟩, hs, hrest⟩ := Option.bind_eq_some_iff.mp hover
  obtain ⟨⟨_, s', tr⟩, hrun, hany⟩ := Option.map_eq_some_iff.mp hrest
  obtain ⟨e, he, hbad⟩ := List.any_eq_true.mp hany
  cases e with
  | loaded h l =>
    simp only [Bool.and_eq_true, decide_eq_true_eq] at hbad
    cases hwithin S s hs s' tr hrun h l he with
    | inl hcost => exact absurd hbad.1 (Nat.not_lt.mpr hcost)
    | inr hshort => exact absurd hbad.2 (Nat.not_lt.mpr hshort)
  | _ => cases hbad

/-- A load respects the capacity when the `nodeCost` from before the flush does no harm in its round. -/
theorem window_capacity (hG : Compressed numVertex compG) (hsmall : numVertex < 2 ^ 31)
    (hs : setup CACHE_SIZE numVertex compG = some (S, s)) :
    ∃ s' tr, S.placeAll s = some ((), s', tr) ∧ ∀ h l, Obs.loaded h l ∈ tr → S.Settled h →
      l.currWinCost ≤ CACHE_SIZE ∨ l.minPtr - l.currWinStartId ≤ 3 := by
  have hset := setup_some hG.csr hG.blocks hG.word hs
  have hplain := hset.plain hG hsmall
  obtain ⟨s', tr, hrun, hpass, _⟩ := hset.installed.run
  refine ⟨s', tr, hrun, fun h l hl hsettled => ?_⟩
  obtain ⟨hhead, hn, hiff⟩ : Head S h ∧ h.minPtr < S.G1.numVertex ∧
    (S.Plain → (S.Capacity l ↔ S.Timely h)) := hpass.good _ hl
  have hcap := (hiff hplain).mpr (hsettled.timely hset.installed.sound hplain hhead hn)
  rwa [Setting.Capacity, hset.installed.capacity, hset.slack] at hcap

def sixLinks : Graph where
  numVertex := 6
  numEdges := 12
  VI := #[0, 2, 4, 6, 8, 10]
  EI := #[1, 0, 2, 1, 3, 2, 4, 3, 5, 4, 6, 5]

theorem sixLinks_compressed : Compressed 7 sixLinks where
  csr := by decide
  nodup := by decide
  blocks := by decide
  word := by decide

/-- A window of more than three positions, within its capacity. -/
theorem window_capacity_sixLinks : ∃ S s s' tr h l, setup 6 7 sixLinks = some (S, s) ∧
    S.placeAll s = some ((), s', tr) ∧ Obs.loaded h l ∈ tr ∧ 3 < l.minPtr - l.currWinStartId ∧
    l.currWinCost ≤ 6 := by
  have hlong : ((setup 6 7 sixLinks).bind fun r => (r.1.placeAll r.2).map fun x =>
      x.2.2.any fun
        | .loaded h l => decide (h.updates[h.nodeId[h.minPtr]!]! = 0) &&
            decide (3 < l.minPtr - l.currWinStartId)
        | _ => false) = some true := by decide +kernel
  obtain ⟨⟨S, s⟩, hs, hrest⟩ := Option.bind_eq_some_iff.mp hlong
  obtain ⟨⟨_, s', tr⟩, hrun, hany⟩ := Option.map_eq_some_iff.mp hrest
  obtain ⟨e, he, hlong⟩ := List.any_eq_true.mp hany
  cases e with
  | loaded h l =>
    simp only [Bool.and_eq_true, decide_eq_true_eq] at hlong
    obtain ⟨s'', tr', hrun', hcap⟩ := window_capacity sixLinks_compressed (by decide) hs
    rw [hrun'] at hrun
    cases hrun
    refine ⟨S, s, s', tr, h, l, hs, hrun', he, hlong.2, ?_⟩
    exact (hcap h l he (.inl hlong.1)).resolve_right (Nat.not_le.mpr hlong.2)
  | _ => cases hlong

end GraphReorder.Block
