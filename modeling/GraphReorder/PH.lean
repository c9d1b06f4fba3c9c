import GraphReorder.Installed
import GraphReorder.ReadCsr

/-! The pH reordering: `main` of `graphReordering/pH`. -/
namespace GraphReorder.PH
open Library

/-- The row of the cost loop: count the parents whose `revDeg` is within the threshold. -/
def costRow (G1 : Graph) (revDeg : Array Nat) (degThresh i : Nat) (st : Array Nat × Nat) :
    Option (Array Nat × Nat) := do
  let endId ← G1.VI[i + 1]?
  let cost ← forRange (← G1.VI[i]?) endId (fun j cost => do
    if (← revDeg[← G1.EI[j]?]?) ≤ degThresh then incr cost i else some cost) st.1
  let c ← cost[i]?
  some (cost, if st.2 < c then c else st.2)

def costs (G1 : Graph) (revDeg : Array Nat) (degThresh : Nat) : Option (Array Nat × Nat) :=
  forRange 0 G1.numVertex (costRow G1 revDeg degThresh) (Array.replicate G1.numVertex 0, 0)

def setup (CACHE_SIZE : Nat) (G1 : Graph) : Option (Setting × Placement) := do
  let degThresh := Nat.sqrt G1.numVertex
  let deg ← degrees G1
  let G2 ← createReverseCSR G1 G1.numVertex
  let revDeg ← degrees G2
  let (cost, maxCost) ← costs G1 revDeg degThresh
  let s ← prepare G1.numVertex G1.numVertex G1.numVertex cost maxCost
  some ({
    G1, G2, deg, revDeg, maxCost, CACHE_SIZE
    thresh := some degThresh
    slack := 5
    halt := fun minPtr => decide (usub G1.numVertex 2 ≤ minPtr) }, s)

/-- The whole program, from the input file to the dumped order and the lines of the output. -/
def main (flags : Flags) (CACHE_SIZE : Nat) (fp : List Token) :
    Option (Array Nat × List Line) := do
  let G1 ← readCsr flags fp Graph.unread
  let (S, s) ← setup CACHE_SIZE G1
  let (s, _) ← S.place s
  let (nodeMap, nodeId) ← maintainZero flags.maintain S.G2.numVertex s.nodeMap s.nodeId
  let G2 ← rebuild (fun v => G1.VI[v + 1]?) G1 S.G2 nodeId nodeMap
  some (nodeMap, ← writeEdgeList flags G2 nodeMap)

/-- A graph as `read_csr` leaves it: `VI` has one more entry, the end of the last row. -/
structure Input (G1 : Graph) : Prop where
  csr : G1.Csr G1.numVertex
  size : G1.VI.size = G1.numVertex + 1
  last : G1.VI[G1.numVertex]! = G1.numEdges

variable {G1 : Graph} {CACHE_SIZE : Nat}

theorem Input.rowEnd_eq (h : Input G1) {v : Nat} (hv : v < G1.numVertex) :
    G1.VI[v + 1]? = some (G1.stop v) := by
  rw [read_eq (by rw [h.size]; omega), Graph.stop]
  by_cases hl : v + 1 = G1.numVertex
  · rw [if_pos hl, hl, h.last]
  · rw [if_neg hl]

section Costs
variable {revDeg : Array Nat} {degThresh : Nat}

def lowParent (revDeg : Array Nat) (degThresh p : Nat) : Bool := decide (revDeg[p]! ≤ degThresh)

structure Costed (G1 : Graph) (revDeg : Array Nat) (degThresh i : Nat) (st : Array Nat × Nat) :
    Prop where
  size : st.1.size = G1.numVertex
  cost : ∀ v < i, st.1[v]! = (G1.row v).countP (lowParent revDeg degThresh)
  rest : ∀ v, i ≤ v → v < G1.numVertex → st.1[v]! = 0
  top : ∀ v < i, st.1[v]! ≤ st.2

theorem costCells_spec (degThresh : Nat) (h : Input G1) (hr : revDeg.size = G1.numVertex) {i : Nat}
    (hi : i < G1.numVertex) {cost : Array Nat} (hs : cost.size = G1.numVertex)
    (hz : cost[i]! = 0) :
    ∃ cost', forRange G1.VI[i]! (G1.stop i) (fun j cost => do
        if (← revDeg[← G1.EI[j]?]?) ≤ degThresh then incr cost i else some cost) cost = some cost' ∧
      (cost'.size = G1.numVertex ∧ ∀ v, cost'[v]! =
        if v = i then (G1.row i).countP (lowParent revDeg degThresh) else cost[v]!) := by
  refine forRange_rule (fun j (a : Array Nat) => a.size = G1.numVertex ∧ ∀ v, a[v]! =
    if v = i then (slice G1.EI G1.VI[i]! j).countP (lowParent revDeg degThresh) else cost[v]!)
    (h.csr.start_le_stop hi) ⟨hs, fun v => ?_⟩ ?_
  · rw [slice_empty _ le_rfl, List.countP_nil]
    split_ifs with hv
    · rw [hv, hz]
    · rfl
  · intro j c hl hj hI
    obtain ⟨hcs, hc⟩ := hI
    have hcell := h.csr.stop_lt_size hi hj
    have hentry : G1.EI[j]! < revDeg.size := by
      rw [hr]
      exact h.csr.entries j (by have := h.csr.stop_le hi; omega)
    have hsz : i < c.size := by omega
    rw [read_eq hcell, some_bind, read_eq hentry, some_bind, slice_succ _ hl, List.countP_append,
      List.countP_singleton]
    by_cases hle : revDeg[G1.EI[j]!]! ≤ degThresh
    · have hlow : lowParent revDeg degThresh G1.EI[j]! = true := decide_eq_true hle
      refine ⟨_, by rw [if_pos hle, incr_eq hsz], by simpa using hcs, fun v => ?_⟩
      rw [put_get hsz, hc v, hc i, hlow, if_pos rfl]
      by_cases hv : v = i
      · rw [if_pos hv, if_pos hv]
        rfl
      · rw [if_neg hv, if_neg hv, if_neg hv]
    · have hlow : lowParent revDeg degThresh G1.EI[j]! = false := decide_eq_false hle
      refine ⟨c, if_neg hle, hcs, fun v => ?_⟩
      rw [hc v, hlow]
      rfl

theorem costRow_step (h : Input G1) (hr : revDeg.size = G1.numVertex) {i : Nat}
    (hi : i < G1.numVertex) {st : Array Nat × Nat} (hI : Costed G1 revDeg degThresh i st) :
    ∃ st', costRow G1 revDeg degThresh i st = some st' ∧
      Costed G1 revDeg degThresh (i + 1) st' := by
  obtain ⟨cost, hrun, hs, hc⟩ := costCells_spec degThresh h hr hi hI.size
    (hI.rest i le_rfl hi)
  refine ⟨(cost, if st.2 < cost[i]! then cost[i]! else st.2), ?_, hs, fun v hv => ?_,
    fun v hl hv => ?_, fun v hv => ?_⟩
  · have hsize : i < cost.size := by omega
    simp only [costRow, h.rowEnd_eq hi, h.csr.read_start hi, some_bind, hrun, read_eq hsize]
  · rw [hc]
    split_ifs with hvi
    · rw [hvi]
    · exact hI.cost v (by omega)
  · rw [hc, if_neg (by omega)]
    exact hI.rest v (by omega) hv
  · change cost[v]! ≤ if st.2 < cost[i]! then cost[i]! else st.2
    by_cases hvi : v = i
    · rw [hvi]
      split_ifs <;> omega
    · have htop := hI.top v (by omega)
      rw [hc v, if_neg hvi]
      split_ifs <;> omega

theorem costs_spec (degThresh : Nat) (h : Input G1) (hr : revDeg.size = G1.numVertex) :
    ∃ st, costs G1 revDeg degThresh = some st ∧
      Costed G1 revDeg degThresh G1.numVertex st :=
  forRange_rule (Costed G1 revDeg degThresh) (Nat.zero_le _)
    ⟨by simp, fun v hv => absurd hv (Nat.not_lt_zero v), fun v _ hv => replicate_get _ v 0 hv,
      fun v hv => absurd hv (Nat.not_lt_zero v)⟩
    fun _ _ _ hi hI => costRow_step h hr hi hI

end Costs

section Setup
variable {S : Setting} {s : Placement}

theorem counts_of_thresh {S : Setting} {degThresh n : Nat} (hthresh : S.thresh = some degThresh)
    (hs : S.revDeg.size = n) {p : Nat} (hp : p < n) :
    S.skips p = some (!S.counts p) ∧ S.counts p = lowParent S.revDeg degThresh p := by
  have hread : S.revDeg[p]? = some S.revDeg[p]! := read_eq (by omega)
  by_cases hle : S.revDeg[p]! ≤ degThresh
  · simp [Setting.counts, Setting.skips, hthresh, hread, lowParent, hle]
  · simp [Setting.counts, Setting.skips, hthresh, hread, lowParent, hle, Nat.lt_of_not_le hle]

structure IsSetup (CACHE_SIZE : Nat) (G1 : Graph) (S : Setting) (s : Placement) : Prop where
  installed : Installed CACHE_SIZE G1.numVertex G1 S s
  thresh : S.thresh = some (Nat.sqrt G1.numVertex)
  revDeg : S.revDeg.size = G1.numVertex ∧ ∀ p < G1.numVertex, S.revDeg[p]! = (S.G2.row p).length

theorem low_eq {S : Setting} (hG : Input G1) (hgraph : S.G1 = G1)
    (hthresh : S.thresh = some (Nat.sqrt G1.numVertex)) (hs : S.revDeg.size = G1.numVertex)
    {v : Nat} (hv : v < G1.numVertex) :
    S.low v = (G1.row v).countP (lowParent S.revDeg (Nat.sqrt G1.numVertex)) := by
  rw [Setting.low, hgraph]
  exact List.countP_congr fun p hp => by
    rw [(counts_of_thresh hthresh hs (hG.csr.row_lt hv hp)).2]

theorem setup_eq (CACHE_SIZE : Nat) (h : Input G1) :
    ∃ S cost, cost.size = G1.numVertex ∧
      (setup CACHE_SIZE G1 = (prepare G1.numVertex G1.numVertex G1.numVertex cost S.maxCost).map
        fun s => (S, s)) ∧
      ∀ s, prepare G1.numVertex G1.numVertex G1.numVertex cost S.maxCost = some s →
        IsSetup CACHE_SIZE G1 S s := by
  have hpos := h.csr.pos
  obtain ⟨deg, hdeg, hds, hd⟩ := degrees_spec h.csr
  obtain ⟨G2, hG2, hrev⟩ := createReverseCSR_spec h.csr hpos h.csr.vertexWord
  obtain ⟨revDeg, hrevDeg, hrs, hr⟩ := degrees_spec hrev.csr
  rw [hrev.numVertex] at hrs hr
  obtain ⟨⟨cost, maxCost⟩, hcosts, hc⟩ := costs_spec (Nat.sqrt G1.numVertex) h hrs
  refine ⟨{
    G1, G2, deg, revDeg, maxCost, CACHE_SIZE
    thresh := some (Nat.sqrt G1.numVertex)
    slack := 5
    halt := fun minPtr => decide (usub G1.numVertex 2 ≤ minPtr) }, cost, hc.size, ?_,
    fun s hs => ⟨⟨rfl, h.csr, hrev, rfl, ⟨hds, hd⟩, fun p hp => (counts_of_thresh rfl hrs hp).1,
      fun v hv => ?_, _, le_rfl,
      prepare_some hc.size hpos h.csr.vertexWord hs⟩, rfl, hrs, hr⟩⟩
  · simp only [setup, hdeg, hG2, hrevDeg, hcosts, some_bind]
    cases prepare G1.numVertex G1.numVertex G1.numVertex cost maxCost <;> rfl
  · rw [low_eq h rfl rfl hrs hv, ← hc.cost v hv]
    exact hc.top v hv

theorem setup_some (h : Input G1) (hs : setup CACHE_SIZE G1 = some (S, s)) :
    IsSetup CACHE_SIZE G1 S s := by
  obtain ⟨S', cost, _, heq, hsome⟩ := setup_eq CACHE_SIZE h
  rw [heq] at hs
  obtain ⟨s', hs', he⟩ := Option.map_eq_some_iff.mp hs
  cases he
  exact hsome s hs'

theorem setup_total (h : Input G1) (hn : G1.numVertex ≤ 2 ^ 31) :
    ∃ S s, setup CACHE_SIZE G1 = some (S, s) := by
  obtain ⟨S', cost, hc, heq, _⟩ := setup_eq CACHE_SIZE h
  obtain ⟨s, hs⟩ := prepare_total hc h.csr.pos hn
  exact ⟨S', s, by rw [heq, hs]; rfl⟩

theorem IsSetup.counts_eq (h : IsSetup CACHE_SIZE G1 S s) {p : Nat} (hp : p < G1.numVertex) :
    S.counts p = lowParent S.revDeg (Nat.sqrt G1.numVertex) p :=
  (counts_of_thresh h.thresh h.revDeg.1 hp).2

end Setup

end GraphReorder.PH
