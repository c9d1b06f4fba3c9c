import Mathlib.Tactic.Linarith
import GraphReorder.Moves
import GraphReorder.Library.Window

/-! What holds throughout the placement loop: costs plus pending updates mirror the resident
parents, and `cachePresence` counts the references of the loaded window. -/
namespace GraphReorder
open Library

def Placement.present (s : Placement) (row : List Nat) : Nat :=
  row.countP fun p => decide (0 < s.cachePresence[p]!)

def Placement.absent (s : Placement) (row : List Nat) : Nat :=
  row.countP fun p => decide (s.cachePresence[p]! = 0)

theorem Placement.present_add_absent (s : Placement) (row : List Nat) :
    s.present row + s.absent row = row.length := by
  rw [List.length_eq_countP_add_countP fun p => decide (0 < s.cachePresence[p]!)]
  congr 1
  exact List.countP_congr fun p _ => by simp

namespace Setting
variable (S : Setting)

def counts (p : Nat) : Bool := S.skips p == some false

def low (v : Nat) : Nat := (S.G1.row v).countP S.counts

def loads (v : Nat) : List Nat :=
  if S.CACHE_SIZE < (S.G1.row v).length then [] else (S.G1.row v).filter S.counts

def windowOf (nodeId : Array Nat) (lo hi : Nat) : List Nat :=
  (List.range' lo (hi - lo)).flatMap fun w => S.loads nodeId[w]!

def window (s : Placement) : List Nat := S.windowOf s.nodeId s.currWinStartId s.minPtr

variable {S} in
theorem windowOf_cons (nodeId : Array Nat) {lo hi : Nat} (h : lo < hi) :
    S.windowOf nodeId lo hi = S.loads nodeId[lo]! ++ S.windowOf nodeId (lo + 1) hi := by
  have hn : hi - lo = hi - (lo + 1) + 1 := by omega
  simp [windowOf, hn, List.range'_succ]

variable {S} in
theorem windowOf_snoc (nodeId : Array Nat) {lo hi : Nat} (h : lo ≤ hi) :
    S.windowOf nodeId lo (hi + 1) = S.windowOf nodeId lo hi ++ S.loads nodeId[hi]! := by
  have hn : hi + 1 - lo = hi - lo + 1 := by omega
  have hc : lo + (hi - lo) = hi := by omega
  simp [windowOf, hn, List.range'_concat, hc]

variable {S} in
theorem windowOf_congr {nodeId nodeId' : Array Nat} {lo hi : Nat}
    (h : ∀ p < hi, nodeId'[p]! = nodeId[p]!) :
    S.windowOf nodeId' lo hi = S.windowOf nodeId lo hi :=
  List.flatMap_congr fun p hp => by
    have := List.mem_range'_1.mp hp
    rw [h p (by omega)]

/-- The setting was built from a graph and its transpose as `main` builds it. -/
structure Sound : Prop where
  csr1 : S.G1.Csr S.G2.numVertex
  csr2 : S.G2.Csr S.G1.numVertex
  transpose : ∀ v < S.G1.numVertex, ∀ p < S.G2.numVertex,
    (S.G2.row p).count v = (S.G1.row v).count p
  deg : ∀ v < S.G1.numVertex, S.deg[v]? = some (S.G1.row v).length
  skips : ∀ p < S.G2.numVertex, ∃ b, S.skips p = some b
  top : ∀ v < S.G1.numVertex, S.low v ≤ S.maxCost

end Setting

variable {S : Setting} {s s' : Placement} {u v p : Nat} {w owed : List Nat}

theorem Setting.Sound.skips_eq (hS : S.Sound) (hp : p < S.G2.numVertex) :
    S.skips p = some (!S.counts p) := by
  obtain ⟨b, hb⟩ := hS.skips p hp
  cases b <;> simp [Setting.counts, hb]

theorem Setting.low_le_length (v : Nat) : S.low v ≤ (S.G1.row v).length := List.countP_le_length

/-- Cost, pending updates and resident parents of an unplaced node add up to `maxCost`, but
for the occurrences in `owed`, whose load is still on its way. -/
structure Balanced (S : Setting) (w owed : List Nat) (s : Placement) : Prop where
  balance : ∀ v < S.G1.numVertex, s.isPlaced[v]! = false →
    s.cost[s.nodeMap[v]!]! + s.updates[v]! + resident w (S.G1.row v) = S.maxCost + owed.count v
  floor : ∀ v < S.G1.numVertex, s.isPlaced[v]! = false →
    S.maxCost ≤ s.cost[s.nodeMap[v]!]! + S.low v
  quiet : ∀ v < S.G1.numVertex, s.isPlaced[v]! = true → s.updates[v]! = 0

structure Present (S : Setting) (w : List Nat) (s : Placement) : Prop where
  presence : ∀ p < S.G2.numVertex, s.cachePresence[p]! = w.count p
  counted : ∀ p ∈ w, p < S.G2.numVertex ∧ S.counts p = true

/-- All of it, at a moment when the positions below `u` are placed. -/
structure Moment (S : Setting) (u : Nat) (w owed : List Nat) (s : Placement) : Prop where
  shape : Shape S s
  ordered : Ordered S u s
  balanced : Balanced S w owed s
  present : Present S w s

theorem Present.present_eq (h : Present S w s) {row : List Nat}
    (hr : ∀ p ∈ row, p < S.G2.numVertex) : s.present row = resident w row :=
  List.countP_congr fun p hp => by
    rw [h.presence p (hr p hp)]
    simp [List.count_pos_iff]

theorem Present.resident_le (h : Present S w s) (v : Nat) :
    resident w (S.G1.row v) ≤ S.low v :=
  resident_le_countP fun p hp => (h.counted p hp).2

theorem Present.card (h : Present S w s) :
    ((List.range S.G2.numVertex).countP fun p => decide (0 < s.cachePresence[p]!)) =
      w.toFinset.card := by
  rw [List.countP_eq_length_filter, ← List.toFinset_card_of_nodup (List.nodup_range.filter _)]
  congr 1
  ext p
  simp only [List.mem_toFinset, List.mem_filter, List.mem_range, decide_eq_true_eq]
  constructor
  · intro hp
    rw [h.presence p hp.1] at hp
    exact List.count_pos_iff.mp hp.2
  · intro hp
    have hlt := (h.counted p hp).1
    rw [h.presence p hlt]
    exact ⟨hlt, List.count_pos_iff.mpr hp⟩

theorem Balanced.congr (h : Balanced S w owed s) (hc : ∀ v < S.G1.numVertex,
      s'.cost[s'.nodeMap[v]!]! = s.cost[s.nodeMap[v]!]!)
    (hu : ∀ v < S.G1.numVertex, s'.updates[v]! = s.updates[v]!)
    (hp : ∀ v < S.G1.numVertex, s'.isPlaced[v]! = s.isPlaced[v]!) : Balanced S w owed s' where
  balance v hv hn := by rw [hc v hv, hu v hv]; exact h.balance v hv (by rw [← hp v hv]; exact hn)
  floor v hv hn := by rw [hc v hv]; exact h.floor v hv (by rw [← hp v hv]; exact hn)
  quiet v hv hn := by rw [hu v hv]; exact h.quiet v hv (by rw [← hp v hv]; exact hn)

/-- Pending updates and resident parents of an unplaced node never exceed its low-degree
edges, so `maxCost - cost` does not. -/
theorem Balanced.updates_le (h : Balanced S w [] s) (hv : v < S.G1.numVertex)
    (hn : s.isPlaced[v]! = false) :
    s.cost[s.nodeMap[v]!]! ≤ S.maxCost ∧ S.maxCost - s.cost[s.nodeMap[v]!]! ≤ S.low v ∧
      s.updates[v]! ≤ S.maxCost - s.cost[s.nodeMap[v]!]! := by
  have hb := h.balance v hv hn
  have hf := h.floor v hv hn
  simp only [List.count_nil] at hb
  omega

theorem Ordered.congr (h : Ordered S u s) (hid : s'.nodeId = s.nodeId)
    (hmap : s'.nodeMap = s.nodeMap) (hpl : s'.isPlaced = s.isPlaced) (hc : s'.cost = s.cost)
    (hi : s'.CI = s.CI) : Ordered S u s' where
  inverse := by rw [hid, hmap]; exact h.inverse
  placed := by rw [hid, hpl]; exact h.placed
  buckets := by rw [hc, hi]; exact h.buckets

theorem Shape.congr (h : Shape S s) (hid : s'.nodeId = s.nodeId)
    (hmap : s'.nodeMap = s.nodeMap) (hpl : s'.isPlaced.size = s.isPlaced.size)
    (hc : s'.cost = s.cost) (hi : s'.CI = s.CI) (hu : s'.updates.size = s.updates.size)
    (hcp : s'.cachePresence.size = s.cachePresence.size) : Shape S s' where
  cost := by rw [hc]; exact h.cost
  nodeId := by rw [hid]; exact h.nodeId
  nodeMap := by rw [hmap]; exact h.nodeMap
  CI := by rw [hi]; exact h.CI
  updates := by rw [hu]; exact h.updates
  cachePresence := by rw [hcp]; exact h.cachePresence
  isPlaced := by rw [hpl]; exact h.isPlaced

theorem Moment.congr (h : Moment S u w owed s) (hid : s'.nodeId = s.nodeId)
    (hmap : s'.nodeMap = s.nodeMap) (hpl : s'.isPlaced = s.isPlaced) (hc : s'.cost = s.cost)
    (hi : s'.CI = s.CI) (hu : s'.updates = s.updates)
    (hcp : s'.cachePresence = s.cachePresence) : Moment S u w owed s' where
  shape := h.shape.congr hid hmap (by rw [hpl]) hc hi (by rw [hu]) (by rw [hcp])
  ordered := h.ordered.congr hid hmap hpl hc hi
  balanced := h.balanced.congr (fun v _ => by rw [hc, hmap]) (fun v _ => by rw [hu])
    fun v _ => by rw [hpl]
  present := ⟨by rw [hcp]; exact h.present.presence, h.present.counted⟩

/-- The loop invariant, at the head of the placement loop. -/
structure Head (S : Setting) (s : Placement) : Prop where
  inside : s.minPtr ≤ S.G1.numVertex
  behind : s.currWinStartId ≤ s.minPtr
  strict : 0 < s.minPtr → s.currWinStartId < s.minPtr
  still : s.minPtr = 0 → ∀ v < S.G1.numVertex, s.updates[v]! = 0
  moment : Moment S s.minPtr (S.window s) [] s
  winCost : s.currWinCost = (S.window s).toFinset.card

namespace Setting
variable (S : Setting)

structure Plain : Prop where
  thresh : S.thresh = none
  nodup : ∀ v < S.G1.numVertex, (S.G1.row v).Nodup
  small : S.G2.numVertex < 2 ^ 31

def Capacity (s : Placement) : Prop :=
  s.currWinCost ≤ S.CACHE_SIZE ∨ s.minPtr - s.currWinStartId ≤ S.slack

def flushed (s : Placement) : Option Nat := (S.flush s.nodeId[s.minPtr]! s).map (·.1)

/-- At the head of a round, the eviction test made with the `nodeCost` computed before the
flush is no worse than the one with the `nodeCost` of the node actually loaded: the window is
short, or the test evicts, or the node brought to `minPtr` fits. -/
def Timely (s : Placement) : Prop :=
  s.minPtr - s.currWinStartId ≤ S.slack ∨
  (∃ c, S.nodeCost s.nodeId[s.minPtr]! s = some c ∧ S.CACHE_SIZE < uadd s.currWinCost c) ∨
  ∃ b, S.flushed s = some b ∧ s.currWinCost + s.absent (S.G1.row b) ≤ S.CACHE_SIZE

def Foremost (v : Nat) (s : Placement) : Prop :=
  s.isPlaced[v]! = false ∧ ∀ u < S.G1.numVertex, s.isPlaced[u]! = false →
    s.present (S.G1.row u) ≤ s.present (S.G1.row v)

/-- At the head of a round, the `nodeCost` that the first eviction test is made with does no harm:
nothing is pending on its node, or the window is short, or the test evicts, or none of the nodes that
can come to `minPtr` has more parents to load. -/
def Settled (s : Placement) : Prop :=
  s.updates[s.nodeId[s.minPtr]!]! = 0 ∨
  s.minPtr - s.currWinStartId ≤ S.slack ∨
  ∃ c, S.nodeCost s.nodeId[s.minPtr]! s = some c ∧ (S.mustEvict c s = true ∨
    ∀ v < S.G1.numVertex, S.Foremost v s → s.absent (S.G1.row v) ≤ c)

def Good : Obs → Prop
  | .head s => Head S s
  | .nodeCost o s => s.cost[s.minPtr]! ≤ S.maxCost ∧
      ∃ d, S.deg[o]? = some d ∧ S.maxCost - s.cost[s.minPtr]! ≤ d
  | .rightCall v s => s.cost[s.nodeMap[v]!]! < S.maxCost ∧ s.cost[s.nodeMap[v]!]! + 1 < s.CI.size
  | .right s => Ordered S s.minPtr s
  | .leftCall v s => 0 < s.cost[s.nodeMap[v]!]! ∧ s.cost[s.nodeMap[v]!]! < s.CI.size
  | .left s => Ordered S (s.minPtr + 1) s
  | .evict s => s.isPlaced[s.nodeId[s.currWinStartId]!]! = true
  | .unload p s => 0 < s.cachePresence[p]!
  | .evicted count s => count ≤ s.currWinCost
  | .place b s => ∀ v < S.G1.numVertex, s.isPlaced[v]! = false →
      s.present (S.G1.row v) ≤ s.present (S.G1.row b)
  | .loaded h s => Head S h ∧ h.minPtr < S.G1.numVertex ∧ (S.Plain → (S.Capacity s ↔ S.Timely h))

def discipline : Discipline Placement Obs := ⟨S.Good, Obs.state⟩

end Setting

end GraphReorder
