import GraphReorder.Graph
import GraphReorder.Library.Observed

/-! The placement loop that both reorderings run, on the arrays of `main`. pH and block
reordering differ in the constants of `Setting` only. -/
namespace GraphReorder
open Library

structure Placement where
  cost : Array Nat
  nodeId : Array Nat
  nodeMap : Array Nat
  CI : Array Nat
  updates : Array Nat
  cachePresence : Array Nat
  isPlaced : Array Bool
  minPtr : Nat
  currWinCost : Nat
  currWinStartId : Nat

/-- What stays fixed during the loop. `thresh` is the degree threshold of the parents, which
only pH has; `slack` is the constant in the guard of the eviction loop; `halt` is the extra
exit at the head of the loop. -/
structure Setting where
  G1 : Graph
  G2 : Graph
  deg : Array Nat
  revDeg : Array Nat
  thresh : Option Nat
  maxCost : Nat
  CACHE_SIZE : Nat
  slack : Nat
  halt : Nat → Bool

/-- The points of a run at which its state is looked at: the head of the loop, an evaluation
of `nodeCost`, before and after each move, before an eviction, before a `cachePresence`
entry is decremented, before `currWinCost` is, before a node is marked placed, and after
its parents are loaded (with the state at the head of that round). -/
inductive Obs where
  | head (s : Placement)
  | nodeCost (origId : Nat) (s : Placement)
  | rightCall (id : Nat) (s : Placement)
  | right (s : Placement)
  | leftCall (id : Nat) (s : Placement)
  | left (s : Placement)
  | evict (s : Placement)
  | unload (parentId : Nat) (s : Placement)
  | evicted (count : Nat) (s : Placement)
  | place (origId : Nat) (s : Placement)
  | loaded (atHead s : Placement)

def Obs.state : Obs → Placement
  | .head s | .nodeCost _ s | .rightCall _ s | .right s | .leftCall _ s | .left s | .evict s
  | .unload _ s | .evicted _ s | .place _ s | .loaded _ s => s

abbrev Run (α : Type) : Type := Comp Placement Obs α

open Library.Comp (read update note)

def moveRight (id : Nat) (s : Placement) : Option Placement := do
  let nodeCost ← s.cost[← s.nodeMap[id]?]?
  let temp ← s.nodeMap[id]?
  let last := usub (← s.CI[nodeCost + 1]?) 1
  let replacedNode ← s.nodeId[last]?
  let nodeMap ← store s.nodeMap id last
  let nodeMap ← store nodeMap replacedNode temp
  let nodeId ← store s.nodeId last id
  let nodeId ← store nodeId temp replacedNode
  let cost ← incr s.cost last
  let CI ← decr s.CI (nodeCost + 1)
  some { s with cost, nodeId, nodeMap, CI }

def clamp (CI : Array Nat) (minPtr c : Nat) : Option (Array Nat) := do
  if (← CI[c]?) ≤ minPtr then store CI c (minPtr + 1) else some CI

def moveLeft (id : Nat) (s : Placement) : Option Placement := do
  let nodeCost ← s.cost[← s.nodeMap[id]?]?
  let temp ← s.nodeMap[id]?
  let CI ← clamp s.CI s.minPtr nodeCost
  let first ← CI[nodeCost]?
  let replacedNode ← s.nodeId[first]?
  let nodeMap ← store s.nodeMap id first
  let nodeId ← store s.nodeId first id
  let nodeMap ← store nodeMap replacedNode temp
  let nodeId ← store nodeId temp replacedNode
  let cost ← decr s.cost first
  let CI ← clamp CI s.minPtr (usub nodeCost 1)
  let CI ← incr CI nodeCost
  some { s with cost, nodeId, nodeMap, CI }

namespace Setting
variable (S : Setting)

/-- Rounds granted to each `while`; no run needs them all. -/
def rounds : Nat := S.G1.numVertex + S.G1.numEdges + 1

/-- Whether the parent is left out of the cache model: `revDeg[p] > degThresh` in pH. -/
def skips (p : Nat) : Option Bool :=
  match S.thresh with
  | none => some false
  | some t => S.revDeg[p]?.map fun d => decide (t < d)

def forChildren (childIdStart childIdEnd : Nat) (body : Nat → Run Unit) : Run Unit :=
  forRange childIdStart childIdEnd (fun j _ => do body (← read fun _ => S.G2.EI[j]?)) ()

/-- What `evictParents` does to a child: an unplaced one gets a pending update. -/
def evictChild (childId : Nat) : Run Unit := do
  if !(← read fun s => s.isPlaced[childId]?) then
    update fun s => do some { s with updates := ← incr s.updates childId }

/-- What `loadParents` does to a child: cancel a pending update, or else move it left. -/
def loadChild (childId : Nat) : Run Unit := do
  if !(← read fun s => s.isPlaced[childId]?) then
    if 0 < (← read fun s => s.updates[childId]?) then
      update fun s => do some { s with updates := ← decr s.updates childId }
    else
      note (.leftCall childId)
      update (moveLeft childId)
      note .left

def evictParent (parentId numParentsEvicted : Nat) : Run Nat := do
  if ← read fun _ => S.skips parentId then
    return numParentsEvicted
  note (.unload parentId)
  update fun s => do some { s with cachePresence := ← decr s.cachePresence parentId }
  if (← read fun s => s.cachePresence[parentId]?) = 0 then
    let childIdStart ← read fun _ => S.G2.VI[parentId]?
    let childIdEnd ← read fun _ => S.G2.rowEnd parentId
    S.forChildren childIdStart childIdEnd evictChild
    return numParentsEvicted + 1
  return numParentsEvicted

def evictParents (node : Nat) : Run Nat := do
  let origId ← read fun s => s.nodeId[node]?
  let parentStartId ← read fun _ => S.G1.VI[origId]?
  let parentEndId ← read fun _ => S.G1.rowEnd origId
  forRange parentStartId parentEndId (fun i numParentsEvicted => do
    S.evictParent (← read fun _ => S.G1.EI[i]?) numParentsEvicted) 0

def loadParent (parentId numParentsLoaded : Nat) : Run Nat := do
  if ← read fun _ => S.skips parentId then
    return numParentsLoaded
  update fun s => do some { s with cachePresence := ← incr s.cachePresence parentId }
  let childIdStart ← read fun _ => S.G2.VI[parentId]?
  let childIdEnd ← read fun _ => S.G2.rowEnd parentId
  if (← read fun s => s.cachePresence[parentId]?) = 1 then
    S.forChildren childIdStart childIdEnd loadChild
    return numParentsLoaded + 1
  return numParentsLoaded

def loadParents (nodePtr : Nat) : Run Nat := do
  let origId ← read fun s => s.nodeId[nodePtr]?
  let parentIdStart ← read fun _ => S.G1.VI[origId]?
  let parentIdEnd ← read fun _ => S.G1.rowEnd origId
  forRange parentIdStart parentIdEnd (fun i numParentsLoaded => do
    S.loadParent (← read fun _ => S.G1.EI[i]?) numParentsLoaded) 0

def flush : Nat → Run Nat :=
  loop (fun origId => do
    if 0 < (← read fun s => s.updates[origId]?) then
      update fun s => do some { s with updates := ← decr s.updates origId }
      note (.rightCall origId)
      update (moveRight origId)
      note .right
      return .inl (← read fun s => s.nodeId[s.minPtr]?)
    return .inr origId) S.rounds

/-- `deg[origId] - (maxCost - cost[minPtr])`. -/
def nodeCost (origId : Nat) (s : Placement) : Option Nat := do
  some (usub (← S.deg[origId]?) (usub S.maxCost (← s.cost[s.minPtr]?)))

/-- `(currWinCost + nodeCost > CACHE_SIZE) && (currWinStartId < minPtr-slack)`. -/
def mustEvict (nodeCost : Nat) (s : Placement) : Bool :=
  decide (S.CACHE_SIZE < uadd s.currWinCost nodeCost) &&
    decide (s.currWinStartId < usub s.minPtr S.slack)

/-- `if (deg[nodeId[currWinStartId]] <= CACHE_SIZE) currWinCost -= evictParents(...)`. -/
def evictOldest : Run Unit := do
  let start ← read fun s => some s.currWinStartId
  let oldest ← read fun s => s.nodeId[start]?
  if (← read fun _ => S.deg[oldest]?) ≤ S.CACHE_SIZE then
    note .evict
    let count ← S.evictParents start
    note (.evicted count)
    update fun s => some { s with currWinCost := usub s.currWinCost count }

/-- The body of the eviction loop up to its `break`: the new `origId` and `nodeCost`. -/
def evictStep : Run (Nat × Nat) := do
  S.evictOldest
  let origId ← S.flush (← read fun s => s.nodeId[s.minPtr]?)
  note (.nodeCost origId)
  let nodeCost ← read (S.nodeCost origId)
  update fun s => some { s with currWinStartId := s.currWinStartId + 1 }
  return (origId, nodeCost)

/-- The eviction loop, on its local variables `origId` and `nodeCost`. -/
def evictWindow : Nat × Nat → Run (Nat × Nat) :=
  loop (fun (origId, nodeCost) => do
    if ← read fun s => some (S.mustEvict nodeCost s) then
      let (origId, nodeCost) ← S.evictStep
      if S.CACHE_SIZE < (← read fun _ => S.deg[origId]?) then
        return .inr (origId, nodeCost)
      return .inl (origId, nodeCost)
    return .inr (origId, nodeCost)) S.rounds

def markPlaced (origId : Nat) : Run Unit := do
  note (.place origId)
  update fun s => do some { s with isPlaced := ← store s.isPlaced origId true }

def advance : Run Unit := update fun s => some { s with minPtr := s.minPtr + 1 }

/-- The special case `deg[origId] > CACHE_SIZE`: the node is placed without loading it. -/
def placeHeavy (origId : Nat) : Run Unit := do
  markPlaced origId
  advance

def placeLight (atHead : Placement) (origId : Nat) : Run Unit := do
  let origId ← S.flush origId
  markPlaced origId
  let count ← S.loadParents atHead.minPtr
  update fun s => some { s with currWinCost := s.currWinCost + count }
  note (.loaded atHead)
  advance

/-- One round of the placement loop. The test `nodeCost < 0` of the source is left out: on
an unsigned value it is never true. -/
def round : Unit → Run (Unit ⊕ Unit) := fun _ => do
  note .head
  let atHead ← read some
  if S.G1.numVertex ≤ atHead.minPtr || S.halt atHead.minPtr then
    return .inr ()
  let origId ← read fun s => s.nodeId[s.minPtr]?
  note (.nodeCost origId)
  let nodeCost ← read (S.nodeCost origId)
  let origId ← S.flush origId
  if S.CACHE_SIZE < (← read fun _ => S.deg[origId]?) then
    placeHeavy origId
    return .inl ()
  let (origId, _) ← S.evictWindow (origId, nodeCost)
  if S.CACHE_SIZE < (← read fun _ => S.deg[origId]?) then
    placeHeavy origId
    return .inl ()
  S.placeLight atHead origId
  return .inl ()

def placeAll : Run Unit := loop S.round S.rounds ()

end Setting

end GraphReorder
