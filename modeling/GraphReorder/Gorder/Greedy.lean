import GraphReorder.Gorder.Graph
import GraphReorder.Gorder.UnitHeap
import GraphReorder.Library.BinarySearch
import Mathlib.Data.Nat.Sqrt

/-! `GorderGreedy`: the vertices one by one, each time one that shares the most edges and common
in-neighbours with those in the window of the vertices placed last. -/
namespace GraphReorder.Gorder
open Library

/-- An `int`: outside its range is a fault. -/
def int (x : Int) : Option Int := if -2147483648 ≤ x ∧ x ≤ 2147483647 then some x else none

def bump (w : Nat) (h : UnitHeap) : Option UnitHeap := do
  let update ← readAt h.update w
  if update = 0 then h.incrementKey w
  else pure { h with update := ← writeAt h.update w (← int (update + 1)) }

def drop (w : Nat) (h : UnitHeap) : Option UnitHeap := do
  pure { h with update := ← writeAt h.update w (← int ((← readAt h.update w) - 1)) }

def mark (w : Nat) (h : UnitHeap) : Option UnitHeap := do
  pure { h with update := ← writeAt h.update w halfMax }

structure Greedy where
  unitheap : UnitHeap
  order : Array Nat
  popvexist : Array Bool

namespace Graph

def loadKeys (g : Graph) (h : UnitHeap) : Option UnitHeap :=
  forRange 0 g.vsize (fun i h => do
    let indegree := (← g.graph[i]?).indegree
    pure { h with
      LinkedList := ← setKey h.LinkedList i indegree
      update := ← writeAt h.update i (-indegree) }) h

structure Pick where
  tmpindex : Option Nat := none
  tmpweight : Int := -1
  zero : Array Nat := #[]
  unitheap : UnitHeap

def pickStep (g : Graph) (i : Nat) (st : Pick) : Option Pick := do
  let vertex ← g.graph[i]?
  if st.tmpweight < vertex.indegree then
    pure { st with tmpweight := vertex.indegree, tmpindex := some i }
  else if vertex.indegree + vertex.outdegree = 0 then
    let h ← mark i st.unitheap
    pure { st with zero := st.zero.push i, unitheap := ← h.deleteElement i }
  else pure st

/-- The loop over the targets of `v`, unless it has too many. -/
def forAhead (g : Graph) (hugevertex v : Nat) (step : Nat → UnitHeap → Option UnitHeap)
    (h : UnitHeap) : Option UnitHeap := do
  if (← g.graph[v]?).outdegree ≤ hugevertex then g.forOut v step h else pure h

def enterFirst (g : Graph) (hugevertex v : Nat) (h : UnitHeap) : Option UnitHeap := do
  let h ← g.forIn v (fun u h => do
    let outdegree := (← g.graph[u]?).outdegree
    if outdegree ≤ hugevertex then
      let h ← bump u h
      if 1 < outdegree then g.forOut u bump h else pure h
    else pure h) h
  g.forAhead hugevertex v bump h

/-- The in-neighbour `u` of the vertex that leaves: when the one that enters is a target of it too,
its targets are left out, and it is marked. -/
def leaveStep (g : Graph) (hugevertex v u : Nat) (st : UnitHeap × Array Bool) :
    Option (UnitHeap × Array Bool) := do
  let (h, popvexist) := st
  let outdegree := (← g.graph[u]?).outdegree
  if outdegree ≤ hugevertex then
    let h ← drop u h
    if 1 < outdegree then
      if ← binarySearch g.outedge (← g.graph[u]?).outstart (← g.graph[u + 1]?).outstart v then
        pure (h, ← store popvexist u true)
      else pure (← g.forOut u drop h, popvexist)
    else pure (h, popvexist)
  else pure (h, popvexist)

def leaveWindow (g : Graph) (hugevertex popv v : Nat) (st : UnitHeap × Array Bool) :
    Option (UnitHeap × Array Bool) := do
  let (h, popvexist) := st
  let h ← g.forAhead hugevertex popv drop h
  g.forIn popv (g.leaveStep hugevertex v) (h, popvexist)

/-- The in-neighbour `u` of the vertex that enters: a mark on it is taken away instead. -/
def enterStep (g : Graph) (hugevertex u : Nat) (st : UnitHeap × Array Bool) :
    Option (UnitHeap × Array Bool) := do
  let (h, popvexist) := st
  let outdegree := (← g.graph[u]?).outdegree
  if outdegree ≤ hugevertex then
    let h ← bump u h
    if ← popvexist[u]? then pure (h, ← store popvexist u false)
    else pure (← if 1 < outdegree then g.forOut u bump h else pure h, popvexist)
  else pure (h, popvexist)

def enterWindow (g : Graph) (hugevertex v : Nat) (st : UnitHeap × Array Bool) :
    Option (UnitHeap × Array Bool) := do
  let (h, popvexist) := st
  let h ← g.forAhead hugevertex v bump h
  g.forIn v (g.enterStep hugevertex) (h, popvexist)

def greedyStep (g : Graph) (before : Option Int) (hugevertex window count : Nat) (st : Greedy) :
    Option Greedy := do
  let (v, h) ← st.unitheap.extractMax before
  let v := v.toNat
  let count := count + 1
  let order := st.order.push v
  let h ← mark v h
  let (h, popvexist) ← if window ≤ count then do
      g.leaveWindow hugevertex (← order[count - window]?) v (h, st.popvexist)
    else pure (h, st.popvexist)
  let (h, popvexist) ← g.enterWindow hugevertex v (h, popvexist)
  pure ⟨h, order, popvexist⟩

def insertZero (order zero : Array Nat) : Option (Array Nat) := do
  pure ((order.pop ++ zero).push (← order.back?))

/-- What stands before the main loop: its first state, and the vertices without any edge. -/
def greedyStart (std : StdSort) (g : Graph) : Option (Greedy × Array Nat) := do
  let h ← g.loadKeys (.create g.vsize)
  let h ← h.reConstruct std
  let pick ← forRange 0 g.vsize g.pickStep { unitheap := h }
  let tmpindex ← pick.tmpindex
  let h ← mark tmpindex pick.unitheap
  let h ← h.deleteElement tmpindex
  let h ← g.enterFirst g.vsize.sqrt tmpindex h
  pure (⟨h, #[tmpindex], Array.replicate g.vsize false⟩, pick.zero)

def gorderGreedy (std : StdSort) (before : Option Int) (g : Graph) (window : Nat) :
    Option (Array Nat) := do
  let (st, zero) ← g.greedyStart std
  let st ← forRange 0 (g.vsize - 1 - zero.size) (g.greedyStep before g.vsize.sqrt window) st
  let order ← insertZero st.order zero
  forRange 0 g.vsize (fun i retorder => do store retorder (← order[i]?) i)
    (Array.replicate g.vsize 0)

end Graph

end GraphReorder.Gorder
