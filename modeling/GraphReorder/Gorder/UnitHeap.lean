import Mathlib.Algebra.GroupWithZero.Nat
import GraphReorder.Library.Memory
import GraphReorder.Library.StdSort

/-! The bucketed queue of Gorder, as its makefile builds it (`Release`): a doubly linked list in
falling order of the keys, the two ends of every key's stretch of it, and a pending change of the
key beside every element. -/
namespace GraphReorder.Gorder
open Library

structure ListElement where
  key : Int
  prev : Int
  next : Int
deriving Inhabited, DecidableEq

structure HeadEnd where
  first : Int := -1
  second : Int := -1
deriving Inhabited, DecidableEq

structure UnitHeap where
  update : Array Int
  LinkedList : Array ListElement
  Header : Array HeadEnd
  top : Int
  heapsize : Nat
deriving DecidableEq

def halfMax : Int := 1073741823

def setNext (L : Array ListElement) (i next : Int) : Option (Array ListElement) := do
  writeAt L i { (← readAt L i) with next := next }

def setPrev (L : Array ListElement) (i prev : Int) : Option (Array ListElement) := do
  writeAt L i { (← readAt L i) with prev := prev }

def setKey (L : Array ListElement) (i key : Int) : Option (Array ListElement) := do
  writeAt L i { (← readAt L i) with key := key }

/-- `if(i>=0) LinkedList[i].next=next`. -/
def linkOn (L : Array ListElement) (i next : Int) : Option (Array ListElement) :=
  if 0 ≤ i then setNext L i next else some L

def linkBack (L : Array ListElement) (i prev : Int) : Option (Array ListElement) :=
  if 0 ≤ i then setPrev L i prev else some L

/-- The element leaves the stretch of its key: `Header[key]` as `IncrementKey` and `DeleteElement`
change it. -/
def leaveHeader (H : Array HeadEnd) (key index prev next : Int) : Option (Array HeadEnd) := do
  let e ← readAt H key
  if e.first = e.second then
    writeAt H key ⟨-1, -1⟩
  else if e.first = index then
    writeAt H key { e with first := next }
  else if e.second = index then
    writeAt H key { e with second := prev }
  else
    some H

def joinHeader (H : Array HeadEnd) (key index : Int) : Option (Array HeadEnd) := do
  let e ← readAt H key
  writeAt H key ⟨if e.first < 0 then index else e.first, index⟩

/-- An element other than `head` moves in front of it: the relinking in `IncrementKey`. -/
def moveBefore (L : Array ListElement) (head index prev next : Int) :
    Option (Array ListElement) :=
  if head ≠ index then do
    let L ← setNext L prev next
    let L ← linkBack L next prev
    let headprev := (← readAt L head).prev
    let L ← setPrev L index headprev
    let L ← setNext L index head
    let L ← setPrev L head index
    linkOn L headprev index
  else some L

def dropTop (L : Array ListElement) (top index : Int) : Option Int :=
  if top = index then do pure (← readAt L top).next else some top

def resizeHeader (H : Array HeadEnd) (size : Nat) : Array HeadEnd :=
  H ++ Array.replicate (size - H.size) ({} : HeadEnd)

/-- `if(key+4>=Header.size()) Header.resize(Header.size()*1.5)`. -/
def growHeader (H : Array HeadEnd) (key : Int) : Array HeadEnd :=
  if H.size ≤ key + 4 then resizeHeader H (H.size * 3 / 2) else H

def raiseTop (L : Array ListElement) (top key index : Int) : Option Int := do
  pure (if (← readAt L top).key < key then index else top)

def setFirst (H : Array HeadEnd) (key first : Int) : Option (Array HeadEnd) := do
  writeAt H key { (← readAt H key) with first := first }

def setSecond (H : Array HeadEnd) (key second : Int) : Option (Array HeadEnd) := do
  writeAt H key { (← readAt H key) with second := second }

namespace UnitHeap

/-- The constructor, for `size > 0`. -/
def create (size : Nat) : UnitHeap where
  update := Array.replicate size 0
  LinkedList := (Array.range size).map fun i : Nat =>
    ⟨0, (i : Int) - 1, if i + 1 = size then -1 else (i : Int) + 1⟩
  Header := (Array.replicate (max (size >>> 4) 4) ({} : HeadEnd)).setIfInBounds 0 ⟨0, size - 1⟩
  top := 0
  heapsize := size

def incrementKey (index : Int) (h : UnitHeap) : Option UnitHeap := do
  let e ← readAt h.LinkedList index
  let key := e.key
  let head := (← readAt h.Header key).first
  let prev := e.prev
  let next := e.next
  let L ← moveBefore h.LinkedList head index prev next
  let L ← setKey L index (key + 1)
  let H ← leaveHeader h.Header key index prev next
  let key := key + 1
  let H ← joinHeader H key index
  let top ← raiseTop L h.top key index
  pure { h with LinkedList := L, Header := growHeader H key, top }

def deleteElement (index : Int) (h : UnitHeap) : Option UnitHeap := do
  let e ← readAt h.LinkedList index
  let L ← linkOn h.LinkedList e.prev e.next
  let L ← linkBack L e.next e.prev
  let H ← leaveHeader h.Header e.key index e.prev e.next
  let top ← dropTop L h.top index
  let L ← setPrev L index (-1)
  let L ← setNext L index (-1)
  pure { h with LinkedList := L, Header := H, top }

def tailNext (h : UnitHeap) (p : Int) : Option Int := do
  pure (← readAt h.LinkedList (← readAt h.Header p).second).next

/-- The search in `DecreaseTop` for the stretch that `newkey` queues up behind. -/
def searchStep (newkey : Int) (h : UnitHeap) (st : Int × Int) :
    Option ((Int × Int) ⊕ (Int × Int)) := do
  if 0 ≤ st.2 then
    let e ← readAt h.LinkedList st.2
    if newkey ≤ e.key then pure (.inl (e.key, ← h.tailNext e.key)) else pure (.inr st)
  else pure (.inr st)

/-- With no element behind the top one, the source reads the key of `LinkedList[-1]`, outside the
array: `before` is what that gives, with `none` for a fault. -/
def nextKey (before : Option Int) (L : Array ListElement) (next : Int) : Option Int :=
  if next = -1 then before else do pure (← readAt L next).key

def decreaseTop (before : Option Int) (h : UnitHeap) : Option UnitHeap := do
  let tmptop := h.top
  let e ← readAt h.LinkedList tmptop
  let key := e.key
  let next := e.next
  let update ← readAt h.update tmptop
  let newkey := key + update - update.tdiv 2
  if newkey < (← nextKey before h.LinkedList next) then
    let (p, _) ← loop (searchStep newkey h) (h.heapsize + 1) (key, ← h.tailNext key)
    let L ← setPrev h.LinkedList next (-1)
    let psecond := (← readAt h.Header p).second
    let tailnext := (← readAt L psecond).next
    let L ← setPrev L tmptop psecond
    let L ← setNext L tmptop tailnext
    let L ← setNext L psecond tmptop
    let L ← linkBack L tailnext tmptop
    let header ← readAt h.Header key
    let H ← writeAt h.Header key
      (if header.first = header.second then ⟨-1, -1⟩ else { header with first := next })
    let L ← setKey L tmptop newkey
    let update ← writeAt h.update tmptop (update.tdiv 2)
    let H ← joinHeader H newkey tmptop
    pure { h with update, LinkedList := L, Header := H, top := next }
  else pure h

def pending (h : UnitHeap) : Nat := ((List.range h.heapsize).map fun i => (h.update[i]!).natAbs).sum

/-- `do { tmptop=top; if(update[top]<0) DecreaseTop(); } while(top!=tmptop)`. -/
def settleStep (before : Option Int) (h : UnitHeap) : Option (UnitHeap ⊕ UnitHeap) := do
  let tmptop := h.top
  let h ← if (← readAt h.update tmptop) < 0 then decreaseTop before h else some h
  pure (if h.top = tmptop then .inr h else .inl h)

def extractMax (before : Option Int) (h : UnitHeap) : Option (Int × UnitHeap) := do
  let h ← loop (settleStep before) (h.pending + 1) h
  pure (h.top, ← h.deleteElement h.top)

/-- One round of the loop in `ReConstruct`. Its state: the links, the header, and the key of the
stretch that it is at. -/
def reConstructStep (tmp : Array Nat) (i : Nat)
    (st : Array ListElement × Array HeadEnd × Int) :
    Option (Array ListElement × Array HeadEnd × Int) := do
  let (L, H, key) := st
  let prev : Nat ← tmp[i - 1]?
  let v : Nat ← tmp[i]?
  let next : Nat ← tmp[i + 1]?
  let L ← setPrev L v prev
  let L ← setNext L v next
  let tmpkey := (← readAt L v).key
  if tmpkey ≠ key then
    let H ← setSecond H key prev
    let H ← setFirst H tmpkey v
    pure (L, H, tmpkey)
  else pure (L, H, key)

/-- The end of the last stretch, and the stretch of `last` where it is one of its own. -/
def closeHeader (H : Array HeadEnd) (key lastkey : Int) (beforelast last : Nat) :
    Option (Array HeadEnd) := do
  if key = lastkey then setSecond H key last
  else
    let H ← setSecond H key beforelast
    writeAt H lastkey ⟨last, last⟩

def reConstruct (std : StdSort) (h : UnitHeap) : Option UnitHeap := do
  let tmp := (std.sort (fun a b => decide (h.LinkedList[b]!.key < h.LinkedList[a]!.key))
    (List.range h.heapsize)).toArray
  let first : Nat ← tmp[0]?
  let second : Nat ← tmp[1]?
  let beforelast : Nat ← tmp[tmp.size - 2]?
  let last : Nat ← tmp[tmp.size - 1]?
  let key := (← readAt h.LinkedList first).key
  let L ← setNext h.LinkedList first second
  let L ← setPrev L first (-1)
  let L ← setNext L last (-1)
  let L ← setPrev L last beforelast
  let H := Array.replicate (max (key + 1) h.Header.size).toNat ({} : HeadEnd)
  let H ← setFirst H key first
  let (L, H, key) ← forRange 1 (tmp.size - 1) (reConstructStep tmp) (L, H, key)
  let H ← closeHeader H key (← readAt L last).key beforelast last
  pure { h with LinkedList := L, Header := H, top := first }

end UnitHeap

end GraphReorder.Gorder
