import Mathlib.Algebra.GroupWithZero.Nat
import GraphReorder.Graph

/-! The edge-list side of `graph.cpp`: reading a file of records, renumbering the vertices
that occur, the CSR conversion, and writing the reordered edges. -/
namespace GraphReorder
open Library

structure Flags where
  maintain : Bool
  weighted : Bool
  indegree : Bool

/-- What stands between the blanks of a file: an integer, or other text. -/
inductive Token where
  | int (v : Int)
  | word (text : List Char)
  deriving DecidableEq

def intSucc (v : Int) : Option Int := if v + 1 < 2 ^ 31 then some (v + 1) else none

def toWord (v : Int) : Nat := (v % 2 ^ 32).toNat

def ofWord (w : Nat) : Int := if w < 2 ^ 31 then w else w - 2 ^ 32

theorem toWord_natCast {v : Nat} (h : v < 2 ^ 32) : toWord v = v := by
  unfold toWord
  omega

theorem ofWord_toWord {v : Int} (hl : -2 ^ 31 ≤ v) (hh : v < 2 ^ 31) : ofWord (toWord v) = v := by
  unfold ofWord toWord
  split_ifs <;> omega

theorem ofWord_of_lt {w : Nat} (h : w < 2 ^ 31) : ofWord w = w := if_pos h

/-- What `%d` takes for a sign: whether it is a minus, and the text behind. -/
def scanSign : List Char → Bool × List Char
  | '-' :: text => (true, text)
  | '+' :: text => (false, text)
  | text => (false, text)

/-- `%d` in front of a text: the integer that the text begins with, and what is left. A sign without
a digit behind it is used up all the same. -/
def scanInt (text : List Char) : Option Int × List Char :=
  let (minus, text) := scanSign text
  let digits := text.takeWhile Char.isDigit
  let value : Int := Nat.ofDigitChars 10 digits 0
  (if digits = [] then none else some (if minus then -value else value), text.dropWhile Char.isDigit)

/-- `fscanf(fp, "%d", &x)`: what is stored, if anything, and the file after it. -/
def fscanf : List Token → Option Nat × List Token
  | [] => (none, [])
  | .int v :: fp => (some (toWord v), fp)
  | .word text :: fp =>
    let (value, rest) := scanInt text
    (value.map toWord, if rest = [] then fp else .word rest :: fp)

/-- How many rounds the reading of a file can take. -/
def Token.span : Token → Nat
  | .int _ => 1
  | .word text => text.length

structure Edges where
  src : Array Nat := #[]
  dst : Array Nat := #[]
  weights : Array Nat := #[]

/-- The variables of `read_edge_list`; `w` is not initialised, and `numVertex` is the word of the
`int` that is compared with the unsigned ids. -/
structure Reading where
  fp : List Token
  dstVal : Nat := 0
  w : Option Nat := none
  numVertex : Nat := 0
  edges : Edges := {}

/-- One record: the body of the reading loop. `keep` says which edges are stored. A failing
`fscanf` also covers the test for the end of the file. -/
def readRecord (keep : Nat → Nat → Bool) (weighted : Bool) (r : Reading) :
    Option (Reading ⊕ Reading) :=
  match fscanf r.fp with
  | (none, _) => some (.inr r)
  | (some srcVal, fp) => do
    let (dst, fp) := fscanf fp
    let dstVal := dst.getD r.dstVal
    let (w, fp) := if weighted then fscanf fp else (none, fp)
    let w := w.or r.w
    let numVertex := if r.numVertex < srcVal then srcVal else r.numVertex
    let numVertex := if numVertex < dstVal then dstVal else numVertex
    if keep srcVal dstVal then
      let weights ← if weighted then do some (r.edges.weights.push (← w)) else some r.edges.weights
      some (.inl ⟨fp, dstVal, w, numVertex, r.edges.src.push srcVal, r.edges.dst.push dstVal,
        weights⟩)
    else some (.inl ⟨fp, dstVal, w, numVertex, r.edges⟩)

def readRecords (keep : Nat → Nat → Bool) (weighted : Bool) (fp : List Token) :
    Option (Edges × Int) := do
  let r ← loop (readRecord keep weighted) ((fp.map Token.span).sum + 1) { fp }
  some (r.edges, ← intSucc (ofWord r.numVertex))

def readEdgeList (weighted : Bool) (fp : List Token) : Option (Edges × Int) :=
  readRecords (fun _ _ => true) weighted fp

/-- `to_string(src) + ">" + to_string(dst)`. -/
def getMapKey (src dst : Nat) : Key := Nat.toDigits 10 src ++ '>' :: Nat.toDigits 10 dst

def markExisting (E : Edges) (numVertex numEdgesRead : Nat) : Option (Array Bool) :=
  forRange 0 numEdgesRead (fun i marks => do
    let marks ← store marks (← E.src[i]?) true
    store marks (← E.dst[i]?) true) (Array.replicate numVertex false)

structure Numbering where
  vertexMap : Array Nat
  actualVertices : Nat
  filtered_to_original : Table Nat Nat

def numberVertices (marks : Array Bool) (numVertex : Nat) (table : Table Nat Nat) :
    Option Numbering :=
  forRange 0 numVertex (fun i s => do
    if ← marks[i]? then
      let vertexMap ← store s.vertexMap i s.actualVertices
      some ⟨vertexMap, s.actualVertices + 1, s.filtered_to_original.assign s.actualVertices i⟩
    else some s) ⟨Array.replicate numVertex 0, 0, table⟩

def renumberEdge (weighted : Bool) (vertexMap : Array Nat) (i : Nat)
    (st : Edges × Table Key Nat) : Option (Edges × Table Key Nat) := do
  let src ← store st.1.src i (← vertexMap[← st.1.src[i]?]?)
  let dst ← store st.1.dst i (← vertexMap[← st.1.dst[i]?]?)
  let weights ← if weighted then do
      some (st.2.assign (getMapKey (← src[i]?) (← dst[i]?)) (← st.1.weights[i]?))
    else some st.2
  some ({ st.1 with src, dst }, weights)

def renumber (weighted : Bool) (vertexMap : Array Nat) (numEdgesRead : Nat) (E : Edges)
    (weights : Table Key Nat) : Option (Edges × Table Key Nat) :=
  forRange 0 numEdgesRead (renumberEdge weighted vertexMap) (E, weights)

def filter (weighted : Bool) (E : Edges) (G : Graph) (numVertex numEdgesRead : Nat) :
    Option (Edges × Graph) := do
  let marks ← markExisting E numVertex numEdgesRead
  let s ← numberVertices marks numVertex G.filtered_to_original
  let (E, weights) ← renumber weighted s.vertexMap numEdgesRead E G.weights
  some (E, { G with
    numVertex := s.actualVertices, filtered_to_original := s.filtered_to_original, weights })

/-- Rows by source; with `indegree`, rows by destination. -/
def csrConvert (indegree : Bool) (E : Edges) (G : Graph) : Option Graph := do
  let key := if indegree then E.dst else E.src
  let value := if indegree then E.src else E.dst
  let deg ← forRange 0 G.numEdges (fun i deg => do incr deg (← key[i]?))
    (Array.replicate G.numVertex 0)
  let VI ← forRange 1 (G.numVertex + 1) (fun i VI => do
    store VI i ((← VI[i - 1]?) + (← deg[i - 1]?))) (Array.replicate (G.numVertex + 1) 0)
  let deg ← forRange 0 G.numVertex (fun i deg => store deg i 0) deg
  let (EI, _) ← forRange 0 G.numEdges (fun i st => do
    scatter VI (← key[i]?) (← value[i]?) st) (Array.replicate G.numEdges 0, deg)
  some { G with VI, EI }

def Graph.unread : Graph where
  numVertex := 0
  numEdges := 0
  VI := #[]
  EI := #[]

/-- Where `numVertex` is negative, `read_csr` gives up and the programs exit. The number of edges is a
natural number: an edge list too large for its counter is not modelled. -/
def readCsr (flags : Flags) (fp : List Token) (G : Graph) : Option Graph := do
  let (E, numVertex) ← readEdgeList flags.weighted fp
  if numVertex < 0 then none
  else
    let numEdges := E.src.size
    let (E, G) ← filter flags.weighted E { G with numEdges } numVertex.toNat numEdges
    csrConvert flags.indegree E G

structure Line where
  s : Int
  d : Int
  w : Option Int
  deriving DecidableEq

def writeEdge (flags : Flags) (mapToNode : Array Nat) (i e : Nat)
    (out : List Line × Table Key Nat) : Option (List Line × Table Key Nat) := do
  let s := if flags.indegree then e else i
  let d := if flags.indegree then i else e
  let (w, weights) := out.2.access (getMapKey (← mapToNode[s]?) (← mapToNode[d]?))
  some (out.1 ++ [⟨ofWord s, ofWord d, if flags.weighted then some (ofWord w) else none⟩], weights)

def writeEdgeList (flags : Flags) (G : Graph) (nodeMap : Array Nat) : Option (List Line) := do
  let mapToNode ← forRange 0 G.numVertex (fun i a => do store a (← nodeMap[i]?) i)
    (Array.replicate G.numVertex 0)
  let out ← forRange 0 (usub G.numVertex 1) (fun i out => do
    forRange (← G.VI[i]?) (← G.VI[i + 1]?) (fun j out => do
      writeEdge flags mapToNode i (← G.EI[j]?) out) out) ([], G.weights)
  let out ← forRange (← G.VI[usub G.numVertex 1]?) G.numEdges (fun j out => do
    writeEdge flags mapToNode (usub G.numVertex 1) (← G.EI[j]?) out) out
  some out.1

end GraphReorder
