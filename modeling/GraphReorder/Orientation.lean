import GraphReorder.Library.Lockstep
import GraphReorder.PHProgram

/-! What `-i` does in pH: the program with it, on a list of records, keeps in step with the program
without it on the list of the turned records. -/
namespace GraphReorder
open Library

def Record.turn (r : Record) : Record := ⟨r.dst, r.src, r.weight⟩

def Edges.turn (E : Edges) : Edges := { E with src := E.dst, dst := E.src }

def Line.turn (l : Line) : Line := { l with s := l.d, d := l.s }

def Graph.withWeights (G : Graph) (weights : Table Key Nat) : Graph := { G with weights }

/-- The second table has for the turned edge what the first has for an edge. -/
def Mirror (t t' : Table Key Nat) : Prop :=
  ∀ s d, t'.find? (getMapKey d s) = t.find? (getMapKey s d)

section Tables
variable {t t' : Table Key Nat}

theorem getMapKey_turn {a b c d : Nat} :
    getMapKey b a = getMapKey d c ↔ getMapKey a b = getMapKey c d := by
  constructor
  · intro h
    obtain ⟨rfl, rfl⟩ := getMapKey_injective h
    rfl
  · intro h
    obtain ⟨rfl, rfl⟩ := getMapKey_injective h
    rfl

theorem Mirror.assign (h : Mirror t t') (s d w : Nat) :
    Mirror (t.assign (getMapKey s d) w) (t'.assign (getMapKey d s) w) := by
  intro s' d'
  rw [Table.find?_assign, Table.find?_assign, h s' d']
  simp only [getMapKey_turn]

theorem Mirror.access (h : Mirror t t') (s d : Nat) :
    (t'.access (getMapKey d s)).1 = (t.access (getMapKey s d)).1 ∧
      Mirror (t.access (getMapKey s d)).2 (t'.access (getMapKey d s)).2 := by
  unfold Table.access
  rw [h s d]
  cases t.find? (getMapKey s d) with
  | some w => exact ⟨rfl, h⟩
  | none => exact ⟨rfl, h.assign s d default⟩

end Tables

section Read
variable {weighted : Bool}

structure InStep (weighted : Bool) (r r' : Reading) : Prop where
  file : ∃ rest, r.fp = recordFile weighted rest ∧
    r'.fp = recordFile weighted (rest.map Record.turn)
  numVertex : r'.numVertex = r.numVertex
  edges : r'.edges = r.edges.turn
  size : r.edges.dst.size = r.edges.src.size

theorem readRecord_inStep {r r' : Reading} (h : InStep weighted r r') :
    Option.Rel (Sum.LiftRel (InStep weighted) (InStep weighted))
      (readRecord (fun _ _ => true) weighted r) (readRecord (fun _ _ => true) weighted r') := by
  obtain ⟨fp, dstVal, w, numVertex, edges⟩ := r
  obtain ⟨fp', dstVal', w', numVertex', edges'⟩ := r'
  obtain ⟨⟨rest, hfp, hfp'⟩, hn, he, hsize⟩ := h
  simp only at hfp hfp' hn he hsize
  subst hfp hfp' hn he
  cases rest with
  | nil => exact .some (.inr ⟨⟨[], rfl, rfl⟩, rfl, rfl, hsize⟩)
  | cons e rest =>
    have hmax (n a b : Nat) : (if (if n < b then b else n) < a then a else if n < b then b else n) =
        if (if n < a then a else n) < b then b else if n < a then a else n := by
      split_ifs <;> omega
    have hpush (a b : Nat) : (edges.dst.push b).size = (edges.src.push a).size := by
      rw [Array.size_push, Array.size_push, hsize]
    cases weighted with
    | false => exact .some (.inl ⟨⟨rest, rfl, rfl⟩, hmax _ _ _, rfl, hpush _ _⟩)
    | true => exact .some (.inl ⟨⟨rest, rfl, rfl⟩, hmax _ _ _, rfl, hpush _ _⟩)

theorem recordFile_turn_length (weighted : Bool) (L : List Record) :
    (recordFile weighted (L.map Record.turn)).length = (recordFile weighted L).length := by
  rw [recordFile, recordFile, List.flatMap_map, List.length_flatMap, List.length_flatMap]
  cases weighted <;> rfl

theorem readEdgeList_turn (weighted : Bool) (L : List Record) :
    Option.Rel (fun out out' => out' = (out.1.turn, out.2) ∧ out.1.dst.size = out.1.src.size)
      (readEdgeList weighted (recordFile weighted L))
      (readEdgeList weighted (recordFile weighted (L.map Record.turn))) := by
  rw [readEdgeList, readEdgeList, readRecords, readRecords, span_recordFile, span_recordFile,
    recordFile_turn_length]
  refine rel_bind (rel_loop (fun r r' hr => readRecord_inStep hr) ⟨⟨L, rfl, rfl⟩, rfl, rfl, rfl⟩)
    fun r r' hr => ?_
  rw [hr.edges, hr.numVertex]
  exact rel_bind_same fun numVertex => .some ⟨rfl, hr.size⟩

end Read

section Filter
variable {weighted : Bool}

theorem mark_comm (marks : Array Bool) (x y : Nat) :
    (do store (← store marks x true) y true) = (do store (← store marks y true) x true) := by
  by_cases hx : x < marks.size
  · by_cases hy : y < marks.size
    · have hx' : x < (marks.setIfInBounds y true).size := by simpa using hx
      have hy' : y < (marks.setIfInBounds x true).size := by simpa using hy
      simp only [store_eq hx, store_eq hy, some_bind, store_eq hx', store_eq hy']
      by_cases hxy : x = y
      · rw [hxy]
      · rw [Array.setIfInBounds_comm _ _ hxy]
    · have hy' : ¬ y < (marks.setIfInBounds x true).size := by simpa using hy
      simp only [store_eq hx, store_none hy, some_bind, store_none hy']
      rfl
  · rw [store_none hx]
    by_cases hy : y < marks.size
    · have hx' : ¬ x < (marks.setIfInBounds y true).size := by simpa using hx
      simp only [store_eq hy, some_bind, store_none hx']
      rfl
    · rw [store_none hy]
      rfl

theorem markExisting_turn (E : Edges) (numVertex numEdgesRead : Nat) :
    markExisting E.turn numVertex numEdgesRead = markExisting E numVertex numEdgesRead := by
  rw [markExisting, markExisting]
  congr 1
  funext i marks
  change (E.dst[i]? >>= fun y => store marks y true >>= fun marks => E.src[i]? >>= fun x =>
      store marks x true) =
    E.src[i]? >>= fun x => store marks x true >>= fun marks => E.dst[i]? >>= fun y =>
      store marks y true
  cases E.src[i]? with
  | none =>
    cases E.dst[i]? with
    | none => rfl
    | some y =>
      rw [some_bind]
      cases store marks y true <;> rfl
  | some x =>
    cases E.dst[i]? with
    | none =>
      rw [some_bind]
      cases store marks x true <;> rfl
    | some y => exact mark_comm marks y x

structure Turned (st st' : Edges × Table Key Nat) : Prop where
  edges : st'.1 = st.1.turn
  table : Mirror st.2 st'.2

def renameCell (vertexMap a : Array Nat) (i : Nat) : Option (Array Nat) := do
  store a i (← vertexMap[← a[i]?]?)

def enterWeight (weighted : Bool) (E : Edges) (i : Nat) (table : Table Key Nat) :
    Option (Table Key Nat) :=
  if weighted then do
    some (table.assign (getMapKey (← E.src[i]?) (← E.dst[i]?)) (← E.weights[i]?))
  else some table

theorem renumberEdge_eq (vertexMap : Array Nat) (i : Nat) (E : Edges) (t : Table Key Nat) :
    renumberEdge weighted vertexMap i (E, t) =
      renameCell vertexMap E.src i >>= fun src => renameCell vertexMap E.dst i >>= fun dst =>
        enterWeight weighted { E with src, dst } i t >>= fun t => some ({ E with src, dst }, t) := by
  simp only [renumberEdge, renameCell, enterWeight, bind_assoc]
  cases weighted with
  | false => rfl
  | true => simp only [if_true, bind_assoc]

theorem enterWeight_turn (E : Edges) (i : Nat) {t t' : Table Key Nat} (h : Mirror t t') :
    Option.Rel Mirror (enterWeight weighted E i t) (enterWeight weighted E.turn i t') := by
  cases weighted with
  | false => exact .some h
  | true =>
    exact rel_bind_comm fun s d => rel_bind_same fun w => .some (h.assign s d w)

theorem renumberEdge_turn (vertexMap : Array Nat) (i : Nat) {st st' : Edges × Table Key Nat}
    (h : Turned st st') :
    Option.Rel Turned (renumberEdge weighted vertexMap i st)
      (renumberEdge weighted vertexMap i st') := by
  obtain ⟨E, t⟩ := st
  obtain ⟨_, t'⟩ := st'
  obtain ⟨rfl, ht⟩ := h
  rw [renumberEdge_eq, renumberEdge_eq]
  exact rel_bind_comm fun src dst =>
    rel_bind (enterWeight_turn { E with src, dst } i ht) fun _ _ ht' => .some ⟨rfl, ht'⟩

def Graph.Mirrors (G G' : Graph) : Prop := ∃ W, Mirror G.weights W ∧ G' = G.withWeights W

theorem filter_turn (E : Edges) (numVertex numEdgesRead : Nat) {G : Graph}
    (h : Mirror G.weights G.weights) :
    Option.Rel (fun out out' => out'.1 = out.1.turn ∧ out.2.Mirrors out'.2)
      (filter weighted E G numVertex numEdgesRead)
      (filter weighted E.turn G numVertex numEdgesRead) := by
  rw [filter, filter, markExisting_turn]
  refine rel_bind_same fun marks => rel_bind_same fun s => ?_
  refine rel_bind (rel_forRange (fun i _ _ hst => renumberEdge_turn s.vertexMap i hst) ⟨rfl, h⟩)
    fun st st' hst => ?_
  exact .some ⟨hst.edges, st'.2, hst.table, rfl⟩

theorem csrConvert_turn (E : Edges) {G G' : Graph} (h : G.Mirrors G') :
    Option.Rel Graph.Mirrors (csrConvert true E G) (csrConvert false E.turn G') := by
  obtain ⟨W, hW, rfl⟩ := h
  exact rel_bind_same fun deg => rel_bind_same fun VI => rel_bind_same fun deg =>
    rel_bind_same fun st => .some ⟨W, hW, rfl⟩

theorem readCsr_turn (maintain : Bool) (L : List Record) :
    Option.Rel Graph.Mirrors
      (readCsr ⟨maintain, weighted, true⟩ (recordFile weighted L) Graph.unread)
      (readCsr ⟨maintain, weighted, false⟩ (recordFile weighted (L.map Record.turn))
        Graph.unread) := by
  refine rel_bind (readEdgeList_turn weighted L) fun out out' hout => ?_
  obtain ⟨E, numVertex⟩ := out
  obtain ⟨rfl, hsize⟩ := hout
  simp only at hsize
  by_cases hneg : numVertex < 0
  · simp only [if_pos hneg]
    exact .none
  have hfilter : Option.Rel (fun out out' => out'.1 = out.1.turn ∧ out.2.Mirrors out'.2)
      (filter weighted E { Graph.unread with numEdges := E.src.size } numVertex.toNat E.src.size)
      (filter weighted E.turn { Graph.unread with numEdges := E.dst.size } numVertex.toNat
        E.dst.size) := by
    rw [hsize]
    exact filter_turn E numVertex.toNat E.src.size fun _ _ => rfl
  simp only [if_neg hneg]
  refine rel_bind hfilter fun st st' hst => ?_
  obtain ⟨E, G⟩ := st
  obtain ⟨E', G'⟩ := st'
  obtain ⟨rfl, hG⟩ := hst
  exact csrConvert_turn E hG

end Filter

section Place
variable {G : Graph} {W : Table Key Nat}

/-- The placement never looks at the side tables. -/
def Setting.withWeights (S : Setting) (W : Table Key Nat) : Setting :=
  { S with G1 := S.G1.withWeights W, G2 := S.G2.withWeights W }

theorem place_withWeights (S : Setting) (W : Table Key Nat) (s : Placement) :
    (S.withWeights W).place s = S.place s := rfl

theorem createReverseCSR_withWeights (G : Graph) (W : Table Key Nat) (n : Nat) :
    Option.Rel (fun G2 G2' => G2' = G2.withWeights W ∧ G2.weights = G.weights)
      (createReverseCSR G n) (createReverseCSR (G.withWeights W) n) :=
  rel_bind_same fun _ => rel_bind_same fun _ => rel_bind_same fun _ => .some ⟨rfl, rfl⟩

theorem setup_withWeights (CACHE_SIZE : Nat) (G : Graph) (W : Table Key Nat) :
    Option.Rel (fun p p' => p' = (p.1.withWeights W, p.2) ∧ p.1.G2.weights = G.weights)
      (PH.setup CACHE_SIZE G) (PH.setup CACHE_SIZE (G.withWeights W)) := by
  refine rel_bind_same fun deg => rel_bind (createReverseCSR_withWeights G W G.numVertex)
    fun G2 G2' hG2 => ?_
  obtain ⟨rfl, hw⟩ := hG2
  exact rel_bind_same fun revDeg => rel_bind_same fun c => rel_bind_same fun s =>
    .some ⟨rfl, hw⟩

theorem rebuild_withWeights (rowEnd : Nat → Option Nat) (G1 G2 : Graph) (W : Table Key Nat)
    (nodeId nodeMap : Array Nat) :
    Option.Rel (fun G G' => G' = G.withWeights W ∧ G.weights = G2.weights)
      (rebuild rowEnd G1 G2 nodeId nodeMap)
      (rebuild rowEnd (G1.withWeights W) (G2.withWeights W) nodeId nodeMap) := by
  refine rel_bind_same fun VI => rel_bind_same fun st => rel_bind_same fun prevNodeId => ?_
  refine rel_bind_same fun parentStartId => rel_bind_same fun start => ?_
  exact rel_bind_same fun EI => .some ⟨rfl, rfl⟩

structure LinesTurned (out out' : List Line × Table Key Nat) : Prop where
  lines : out'.1 = out.1.map Line.turn
  table : Mirror out.2 out'.2

theorem writeEdge_turn (maintain weighted : Bool) (mapToNode : Array Nat) (i e : Nat)
    {out out' : List Line × Table Key Nat} (h : LinesTurned out out') :
    Option.Rel LinesTurned (writeEdge ⟨maintain, weighted, true⟩ mapToNode i e out)
      (writeEdge ⟨maintain, weighted, false⟩ mapToNode i e out') := by
  refine rel_bind_comm fun s d => ?_
  obtain ⟨hvalue, htable⟩ := h.table.access s d
  refine .some ⟨?_, htable⟩
  change out'.1 ++ [⟨ofWord i, ofWord e, if weighted then
    some (ofWord (out'.2.access (getMapKey d s)).1) else none⟩] = (out.1 ++ _).map Line.turn
  rw [List.map_append, h.lines, hvalue]
  rfl

theorem writeEdgeList_turn (maintain weighted : Bool) (nodeMap : Array Nat)
    (h : Mirror G.weights W) :
    Option.Rel (fun lines lines' => lines' = lines.map Line.turn)
      (writeEdgeList ⟨maintain, weighted, true⟩ G nodeMap)
      (writeEdgeList ⟨maintain, weighted, false⟩ (G.withWeights W) nodeMap) := by
  have hcells (mapToNode : Array Nat) (i lo hi : Nat) {out out' : List Line × Table Key Nat}
      (hout : LinesTurned out out') : Option.Rel LinesTurned
      (forRange lo hi (fun j out => do
        writeEdge ⟨maintain, weighted, true⟩ mapToNode i (← G.EI[j]?) out) out)
      (forRange lo hi (fun j out => do
        writeEdge ⟨maintain, weighted, false⟩ mapToNode i (← G.EI[j]?) out) out') := by
    apply rel_forRange _ hout
    intro j b b' hb
    exact rel_bind_same fun e => writeEdge_turn maintain weighted mapToNode i e hb
  refine rel_bind_same fun mapToNode => ?_
  have hrows : Option.Rel LinesTurned
      (forRange 0 (usub G.numVertex 1) (fun i out => do
        forRange (← G.VI[i]?) (← G.VI[i + 1]?) (fun j out => do
          writeEdge ⟨maintain, weighted, true⟩ mapToNode i (← G.EI[j]?) out) out) ([], G.weights))
      (forRange 0 (usub G.numVertex 1) (fun i out => do
        forRange (← G.VI[i]?) (← G.VI[i + 1]?) (fun j out => do
          writeEdge ⟨maintain, weighted, false⟩ mapToNode i (← G.EI[j]?) out) out) ([], W)) := by
    apply rel_forRange
    · intro i b b' hb
      exact rel_bind_same fun lo => rel_bind_same fun hi => hcells mapToNode i lo hi hb
    · exact ⟨rfl, h⟩
  refine rel_bind hrows fun out out' hout => rel_bind_same fun lo => ?_
  exact rel_bind (hcells mapToNode _ lo G.numEdges hout) fun _ _ hlast => .some hlast.lines

end Place

namespace PH

/-- With `-i`, pH computes the order it computes without it for the turned records, and writes the
turned lines. -/
theorem main_rel (maintain weighted : Bool) (CACHE_SIZE : Nat) (L : List Record) :
    Option.Rel (fun r r' => r' = (r.1, r.2.map Line.turn))
      (main ⟨maintain, weighted, true⟩ CACHE_SIZE (recordFile weighted L))
      (main ⟨maintain, weighted, false⟩ CACHE_SIZE (recordFile weighted (L.map Record.turn))) := by
  refine rel_bind (readCsr_turn maintain L) fun G G' hG => ?_
  obtain ⟨W, hW, rfl⟩ := hG
  refine rel_bind (setup_withWeights CACHE_SIZE G W) fun p p' hp => ?_
  obtain ⟨S, s⟩ := p
  obtain ⟨rfl, hweights⟩ := hp
  have hplace : Option.Rel Eq (S.place s) ((S.withWeights W).place s) := by
    rw [place_withWeights]
    exact rel_eq (S.place s)
  refine rel_bind hplace fun placed _ hplaced => ?_
  subst hplaced
  refine rel_bind_same fun order => ?_
  refine rel_bind (rebuild_withWeights _ G S.G2 W order.2 order.1) fun G2 G2' hG2 => ?_
  obtain ⟨rfl, hkeep⟩ := hG2
  have hmirror : Mirror G2.weights W := by
    rw [hkeep, hweights]
    exact hW
  refine rel_bind (writeEdgeList_turn maintain weighted order.1 hmirror) fun lines lines' hl => ?_
  rw [hl]
  exact .some rfl

/-- `-i` is reversal: the same order, and line by line the turned output. Both runs end well for
every list that the 32-bit counters can hold. -/
theorem main_turn (maintain weighted : Bool) (CACHE_SIZE : Nat) (L : List Record) :
    main ⟨maintain, weighted, false⟩ CACHE_SIZE (recordFile weighted (L.map Record.turn)) =
        (main ⟨maintain, weighted, true⟩ CACHE_SIZE (recordFile weighted L)).map
          (fun r => (r.1, r.2.map Line.turn)) ∧
      ((∀ r ∈ L, r.src < 2 ^ 31 - 1 ∧ r.dst < 2 ^ 31 - 1) → 2 ≤ (ids L).card → (ids L).card < 2 ^ 31 →
        L.length < 2 ^ 32 → ∃ nodeMap lines,
          main ⟨maintain, weighted, true⟩ CACHE_SIZE (recordFile weighted L) =
            some (nodeMap, lines) ∧
          main ⟨maintain, weighted, false⟩ CACHE_SIZE
              (recordFile weighted (L.map Record.turn)) =
            some (nodeMap, lines.map Line.turn)) := by
  have heq := rel_map_iff.mp (main_rel maintain weighted CACHE_SIZE L)
  refine ⟨heq, fun hL h2 hn hm => ?_⟩
  obtain ⟨G1, nodeMap, nodeId, lines, hrun, _⟩ :=
    main_spec ⟨maintain, weighted, true⟩ CACHE_SIZE hL h2 hn hm
  change main _ _ (recordFile weighted L) = _ at hrun
  rw [hrun] at heq
  exact ⟨nodeMap, lines, hrun, heq⟩

theorem main_turn_path : ∃ nodeMap lines,
    main ⟨true, true, true⟩ 1 (recordFile true [⟨5, 9, 3⟩, ⟨9, 2, 4⟩]) = some (nodeMap, lines) ∧
      main ⟨true, true, false⟩ 1 (recordFile true [⟨9, 5, 3⟩, ⟨2, 9, 4⟩]) =
        some (nodeMap, lines.map Line.turn) :=
  (main_turn true true 1 [⟨5, 9, 3⟩, ⟨9, 2, 4⟩]).2 (by decide) (by decide) (by decide) (by decide)

end PH

end GraphReorder
