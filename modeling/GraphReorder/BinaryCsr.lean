import GraphReorder.Graph
import GraphReorder.Library.Binary

/-! The binary files: the three functions `write_csr`, and the `read_csr` of `csr_gen`. -/
namespace GraphReorder
open Library

/-- What `read_csr` returns: 1 with a graph, or -1. -/
inductive Loaded (γ : Type) where
  | accepted (G : γ)
  | rejected

def writeCsr (header : Bool) (G : Graph) : Option (List UInt8) := do
  let VI ← fwrite G.VI G.numVertex
  let EI ← fwrite G.EI G.numEdges
  some ((if header then wordBytes G.numVertex ++ wordBytes G.numEdges else []) ++ (VI ++ EI))

def CsrGen.writeCsr (G : Graph) : Option (List UInt8) := GraphReorder.writeCsr true G

def Block.writeCsr (G : Graph) : Option (List UInt8) := GraphReorder.writeCsr true G

/-- The header is commented out. -/
def PH.writeCsr (G : Graph) : Option (List UInt8) := GraphReorder.writeCsr false G

/-- The first two arguments are what the fields hold before they are read. -/
def CsrGen.readCsr (numVertex numEdges : Nat) (file : List UInt8) : Option (Loaded Graph) := do
  let (numVertex, graphFile) ← freadWord numVertex ⟨file, false⟩
  let (numEdges, graphFile) ← freadWord numEdges graphFile
  let (VI, graphFile) := fread numVertex graphFile
  if graphFile.eof then some .rejected
  else
    let (EI, graphFile) := fread numEdges graphFile
    if graphFile.eof then some .rejected
    else some (.accepted { numVertex, numEdges, VI := VI.toArray, EI := EI.toArray })

structure Storable (G : Graph) : Prop where
  pos : 1 ≤ G.numVertex
  room : G.numVertex ≤ G.VI.size
  zero : G.VI[0]! = 0
  mono : ∀ v, v + 1 < G.numVertex → G.VI[v]! ≤ G.VI[v + 1]!
  cells : G.numEdges ≤ G.EI.size
  vertexWord : G.numVertex < 2 ^ 32
  edgeWord : G.numEdges < 2 ^ 32
  offsetWords : ∀ v < G.numVertex, G.VI[v]! < 2 ^ 32
  entryWords : ∀ j < G.numEdges, G.EI[j]! < 2 ^ 32

structure SameCsr (G G' : Graph) : Prop where
  numVertex : G'.numVertex = G.numVertex
  numEdges : G'.numEdges = G.numEdges
  VI : G'.VI.toList = slice G.VI 0 G.numVertex
  EI : G'.EI.toList = slice G.EI 0 G.numEdges

def ReadBack (write : Graph → Option (List UInt8)) (numVertex numEdges : Nat) (G : Graph) : Prop :=
  ∃ file G', write G = some file ∧
    CsrGen.readCsr numVertex numEdges file = some (.accepted G') ∧ SameCsr G G'

theorem fwrite_slice {a : Array Nat} {count : Nat} (h : count ≤ a.size) :
    fwrite a count = some (wordsBytes (slice a 0 count)) := by
  have hsplit := slice_append a (Nat.zero_le count) h
  rw [slice_all] at hsplit
  have hlen : (slice a 0 count).length = count := by rw [slice_length, Nat.sub_zero]
  rw [fwrite_eq h, ← hsplit, List.take_left' hlen]

section Format
variable {G : Graph} {numVertex numEdges : Nat}

theorem Storable.write (h : Storable G) (header : Bool) :
    writeCsr header G = some ((if header then wordBytes G.numVertex ++ wordBytes G.numEdges else []) ++
      (wordsBytes (slice G.VI 0 G.numVertex) ++ wordsBytes (slice G.EI 0 G.numEdges))) := by
  simp only [writeCsr, fwrite_slice h.room, fwrite_slice h.cells, some_bind]

theorem slice_words {a : Array Nat} {count : Nat} (h : ∀ i < count, a[i]! < 2 ^ 32) :
    ∀ w ∈ slice a 0 count, w < 2 ^ 32 := by
  intro w hw
  obtain ⟨i, _, hi, rfl⟩ := mem_slice.mp hw
  exact h i hi

theorem Storable.readBack (h : Storable G) : ReadBack (writeCsr true) numVertex numEdges G := by
  refine ⟨_, ⟨G.numVertex, G.numEdges, (slice G.VI 0 G.numVertex).toArray,
    (slice G.EI 0 G.numEdges).toArray, Table.empty, Table.empty⟩, h.write true, ?_, rfl, rfl, rfl, rfl⟩
  have hVI := fread_words (slice_words h.offsetWords) (wordsBytes (slice G.EI 0 G.numEdges)) false
  have hEI := fread_words (slice_words h.entryWords) [] false
  rw [slice_length, Nat.sub_zero] at hVI hEI
  rw [List.append_nil] at hEI
  rw [if_pos rfl, List.append_assoc]
  simp only [CsrGen.readCsr, freadWord_word h.vertexWord, freadWord_word h.edgeWord, some_bind, hVI,
    hEI, Bool.false_eq_true, if_false]

/-- The first word of a file is taken for the number of vertices. -/
theorem CsrGen.readCsr_numVertex {w : Nat} {rest : List UInt8} {G' : Graph}
    (hw : w < 2 ^ 32)
    (h : CsrGen.readCsr numVertex numEdges (wordBytes w ++ rest) = some (.accepted G')) :
    G'.numVertex = w := by
  rw [CsrGen.readCsr, freadWord_word hw, some_bind] at h
  obtain ⟨⟨m, fp⟩, _, h⟩ := Option.bind_eq_some_iff.mp h
  by_cases hVI : (fread w fp).2.eof = true
  · simp [hVI] at h
  · by_cases hEI : (fread m (fread w fp).2).2.eof = true
    · simp [hVI, hEI] at h
    · simp only [if_neg hVI, if_neg hEI, Option.some.injEq, Loaded.accepted.injEq] at h
      rw [← h]

/-- Without a header this is the first offset, which is 0. -/
theorem Storable.not_readBack (h : Storable G) :
    ¬ ReadBack (writeCsr false) numVertex numEdges G := by
  intro hback
  obtain ⟨file, G', hwrite, hread, hsame⟩ := hback
  have hfirst : slice G.VI 0 G.numVertex = 0 :: slice G.VI 1 G.numVertex := by
    rw [slice_cons G.VI h.pos, h.zero]
  rw [h.write false, if_neg Bool.false_ne_true, List.nil_append, hfirst, wordsBytes_cons,
    List.append_assoc, Option.some.injEq] at hwrite
  rw [← hwrite] at hread
  have hzero := CsrGen.readCsr_numVertex (by decide) hread
  have hn := hsame.numVertex
  have hpos := h.pos
  omega

end Format

def oneEdge : Graph := ⟨2, 1, #[0, 1], #[1], Table.empty, Table.empty⟩

theorem oneEdge_storable : Storable oneEdge where
  pos := by decide
  room := by decide
  zero := rfl
  mono := fun v hv => by
    have hv' : v + 1 < 2 := hv
    obtain rfl : v = 0 := by omega
    decide
  cells := by decide
  vertexWord := by decide
  edgeWord := by decide
  offsetWords := by decide
  entryWords := by decide

theorem oneEdge_not_readBack : ¬ ReadBack PH.writeCsr 0 0 oneEdge :=
  oneEdge_storable.not_readBack

/-- `csr_gen` reads what it writes itself and what `block_reordering` writes, and never reads back
what `pH` writes. -/
theorem readBack_formats {G : Graph} (h : Storable G) (numVertex numEdges : Nat) :
    ReadBack CsrGen.writeCsr numVertex numEdges G ∧ ReadBack Block.writeCsr numVertex numEdges G ∧
      ¬ ReadBack PH.writeCsr numVertex numEdges G :=
  ⟨h.readBack, h.readBack, h.not_readBack⟩

theorem readBack_formats_oneEdge :
    ReadBack CsrGen.writeCsr 0 0 oneEdge ∧ ReadBack Block.writeCsr 0 0 oneEdge ∧
      ¬ ReadBack PH.writeCsr 0 0 oneEdge :=
  readBack_formats oneEdge_storable 0 0

end GraphReorder
