import GraphReorder.CsrGen

/-! `read_csr` of the PageRank example, on the files of `csr_gen`. -/
namespace GraphReorder.PageRank
open Library

/-- `struct graph`; `VI` has one more offset than there are vertices. -/
structure Graph where
  numVertex : Int
  numEdges : Int
  VI : Array Int
  EI : Array Int

def Graph.row (G : Graph) (v : Nat) : List Int := slice G.EI G.VI[v]!.toNat G.VI[v + 1]!.toNat

/-- The first two arguments are the words that the fields hold before they are read. There is no
array of negative size, and an empty one has no cell for the last offset. -/
def readCsr (numVertex numEdges : Nat) (file : List UInt8) : Option (Loaded Graph) := do
  let (numVertex, graphFile) ← freadWord numVertex ⟨file, false⟩
  let (numEdges, graphFile) ← freadWord numEdges graphFile
  let size ← intSucc (ofWord numVertex)
  if size ≤ 0 then none
  else
    let (VI, graphFile) := fread numVertex graphFile
    if graphFile.eof then some .rejected
    else if ofWord numEdges < 0 then none
    else
      let (EI, graphFile) := fread numEdges graphFile
      if graphFile.eof then some .rejected
      else some (.accepted ⟨ofWord numVertex, ofWord numEdges,
        (VI.map ofWord ++ [ofWord numEdges]).toArray, (EI.map ofWord).toArray⟩)

section Read
variable {n m numVertex numEdges : Nat} {VI EI : List Nat}

def fileOf (VI EI : List Nat) : List UInt8 :=
  wordBytes VI.length ++ (wordBytes EI.length ++ (wordsBytes VI ++ wordsBytes EI))

theorem readCsr_header (hn : n + 1 < 2 ^ 31) (hm : m < 2 ^ 31) (cells : List UInt8) :
    readCsr numVertex numEdges (wordBytes n ++ (wordBytes m ++ cells)) =
      if (fread n ⟨cells, false⟩).2.eof then some .rejected
      else if (fread m (fread n ⟨cells, false⟩).2).2.eof then some .rejected
      else some (.accepted ⟨n, m, ((fread n ⟨cells, false⟩).1.map ofWord ++ [(m : Int)]).toArray,
        ((fread m (fread n ⟨cells, false⟩).2).1.map ofWord).toArray⟩) := by
  have hn32 : n < 2 ^ 32 := by omega
  have hm32 : m < 2 ^ 32 := by omega
  have hn31 : n < 2 ^ 31 := by omega
  have hsucc : intSucc n = some (n + 1 : Int) := if_pos (by omega)
  have hsize : ¬ (n + 1 : Int) ≤ 0 := by omega
  have hcount : ¬ (m : Int) < 0 := by omega
  simp only [readCsr, freadWord_word hn32, freadWord_word hm32, some_bind, ofWord_of_lt hn31,
    ofWord_of_lt hm, hsucc, if_neg hsize, if_neg hcount]

theorem readCsr_whole (hn : VI.length + 1 < 2 ^ 31) (hm : EI.length < 2 ^ 31)
    (hVI : ∀ w ∈ VI, w < 2 ^ 32) (hEI : ∀ w ∈ EI, w < 2 ^ 32) :
    readCsr numVertex numEdges (fileOf VI EI) =
      some (.accepted ⟨VI.length, EI.length, (VI.map ofWord ++ [(EI.length : Int)]).toArray,
        (EI.map ofWord).toArray⟩) := by
  have hrest := fread_words hEI [] false
  rw [List.append_nil] at hrest
  rw [fileOf, readCsr_header hn hm, fread_words hVI, hrest]
  rfl

theorem readCsr_part (hn : VI.length + 1 < 2 ^ 31) (hm : EI.length < 2 ^ 31) {part : List UInt8}
    (hpart : part <+: fileOf VI EI) (hne : part ≠ fileOf VI EI) (h8 : 8 ≤ part.length) :
    readCsr numVertex numEdges part = some .rejected := by
  have hcells : (wordsBytes VI ++ wordsBytes EI).length = 4 * VI.length + 4 * EI.length := by
    rw [List.length_append, wordsBytes_length, wordsBytes_length]
  have hfile : (fileOf VI EI).length = 8 + (4 * VI.length + 4 * EI.length) := by
    rw [fileOf, List.length_append, List.length_append, hcells, wordBytes_length, wordBytes_length]
    omega
  have hlt : part.length < (fileOf VI EI).length :=
    Nat.lt_of_le_of_ne hpart.length_le fun he => hne (hpart.eq_of_length he)
  obtain ⟨k, hk⟩ := Nat.exists_eq_add_of_le h8
  -- the part holds the header and the first `k` bytes of the cells
  have hsplit : part = wordBytes VI.length ++ (wordBytes EI.length ++
      (wordsBytes VI ++ wordsBytes EI).take k) := by
    have htake := List.prefix_iff_eq_take.mp hpart
    rw [hk, fileOf, ← List.append_assoc, List.take_append, List.take_of_length_le (by simp)] at htake
    rw [htake, List.append_assoc]
    have hheader : 8 + k - (wordBytes VI.length ++ wordBytes EI.length).length = k := by
      rw [List.length_append, wordBytes_length, wordBytes_length]
      omega
    rw [hheader]
  have hlen : ((wordsBytes VI ++ wordsBytes EI).take k).length = k := by
    rw [List.length_take, hcells]
    omega
  rw [hsplit, readCsr_header hn hm]
  by_cases hVI : k < 4 * VI.length
  · rw [if_pos (fread_short (by rw [hlen]; exact hVI))]
  · have hEI : (fread EI.length (fread VI.length
        ⟨(wordsBytes VI ++ wordsBytes EI).take k, false⟩).2).2.eof = true := by
      refine fread_short ?_
      rw [fread, List.length_drop, hlen]
      omega
    rw [if_pos hEI, ite_self]

theorem readCsr_overflow (hm : m < 2 ^ 32) (cells : List UInt8) :
    readCsr numVertex numEdges (wordBytes (2 ^ 31 - 1) ++ (wordBytes m ++ cells)) = none := by
  have hsucc : intSucc (ofWord (2 ^ 31 - 1)) = none := by decide
  have hword : 2 ^ 31 - 1 < 2 ^ 32 := by decide
  simp only [readCsr, freadWord_word hword, freadWord_word hm, some_bind, hsucc]
  rfl

end Read

section RoundTrip
variable {L : List Record}

/-- The graph of an edge list: row `v` has the ends of the edges from `v`, in input order, without
those from `v` to itself. -/
structure IsGraphOf (L : List Record) (G : Graph) : Prop where
  numVertex : G.numVertex = largest L + 1
  sizeVI : G.VI.size = largest L + 2
  rows : ∀ v < largest L + 1, G.row v =
    (L.filter fun r => r.src = v ∧ r.dst ≠ v).map fun r => (r.dst : Int)

/-- The file of `csr_gen` is read as the graph of the edge list, and none of its parts that has the
header is accepted. -/
def RoundTrips (L : List Record) : Prop :=
  ∃ file, CsrGen.main (recordFile false L) = some file ∧ ∀ numVertex numEdges,
    (∃ G, readCsr numVertex numEdges file = some (.accepted G) ∧ IsGraphOf L G) ∧
    ∀ part, part <+: file → part ≠ file → 8 ≤ part.length →
      readCsr numVertex numEdges part = some .rejected

theorem slice_map {α β : Type} [Inhabited α] [Inhabited β] (f : α → β) {a : Array α} {lo hi : Nat}
    (h : hi ≤ a.size) : slice (a.map f) lo hi = (slice a lo hi).map f := by
  rw [slice, slice, List.map_map]
  refine List.map_congr_left fun i hi' => ?_
  have hlt : i < a.size := by
    obtain ⟨hlo, hhi⟩ := List.mem_range'_1.mp hi'
    omega
  simp [hlt]

theorem group_pairs (L : List Record) (v : Nat) : group (CsrGen.pairs L) v =
    (L.filter fun r => r.src = v ∧ r.dst ≠ v).map Record.dst := by
  induction L with
  | nil => rfl
  | cons r L ih =>
    have hcons : CsrGen.pairs (r :: L) =
        (if r.src != r.dst then [(r.src, r.dst)] else []) ++ CsrGen.pairs L := by
      cases h : r.src != r.dst <;> simp [CsrGen.pairs, proper, kept, Record.pair, h]
    rw [hcons, group_append, ih, List.filter_cons]
    by_cases hv : r.src = v
    · by_cases hd : r.dst = v
      · simp [hv, hd, group]
      · have hne : ¬ v = r.dst := fun he => hd he.symm
        simp [hv, hd, hne, group]
    · by_cases hd : r.src = r.dst
      · simp [hd, group]
      · simp [hv, hd, group]

section Whole
variable {G : GraphReorder.Graph}

theorem ofWord_slice {a : Array Nat} {count : Nat} (h : ∀ i < count, a[i]! < 2 ^ 31) :
    (slice a 0 count).map ofWord = (slice a 0 count).map fun w : Nat => (w : Int) := by
  refine List.map_congr_left fun w hw => ?_
  obtain ⟨i, _, hi, rfl⟩ := mem_slice.mp hw
  exact ofWord_of_lt (h i hi)

def closed (VI : Array Nat) (numVertex numEdges : Nat) : Array Int :=
  ((slice VI 0 numVertex).map (fun w : Nat => (w : Int)) ++ [(numEdges : Int)]).toArray

section Closed
variable {VI : Array Nat} {numVertex numEdges : Nat}

theorem closed_size : (closed VI numVertex numEdges).size = numVertex + 1 := by
  rw [closed, List.size_toArray, List.length_append, List.length_map, slice_length]
  rfl

theorem closed_start {v : Nat} (hv : v < numVertex) :
    (closed VI numVertex numEdges)[v]! = VI[v]! := by
  have hlen : v < ((slice VI 0 numVertex).map fun w : Nat => (w : Int)).length := by
    rw [List.length_map, slice_length]
    exact hv
  have hat : ((slice VI 0 numVertex).map (fun w : Nat => (w : Int)) ++ [(numEdges : Int)])[v]? =
      some (VI[v]! : Int) := by
    rw [List.getElem?_append_left hlen, List.getElem?_map, slice, List.getElem?_map,
      List.getElem?_range' (by omega)]
    simp
  rw [closed, List.getElem!_toArray, List.getElem!_eq_getElem?_getD, hat]
  rfl

theorem closed_end : (closed VI numVertex numEdges)[numVertex]! = numEdges := by
  have hlen : ((slice VI 0 numVertex).map fun w : Nat => (w : Int)).length = numVertex := by
    rw [List.length_map, slice_length, Nat.sub_zero]
  rw [closed, List.getElem!_toArray, List.getElem!_eq_getElem?_getD,
    List.getElem?_append_right hlen.le, hlen]
  simp

end Closed

theorem isGraphOf (hG : CsrGen.Generated L G) (hn : G.numVertex < 2 ^ 31)
    (hm : G.numEdges < 2 ^ 31) :
    IsGraphOf L ⟨G.numVertex, G.numEdges,
      ((slice G.VI 0 G.numVertex).map ofWord ++ [(G.numEdges : Int)]).toArray,
      ((slice G.EI 0 G.numEdges).map ofWord).toArray⟩ := by
  have hVI : ((slice G.VI 0 G.numVertex).map ofWord ++ [(G.numEdges : Int)]).toArray =
      closed G.VI G.numVertex G.numEdges := by
    rw [closed, ofWord_slice fun v hv => ?_]
    have hstart := hG.csr.start_le_stop hv
    have hstop := hG.csr.stop_le hv
    omega
  have hEI : (slice G.EI 0 G.numEdges).map ofWord = G.EI.toList.map fun w : Nat => (w : Int) := by
    rw [ofWord_slice fun j hj => ?_, ← hG.sizeEI, slice_all]
    have hentry := hG.csr.entries j hj
    omega
  have hentries : (G.EI.toList.map fun w : Nat => (w : Int)).toArray =
      G.EI.map fun w : Nat => (w : Int) := by
    rw [← Array.toList_map, Array.toArray_toList]
  have hstop (v : Nat) (hv : v < G.numVertex) :
      (closed G.VI G.numVertex G.numEdges)[v + 1]! = G.stop v := by
    rw [GraphReorder.Graph.stop]
    by_cases hl : v + 1 = G.numVertex
    · rw [if_pos hl, hl, closed_end]
    · rw [if_neg hl, closed_start (by omega)]
  rw [hVI, hEI]
  refine ⟨by rw [hG.numVertex]; rfl, ?_, fun v hv => ?_⟩
  · rw [closed_size, hG.numVertex]
  · rw [← hG.numVertex] at hv
    have hrow := hG.rows v hv
    rw [GraphReorder.Graph.row, group_pairs] at hrow
    have hsize : G.stop v ≤ G.EI.size := by
      rw [hG.sizeEI]
      exact hG.csr.stop_le hv
    simp only [Graph.row, closed_start hv, hstop v hv, hentries, Int.toNat_natCast,
      slice_map _ hsize, hrow, List.map_map]
    rfl

theorem writeCsr_eq (hG : CsrGen.Generated L G) : CsrGen.writeCsr G =
    some (fileOf (slice G.VI 0 G.numVertex) (slice G.EI 0 G.numEdges)) := by
  rw [CsrGen.writeCsr, GraphReorder.writeCsr, fwrite_slice hG.sizeVI.ge, some_bind,
    fwrite_slice hG.sizeEI.ge, some_bind, if_pos rfl, fileOf, slice_length, slice_length, Nat.sub_zero,
    Nat.sub_zero, List.append_assoc]

theorem roundTrips_of_lt (hL : ∀ r ∈ L, r.src < 2 ^ 31 - 2 ∧ r.dst < 2 ^ 31 - 2)
    (hm : L.length < 2 ^ 31) : RoundTrips L := by
  obtain ⟨G, hmain, hG⟩ := CsrGen.main_spec (fun r hr => by
    have := hL r hr
    omega) hm
  have hlargest : largest L < 2 ^ 31 - 2 := by
    refine (Finset.sup_lt_iff (by decide)).mpr fun v hv => ?_
    obtain ⟨r, hr, hrv⟩ := mem_ids.mp hv
    have := hL r hr
    change v < _
    omega
  have hn : G.numVertex + 1 < 2 ^ 31 := by
    rw [hG.numVertex]
    omega
  have hedges : G.numEdges < 2 ^ 31 := by
    have hle : (proper L).length ≤ L.length := List.length_filter_le _ _
    rw [hG.numEdges]
    omega
  have hVI : ∀ w ∈ slice G.VI 0 G.numVertex, w < 2 ^ 32 := slice_words fun v hv => by
    have := hG.csr.start_le_stop hv
    have := hG.csr.stop_le hv
    omega
  have hEI : ∀ w ∈ slice G.EI 0 G.numEdges, w < 2 ^ 32 := slice_words fun j hj => by
    have := hG.csr.entries j hj
    omega
  have hlenVI : (slice G.VI 0 G.numVertex).length = G.numVertex := by
    rw [slice_length, Nat.sub_zero]
  have hlenEI : (slice G.EI 0 G.numEdges).length = G.numEdges := by
    rw [slice_length, Nat.sub_zero]
  refine ⟨_, hmain.trans (writeCsr_eq hG), fun numVertex numEdges =>
    ⟨?_, fun part hpart hne h8 => ?_⟩⟩
  · refine ⟨_, readCsr_whole (by rw [hlenVI]; exact hn) (by rw [hlenEI]; exact hedges) hVI hEI, ?_⟩
    rw [hlenVI, hlenEI]
    exact isGraphOf hG (by omega) hedges
  · exact readCsr_part (by rw [hlenVI]; exact hn) (by rw [hlenEI]; exact hedges) hpart hne h8

/-- With the largest possible id the reader overflows. -/
theorem not_roundTrips_of_eq (hL : ∀ r ∈ L, r.src ≤ 2 ^ 31 - 2 ∧ r.dst ≤ 2 ^ 31 - 2)
    (hm : L.length < 2 ^ 31) (hmax : 2 ^ 31 - 2 ∈ ids L) : ¬ RoundTrips L := by
  intro h
  obtain ⟨file, hfile, hback⟩ := h
  obtain ⟨⟨G', hread, _⟩, _⟩ := hback 0 0
  obtain ⟨G, hmain, hG⟩ := CsrGen.main_spec (fun r hr => by
    have := hL r hr
    omega) hm
  have hlargest : largest L = 2 ^ 31 - 2 := by
    refine le_antisymm (Finset.sup_le fun v hv => ?_) (le_largest hmax)
    obtain ⟨r, hr, hrv⟩ := mem_ids.mp hv
    have := hL r hr
    change v ≤ _
    omega
  have hn : G.numVertex = 2 ^ 31 - 1 := by
    rw [hG.numVertex, hlargest]
    rfl
  rw [hmain, writeCsr_eq hG, Option.some.injEq, fileOf, slice_length, Nat.sub_zero, hn] at hfile
  have hedges : (slice G.EI 0 G.numEdges).length < 2 ^ 32 := by
    rw [slice_length, Nat.sub_zero]
    exact hG.csr.edgeWord
  rw [← hfile, readCsr_overflow hedges] at hread
  cases hread

end Whole

/-- The edge from the largest id to 0. -/
theorem largest_id_overflows : ¬ RoundTrips [⟨2 ^ 31 - 2, 0, 0⟩] := by
  refine not_roundTrips_of_eq (fun r hr => ?_) (by decide)
    (mem_ids.mpr ⟨_, List.mem_singleton_self _, .inl rfl⟩)
  obtain rfl := List.mem_singleton.mp hr
  exact ⟨le_rfl, Nat.zero_le _⟩

/-- An edge list survives the two programs unless an id is so large that the reader cannot count its
offsets. -/
theorem roundTrips_iff (hL : ∀ r ∈ L, r.src ≤ 2 ^ 31 - 2 ∧ r.dst ≤ 2 ^ 31 - 2)
    (hm : L.length < 2 ^ 31) :
    RoundTrips L ↔ ∀ r ∈ L, r.src < 2 ^ 31 - 2 ∧ r.dst < 2 ^ 31 - 2 := by
  constructor
  · intro h r hr
    by_contra hno
    have hbound := hL r hr
    have hmax : 2 ^ 31 - 2 ∈ ids L := by
      by_cases hs : r.src = 2 ^ 31 - 2
      · rw [← hs]
        exact src_mem_ids hr
      · have hd : r.dst = 2 ^ 31 - 2 := by omega
        rw [← hd]
        exact dst_mem_ids hr
    exact not_roundTrips_of_eq hL hm hmax h
  · intro h
    exact roundTrips_of_lt h hm

theorem roundTrips_threeEdges : RoundTrips [⟨0, 2, 0⟩, ⟨1, 1, 0⟩, ⟨0, 1, 0⟩] :=
  (roundTrips_iff (by decide) (by decide)).mpr (by decide)

end RoundTrip

end GraphReorder.PageRank
