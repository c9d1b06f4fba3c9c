import GraphReorder.Block
import GraphReorder.Compress
import GraphReorder.BlockFinish
import GraphReorder.ReadCsr

/-! The program `br/block_reordering`. -/
namespace GraphReorder.Br
open Library

/-- `filter`, which keeps no tables here. -/
def filter (E : Edges) (numVertex numEdgesRead : Nat) : Option (Edges × Nat) := do
  let marks ← markExisting E numVertex numEdgesRead
  let s ← numberVertices marks numVertex Table.empty
  let (E, _) ← renumber false s.vertexMap numEdgesRead E Table.empty
  some (E, s.actualVertices)

/-- `read_csr`: the reader drops the edges from a vertex to itself. -/
def readCsr (fp : List Token) : Option Graph := do
  let (E, numVertex) ← readRecords (fun srcVal dstVal => srcVal != dstVal) false fp
  if numVertex < 0 then none
  else
    let numEdges := E.src.size
    let (E, numVertex) ← filter E numVertex.toNat numEdges
    csrConvert false E { Graph.unread with numVertex, numEdges }

def writeRow (G : Graph) (i lo hi : Nat) (out : List Line) : Option (List Line) :=
  forRange lo hi (fun j out => do
    some (out ++ [⟨ofWord i, ofWord (← G.EI[j]?), none⟩])) out

def writeEdgelist (G : Graph) : Option (List Line) := do
  let out ← forRange 0 (usub G.numVertex 1) (fun i out => do
    writeRow G i (← G.VI[i]?) (← G.VI[i + 1]?) out) []
  writeRow G (usub G.numVertex 1) (← G.VI[usub G.numVertex 1]?) G.numEdges out

def main (CLSize CACHE_SIZE : Nat) (fp : List Token) : Option (Array Nat × List Line) := do
  let G1 ← readCsr fp
  let compG ← compress CLSize G1
  let (S, s) ← Block.setup CACHE_SIZE G1.numVertex compG
  let (s, _) ← S.place s
  let G1 ← readCsr fp
  let (newNodeMap, newNodeId) ← expand CLSize G1.numVertex compG.numVertex s.nodeId
  let G2 ← rebuild G1.rowEnd G1 (Block.freshCopy G1) newNodeId newNodeMap
  some (newNodeMap, ← writeEdgelist G2)

/-- The part of `main` from the compressed graph to the check that every block is placed. -/
def placeBlocks (CACHE_SIZE numVertex : Nat) (compG : Graph) : Option Nat := do
  let (S, s) ← Block.setup CACHE_SIZE numVertex compG
  let (s, _) ← S.place s
  firstUnplaced compG.numVertex s.isPlaced

section Read
variable {L : List Record}

theorem filter_eq {N : Nat} (h : ∀ r ∈ L, r.src < N ∧ r.dst < N) :
    filter (edgesOf false L) N L.length =
      some (edgesOf false (L.map (Record.rename (rank L))), (ids L).card) := by
  obtain ⟨marks, hmarks, hs, hm⟩ := markExisting_spec false h
  obtain ⟨s, hnum, ha, hsize, hmap, _⟩ := numberVertices_spec hs hm Table.empty
  have hf (v : Nat) (hv : v ∈ ids L) : s.vertexMap[v]? = some (rank L v) := by
    obtain ⟨r, hr, hrv⟩ := mem_ids.mp hv
    have hlt : v < N := by
      have := h r hr
      omega
    rw [read_eq (by omega), hmap v hlt hv]
    rfl
  simp only [filter, hmarks, hnum, renumber_spec hf, ha, count_ids h, some_bind]

theorem readCsr_spec (hL : ∀ r ∈ L, r.src < 2 ^ 31 - 1 ∧ r.dst < 2 ^ 31 - 1)
    (hpos : 0 < (ids (proper L)).card) (hword : (ids (proper L)).card < 2 ^ 32)
    (hm : L.length < 2 ^ 32) :
    ∃ G, readCsr (recordFile false L) = some G ∧
      Converted ((compact (proper L)).map (Record.pair false))
        { Graph.unread with
          numVertex := (ids (proper L)).card
          numEdges := (proper L).length } G := by
  have hread := readRecords_spec (fun src dst => src != dst) false hL
  have hsub : ∀ r ∈ proper L, r ∈ L := fun r hr => (List.mem_filter.mp hr).1
  have hlen : (proper L).length ≤ L.length := List.length_filter_le _ _
  have hfilter := filter_eq fun r hr => lt_largest_succ (hsub r hr)
  have hsize : (edgesOf false (proper L)).src.size = (proper L).length := by simp [edgesOf]
  obtain ⟨G, hconv, hG⟩ := csrConvert_spec (G := { Graph.unread with
      numVertex := (ids (proper L)).card
      numEdges := (proper L).length }) (L := compact (proper L)) false false hpos hword
    (List.length_map ..).symm ((List.length_map ..).trans_lt (hlen.trans_lt hm))
    fun r hr => compact_lt hr
  refine ⟨G, ?_, hG⟩
  change readRecords _ false _ =
    some (edgesOf false (proper L), ((largest L + 1 : Nat) : Int)) at hread
  have hnonneg : ¬ ((largest L + 1 : Nat) : Int) < 0 := by omega
  simp only [readCsr, hread, some_bind, if_neg hnonneg, Int.toNat_natCast, hsize, hfilter]
  exact hconv

theorem ids_lt_of_readCsr {G : Graph} (hL : ∀ r ∈ L, r.src < 2 ^ 31 ∧ r.dst < 2 ^ 31)
    (h : readCsr (recordFile false L) = some G) :
    ∀ r ∈ L, r.src < 2 ^ 31 - 1 ∧ r.dst < 2 ^ 31 - 1 := by
  obtain ⟨out, hread, _⟩ := Option.bind_eq_some_iff.mp h
  exact ids_lt_of_readRecords hL hread

theorem readCsr_empty (hL : ∀ r ∈ L, r.src < 2 ^ 31 - 1 ∧ r.dst < 2 ^ 31 - 1)
    (hempty : (ids (proper L)).card = 0) :
    readCsr (recordFile false L) = some { Graph.unread with VI := #[0] } := by
  have hread := readRecords_spec (fun src dst => src != dst) false hL
  have hnil : proper L = [] := by
    refine List.eq_nil_iff_forall_not_mem.mpr fun r hr => ?_
    have hmem := src_mem_ids hr
    rw [Finset.card_eq_zero.mp hempty] at hmem
    exact absurd hmem (Finset.notMem_empty _)
  change readRecords _ false _ =
    some (edgesOf false (proper L), ((largest L + 1 : Nat) : Int)) at hread
  rw [hnil] at hread
  have hnonneg : ¬ ((largest L + 1 : Nat) : Int) < 0 := by omega
  have hfilter : filter (edgesOf false []) (largest L + 1) ([] : List Record).length =
      some (edgesOf false [], 0) :=
    filter_eq fun r hr => absurd hr List.not_mem_nil
  have hsize : (edgesOf false []).src.size = ([] : List Record).length := rfl
  simp only [readCsr, hread, some_bind, if_neg hnonneg, Int.toNat_natCast, hsize, hfilter]
  rfl

end Read

theorem writeEdgelist_spec {G : Graph} (h : G.Csr G.numVertex) :
    writeEdgelist G = some (G.edges.map fun e => ⟨ofWord e.1, ofWord e.2, none⟩) := by
  obtain ⟨out, out', hrows, hlast, hout⟩ := Graph.forAllRows_rule h
    (fun done out => out = done.map fun e : Nat × Nat => (⟨ofWord e.1, ofWord e.2, none⟩ : Line))
    (fun v j out => do some (out ++ [⟨ofWord v, ofWord (← G.EI[j]?), none⟩])) (b := []) rfl
    fun done v j rest out _ _ hj hI => by
      refine ⟨_, by rw [read_eq hj]; rfl, ?_⟩
      rw [hI, List.map_append]
      rfl
  have hpos := h.pos
  have hlt : G.numVertex - 1 < G.numVertex := by omega
  simp only [writeEdgelist, writeRow, usub_of_le hpos, hrows, some_bind, h.read_start hlt, hlast,
    hout]

section Main
variable {G1 compG : Graph} {c CACHE_SIZE : Nat} {L : List Record}

theorem finish_spec (h1 : G1.Csr G1.numVertex) (hc : 1 ≤ c) {nodeMap nodeId : Array Nat}
    (ho : Order (blockCount c G1.numVertex) nodeMap nodeId) :
    ∃ newNodeMap newNodeId G2 lines,
      expand c G1.numVertex (blockCount c G1.numVertex) nodeId = some (newNodeMap, newNodeId) ∧
      rebuild G1.rowEnd G1 (Block.freshCopy G1) newNodeId newNodeMap = some G2 ∧
      writeEdgelist G2 = some lines ∧ Order G1.numVertex newNodeMap newNodeId ∧
      lines.Perm (G1.edges.map fun e =>
        ⟨ofWord newNodeMap[e.1]!, ofWord newNodeMap[e.2]!, none⟩) := by
  obtain ⟨newNodeMap, newNodeId, hexpand, hexp⟩ := expand_spec hc h1.pos ho
  have hcopy : (Block.freshCopy G1).numVertex = G1.numVertex := rfl
  obtain ⟨G2, hrebuild, hn, hm, _, hlaid⟩ := rebuild_spec h1 hexp.order hcopy rfl
    (by simp [Block.freshCopy]) (by simp [Block.freshCopy]) fun v hv => h1.rowEnd_eq hv
  have hcsr : G2.Csr G2.numVertex := Graph.Laid.moved_csr h1 hexp.order hn hm hlaid
  have hperm := (rebuilt_edges hexp.order hn hlaid).map fun e : Nat × Nat =>
    (⟨ofWord e.1, ofWord e.2, none⟩ : Line)
  rw [List.map_map] at hperm
  exact ⟨newNodeMap, newNodeId, G2, _, hexpand, hrebuild, writeEdgelist_spec hcsr, hexp.order,
    hperm⟩

structure IsRead (L : List Record) (G1 : Graph) : Prop where
  read : readCsr (recordFile false L) = some G1
  csr : G1.Csr G1.numVertex
  numVertex : G1.numVertex = (ids (proper L)).card
  size : G1.EI.size = (proper L).length
  rows : ∀ v < G1.numVertex, G1.row v = group ((compact (proper L)).map (Record.pair false)) v

theorem isRead (hL : ∀ r ∈ L, r.src < 2 ^ 31 - 1 ∧ r.dst < 2 ^ 31 - 1)
    (hpos : 0 < (ids (proper L)).card) (hword : (ids (proper L)).card < 2 ^ 32)
    (hm : L.length < 2 ^ 32) : ∃ G1, IsRead L G1 := by
  obtain ⟨G1, hread, hG⟩ := readCsr_spec hL hpos hword hm
  have hn : G1.numVertex = (ids (proper L)).card := hG.numVertex
  refine ⟨G1, hread, ?_, hn, hG.sizeEI, fun v hv => hG.rows v (by rw [← hn]; exact hv)⟩
  rw [hn]
  exact hG.csr

theorem IsRead.edges (h : IsRead L G1) :
    G1.edges.Perm ((compact (proper L)).map (Record.pair false)) := by
  refine Graph.edges_perm (fun e he => ?_) h.rows
  obtain ⟨r, hr, rfl⟩ := List.mem_map.mp he
  rw [h.numVertex]
  exact (compact_lt hr).1

/-- Up to the placement, only the first block of the compression and the marking of the last two
blocks can fail. -/
theorem compressed_installed {S : Setting} {s : Placement} (h1 : G1.Csr G1.numVertex) (hc : 1 ≤ c)
    (hcomp : IsCompressed c G1 compG)
    (hs : Block.setup CACHE_SIZE G1.numVertex compG = some (S, s)) :
    Installed CACHE_SIZE G1.numVertex compG S s :=
  (Block.setup_some (hcomp.csr h1 hc).1 (by rw [hcomp.numVertex]; exact blockCount_le h1.pos)
    h1.vertexWord hs).installed

theorem compress_empty (hn : G1.numVertex = 0) (hVI : G1.VI.size ≤ 1) (hc : 1 ≤ c)
    (hcw : c < 2 ^ 32) : compress c G1 = none := by
  have hcount : blockCount c G1.numVertex = (2 ^ 32 - 1) / c + 1 := by
    rw [hn]
    rfl
  have hpos : 0 < (2 ^ 32 - 1) / c := Nat.div_pos (by omega) hc
  have hend : blockEnd c (blockCount c G1.numVertex) G1 0 = none := by
    rw [blockEnd, hcount, usub_of_le (Nat.le_add_left 1 _), Nat.add_sub_cancel, if_neg (by omega)]
    exact Array.getElem?_eq_none (by omega)
  have hblock (st : Compression) :
      compressBlock c (blockCount c G1.numVertex) G1 0 st = none := by
    rw [compressBlock, hend]
    simp
  rw [compress, forRange_step (by omega), hblock]
  rfl

theorem proper_small (hL : ∀ r ∈ L, r.src < 2 ^ 31 ∧ r.dst < 2 ^ 31) :
    ∀ r ∈ proper L, r.src < 2 ^ 31 ∧ r.dst < 2 ^ 31 :=
  fun r hr => hL r (List.mem_filter.mp hr).1

theorem main_some (hL : ∀ r ∈ L, r.src < 2 ^ 31 ∧ r.dst < 2 ^ 31) (hm : L.length < 2 ^ 32)
    (hc : 1 ≤ c) (hcw : c < 2 ^ 32) {newNodeMap : Array Nat} {lines : List Line}
    (h : main c CACHE_SIZE (recordFile false L) = some (newNodeMap, lines)) :
    ∃ newNodeId, Order (ids (proper L)).card newNodeMap newNodeId ∧
      lines.Perm ((compact (proper L)).map fun r =>
        ⟨ofWord newNodeMap[r.src]!, ofWord newNodeMap[r.dst]!, none⟩) := by
  have hcard := ids_card_le (proper_small hL)
  have hlen : (proper L).length ≤ L.length := List.length_filter_le _ _
  have hsmall : ∀ r ∈ L, r.src < 2 ^ 31 - 1 ∧ r.dst < 2 ^ 31 - 1 := by
    obtain ⟨G1, hread, _⟩ := Option.bind_eq_some_iff.mp h
    exact ids_lt_of_readCsr hL hread
  by_cases hpos : 0 < (ids (proper L)).card
  · obtain ⟨G1, hG⟩ := isRead hsmall hpos (by omega) hm
    rw [main, hG.read, some_bind] at h
    obtain ⟨compG, hcompress, h⟩ := Option.bind_eq_some_iff.mp h
    obtain ⟨_, hcomp⟩ := compress_some hG.csr hc (by rw [hG.size]; omega) hcompress
    obtain ⟨⟨S, s⟩, hsetup, h⟩ := Option.bind_eq_some_iff.mp h
    have hinst := compressed_installed hG.csr hc hcomp hsetup
    obtain ⟨⟨s', tr⟩, hplace, h⟩ := Option.bind_eq_some_iff.mp h
    have ho := hinst.place_some hplace
    rw [hcomp.numVertex] at ho
    obtain ⟨newNodeMap', newNodeId, G2, lines', hexpand, hrebuild, hwrite, hord, hperm⟩ :=
      finish_spec hG.csr hc ho
    simp only [some_bind, hcomp.numVertex, hexpand, hrebuild, hwrite] at h
    cases h
    have hedges := hG.edges.map fun e : Nat × Nat =>
      (⟨ofWord newNodeMap[e.1]!, ofWord newNodeMap[e.2]!, none⟩ : Line)
    rw [List.map_map] at hedges
    rw [hG.numVertex] at hord
    exact ⟨newNodeId, hord, hperm.trans hedges⟩
  · rw [main, readCsr_empty hsmall (by omega), some_bind, compress_empty rfl le_rfl hc hcw] at h
    cases h

theorem main_total (hL : ∀ r ∈ L, r.src < 2 ^ 31 - 1 ∧ r.dst < 2 ^ 31 - 1) (hm : L.length < 2 ^ 31)
    (hc : 1 ≤ c) (hn : (ids (proper L)).card < 2 ^ 31) (htwo : c < (ids (proper L)).card)
    (hfirst : ∃ r ∈ proper L, rank (proper L) r.src < c) (CACHE_SIZE : Nat) :
    ∃ newNodeMap lines, main c CACHE_SIZE (recordFile false L) = some (newNodeMap, lines) := by
  have hlen : (proper L).length ≤ L.length := List.length_filter_le _ _
  obtain ⟨G1, hG⟩ := isRead hL (by omega) (by omega) (by omega)
  have hcard := hG.numVertex
  have hblocks : 2 ≤ blockCount c G1.numVertex := by
    have hdiv : 1 ≤ (G1.numVertex - 1) / c := Nat.div_pos (by omega) hc
    rw [blockCount, usub_of_le hG.csr.pos]
    omega
  obtain ⟨compG, hcompress⟩ : ∃ compG, compress c G1 = some compG := by
    refine (compress_iff hG.csr hc (by rw [hG.size]; omega)).mpr
      (SortsFit.of_lt hG.csr hc (by rw [hG.size]; omega) ?_)
    obtain ⟨r, hr, hlt⟩ := hfirst
    have hv : rank (proper L) r.src < G1.numVertex := by omega
    have hmem : rank (proper L) r.dst ∈ G1.row (rank (proper L) r.src) := by
      rw [hG.rows _ hv, mem_group]
      exact List.mem_map.mpr ⟨_, List.mem_map_of_mem hr, rfl⟩
    obtain ⟨j, _, hj, _⟩ := mem_slice.mp hmem
    have hstop : G1.stop (rank (proper L) r.src) ≤ G1.VI[c]! := by
      rw [Graph.stop, if_neg (by omega)]
      exact hG.csr.starts_mono hlt (by omega)
    rw [blockFrom, if_pos (by omega), Nat.one_mul]
    omega
  obtain ⟨_, hcomp⟩ := compress_some hG.csr hc (by rw [hG.size]; omega) hcompress
  obtain ⟨S, s, hsetup⟩ := Block.setup_total CACHE_SIZE (hcomp.csr hG.csr hc).1
    (by rw [hcomp.numVertex]; exact blockCount_le hG.csr.pos) (by omega)
  have hinst := compressed_installed hG.csr hc hcomp hsetup
  obtain ⟨s', tr, hplace⟩ := hinst.place_total (by rw [hcomp.numVertex]; exact hblocks)
  have ho := hinst.place_some hplace
  rw [hcomp.numVertex] at ho
  obtain ⟨newNodeMap, newNodeId, G2, lines, hexpand, hrebuild, hwrite, _, _⟩ :=
    finish_spec hG.csr hc ho
  refine ⟨newNodeMap, lines, ?_⟩
  simp only [main, hG.read, some_bind, hcompress, hsetup, hplace, hcomp.numVertex, hexpand,
    hrebuild, hwrite]

theorem placeBlocks_total {n : Nat} (h : compG.Csr n) (hb : compG.numVertex ≤ n)
    (hword : n ≤ 2 ^ 31) (htwo : 2 ≤ compG.numVertex) (CACHE_SIZE : Nat) :
    ∃ i, placeBlocks CACHE_SIZE n compG = some i := by
  obtain ⟨S, s, hsetup⟩ := Block.setup_total CACHE_SIZE h hb hword
  have hinst := (Block.setup_some h hb (by omega) hsetup).installed
  obtain ⟨s', tr, hplace⟩ := hinst.place_total htwo
  obtain ⟨i, hi, _⟩ := firstUnplaced_spec (hinst.place_size htwo hplace)
  exact ⟨i, by simp only [placeBlocks, hsetup, some_bind, hplace, hi]⟩

/-- With one block, the next to last block is looked for at position `2^32 - 1`. -/
theorem placeBlocks_single {n : Nat} (h : compG.Csr n) (hb : compG.numVertex ≤ n)
    (hword : n ≤ 2 ^ 31) (hone : compG.numVertex = 1) (CACHE_SIZE : Nat) :
    placeBlocks CACHE_SIZE n compG = none := by
  obtain ⟨S, s, hsetup⟩ := Block.setup_total CACHE_SIZE h hb hword
  have hinst := (Block.setup_some h hb (by omega) hsetup).installed
  simp only [placeBlocks, hsetup, some_bind, hinst.place_single hone]
  rfl

/-- The placement of the blocks stays inside its arrays exactly when there are two of them. -/
theorem placeBlocks_iff (hL : ∀ r ∈ L, r.src < 2 ^ 31 ∧ r.dst < 2 ^ 31) (hm : L.length < 2 ^ 32)
    (hedge : ∃ r ∈ L, r.src ≠ r.dst) (hc : 1 ≤ c) (CACHE_SIZE : Nat)
    (hread : readCsr (recordFile false L) = some G1) (hcompress : compress c G1 = some compG) :
    (∃ i, placeBlocks CACHE_SIZE G1.numVertex compG = some i) ↔ c < (ids (proper L)).card := by
  have hcard := ids_card_le (proper_small hL)
  have hlen : (proper L).length ≤ L.length := List.length_filter_le _ _
  obtain ⟨r, hr, hne⟩ := hedge
  have hr' : r ∈ proper L := List.mem_filter.mpr ⟨hr, by simpa using hne⟩
  have hpos : 0 < (ids (proper L)).card := Finset.card_pos.mpr ⟨r.src, src_mem_ids hr'⟩
  obtain ⟨G, hG⟩ := isRead (ids_lt_of_readCsr hL hread) hpos (by omega) hm
  have hsame : G = G1 := Option.some.inj (hG.read.symm.trans hread)
  subst hsame
  obtain ⟨_, hcomp⟩ := compress_some hG.csr hc (by rw [hG.size]; omega) hcompress
  have hcsr := (hcomp.csr hG.csr hc).1
  have hb : compG.numVertex ≤ G.numVertex := by
    rw [hcomp.numVertex]
    exact blockCount_le hG.csr.pos
  have hword : G.numVertex ≤ 2 ^ 31 := by rw [hG.numVertex]; exact hcard
  have hbounds := blockCount_bounds hc hG.csr.pos
  rw [← hcomp.numVertex, hG.numVertex] at hbounds
  by_cases hone : compG.numVertex = 1
  · rw [hone, Nat.one_mul] at hbounds
    rw [placeBlocks_single hcsr hb hword hone]
    constructor
    · intro h
      obtain ⟨i, h⟩ := h
      cases h
    · intro h
      omega
  · have htwo : 2 ≤ compG.numVertex := by
      have := hcsr.pos
      omega
    have hle : c ≤ (compG.numVertex - 1) * c := Nat.le_mul_of_pos_left c (by omega)
    constructor
    · intro _
      omega
    · intro _
      exact placeBlocks_total hcsr hb hword htwo CACHE_SIZE

def oneEdge : Graph where
  numVertex := 2
  numEdges := 1
  VI := #[0, 1, 1]
  EI := #[1]

theorem placeBlocks_oneEdge : ∃ compG i, readCsr (recordFile false [⟨0, 1, 0⟩]) = some oneEdge ∧
    compress 1 oneEdge = some compG ∧ placeBlocks 10 oneEdge.numVertex compG = some i := by
  obtain ⟨compG, hcompress⟩ : ∃ compG, compress 1 oneEdge = some compG := ⟨_, rfl⟩
  obtain ⟨i, hi⟩ := (placeBlocks_iff (L := [⟨0, 1, 0⟩]) (by decide) (by decide) (by decide)
    (by decide) 10 rfl hcompress).mpr (by decide)
  exact ⟨compG, i, rfl, hcompress, hi⟩

def oneBlock : Graph where
  numVertex := 1
  numEdges := 1
  VI := #[0]
  EI := #[1]

theorem oneBlock_out_of_range : readCsr (recordFile false [⟨0, 1, 0⟩]) = some oneEdge ∧
    compress 2 oneEdge = some oneBlock ∧ placeBlocks 10 oneEdge.numVertex oneBlock = none := by
  exact ⟨rfl, rfl, placeBlocks_single (by decide) (by decide) (by decide) rfl 10⟩

end Main

end GraphReorder.Br
