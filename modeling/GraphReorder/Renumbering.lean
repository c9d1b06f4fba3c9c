import GraphReorder.Weights

/-! What `filter` and `csr_convert` build from a list of records, whole. -/
namespace GraphReorder
open Library

theorem count_of_strictMonoOn {s : Finset Nat} {n : Nat} {g : Nat → Nat} (hg : StrictMonoOn g s)
    (hb : Set.BijOn g s (Set.Iio n)) {v : Nat} (hv : v ∈ s) : g v = Nat.count (· ∈ s) v := by
  have himage : ((Finset.range v).filter (· ∈ s)).image g = Finset.range (g v) := by
    ext k
    simp only [Finset.mem_image, Finset.mem_filter, Finset.mem_range]
    constructor
    · intro h
      obtain ⟨w, ⟨hwv, hw⟩, rfl⟩ := h
      exact hg hw hv hwv
    · intro hk
      have hkn : k ∈ Set.Iio n := hk.trans (hb.mapsTo hv)
      obtain ⟨w, hw, rfl⟩ := hb.surjOn hkn
      exact ⟨w, ⟨(hg.lt_iff_lt hw hv).mp hk, hw⟩, rfl⟩
  have hinj : Set.InjOn g ((Finset.range v).filter (· ∈ s)) := fun a ha b hb' h =>
    hb.injOn (Finset.mem_filter.mp ha).2 (Finset.mem_filter.mp hb').2 h
  have hcard := congrArg Finset.card himage
  rw [Finset.card_image_of_injOn hinj, Finset.card_range] at hcard
  rw [Nat.count_eq_card_filter_range, hcard]

section Rank
variable {L : List Record}

theorem rank_strictMonoOn (L : List Record) : StrictMonoOn (rank L) (ids L) :=
  fun _ hv _ _ hvw => Nat.count_strict_mono hv hvw

/-- The renumbering is the only strictly increasing one. -/
theorem rank_unique {g : Nat → Nat} (hg : StrictMonoOn g (ids L))
    (hb : Set.BijOn g (ids L) (Set.Iio (ids L).card)) : Set.EqOn g (rank L) (ids L) :=
  fun _ hv => count_of_strictMonoOn hg hb hv

/-- A table with the renumbered ids as its only keys inverts the renumbering. -/
theorem find?_iff_rank {table : Table Nat Nat}
    (hnumbered : ∀ v ∈ ids L, table.find? (rank L v) = some v)
    (hrest : ∀ k, (ids L).card ≤ k → table.find? k = none) (k v : Nat) :
    table.find? k = some v ↔ v ∈ ids L ∧ rank L v = k := by
  constructor
  · intro h
    by_cases hk : k < (ids L).card
    · obtain ⟨w, hw, rfl⟩ := (rank_bijOn L).surjOn hk
      rw [hnumbered w hw] at h
      cases h
      exact ⟨hw, rfl⟩
    · rw [hrest k (Nat.le_of_not_lt hk)] at h
      cases h
  · intro h
    obtain ⟨hv, rfl⟩ := h
    exact hnumbered v hv

end Rank

/-- What the records have become: `f` renumbers the ids that occur, the vectors of `E` hold the
renumbered endpoints, and `G` has a row for each of them. -/
structure BuiltCsr (indegree : Bool) (L : List Record) (f : Nat → Nat) (E : Edges) (G : Graph) :
    Prop where
  src : E.src.toList = L.map fun r => f r.src
  dst : E.dst.toList = L.map fun r => f r.dst
  increasing : StrictMonoOn f (ids L)
  bijection : Set.BijOn f (ids L) (Set.Iio G.numVertex)
  unique : ∀ g, StrictMonoOn g (ids L) → Set.BijOn g (ids L) (Set.Iio G.numVertex) →
    Set.EqOn g f (ids L)
  inverse : ∀ k v, G.filtered_to_original.find? k = some v ↔ v ∈ ids L ∧ f v = k
  numEdges : G.numEdges = L.length
  sizeVI : G.VI.size = G.numVertex + 1
  sizeEI : G.EI.size = G.numEdges
  zero : G.VI[0]! = 0
  mono : ∀ v < G.numVertex, G.VI[v]! ≤ G.VI[v + 1]!
  last : G.VI[G.numVertex]! = G.numEdges
  entries : ∀ j < G.numEdges, G.EI[j]! < G.numVertex
  rows : ∀ i < G.numVertex, slice G.EI G.VI[i]! G.VI[i + 1]! =
    (L.filter fun r => decide ((if indegree then f r.dst else f r.src) = i)).map fun r =>
      if indegree then f r.src else f r.dst

section Build
variable {weighted indegree : Bool} {L : List Record} {G G' : Graph}

theorem group_map (h : Record → Nat × Nat) (L : List Record) (k : Nat) :
    group (L.map h) k = (L.filter fun r => decide ((h r).1 = k)).map fun r => (h r).2 := by
  induction L with
  | nil => rfl
  | cons r L ih =>
    have hcons : r :: L = [r] ++ L := rfl
    rw [hcons, List.map_append, group_append, ih, List.filter_append, List.map_append,
      List.map_singleton, group_singleton]
    by_cases hk : (h r).1 = k <;> simp [hk]

theorem pair_fst (indegree : Bool) (f : Nat → Nat) (r : Record) :
    ((r.rename f).pair indegree).1 = if indegree then f r.dst else f r.src := by
  cases indegree <;> rfl

theorem pair_snd (indegree : Bool) (f : Nat → Nat) (r : Record) :
    ((r.rename f).pair indegree).2 = if indegree then f r.src else f r.dst := by
  cases indegree <;> rfl

theorem csrConvert_empty (hn : G.numVertex = 0) (hm : G.numEdges = 0) :
    csrConvert indegree (edgesOf weighted []) G = some { G with VI := #[0], EI := #[] } := by
  obtain ⟨n, m, VI, EI, original, weights⟩ := G
  simp only at hn hm
  subst hn hm
  rfl

theorem Converted.rows_between {es : List (Nat × Nat)} (h : Converted es G G') {v : Nat}
    (hv : v < G.numVertex) :
    G'.VI[v]! ≤ G'.VI[v + 1]! ∧ slice G'.EI G'.VI[v]! G'.VI[v + 1]! = group es v := by
  have hv' : v < G'.numVertex := by rw [h.numVertex]; exact hv
  have hstop : G'.stop v = G'.VI[v + 1]! := by
    unfold Graph.stop
    split_ifs with hl
    · rw [hl, h.numVertex, h.last, h.numEdges]
    · rfl
  rw [← hstop, ← h.rows v hv]
  exact ⟨h.csr.start_le_stop hv', rfl⟩

theorem builtCsr_of_rows (hn : G'.numVertex = (ids L).card) (hm : G'.numEdges = L.length)
    (hnumbered : ∀ v ∈ ids L, G'.filtered_to_original.find? (rank L v) = some v)
    (hrest : ∀ k, (ids L).card ≤ k → G'.filtered_to_original.find? k = none)
    (hVI : G'.VI.size = G'.numVertex + 1) (hEI : G'.EI.size = G'.numEdges)
    (hzero : G'.VI[0]! = 0) (hlast : G'.VI[G'.numVertex]! = G'.numEdges)
    (hentries : ∀ j < G'.numEdges, G'.EI[j]! < G'.numVertex)
    (hrows : ∀ v < G'.numVertex, G'.VI[v]! ≤ G'.VI[v + 1]! ∧
      slice G'.EI G'.VI[v]! G'.VI[v + 1]! = group ((compact L).map (Record.pair indegree)) v) :
    BuiltCsr indegree L (rank L) (edgesOf weighted (compact L)) G' where
  src := by simp [edgesOf, compact, Record.rename, Function.comp_def]
  dst := by simp [edgesOf, compact, Record.rename, Function.comp_def]
  increasing := rank_strictMonoOn L
  bijection := by
    rw [hn]
    exact rank_bijOn L
  unique g hg hb := by
    rw [hn] at hb
    exact rank_unique hg hb
  inverse := find?_iff_rank hnumbered hrest
  numEdges := hm
  sizeVI := hVI
  sizeEI := hEI
  zero := hzero
  mono v hv := (hrows v hv).1
  last := hlast
  entries := hentries
  rows v hv := by
    rw [(hrows v hv).2, compact, List.map_map, group_map]
    simp only [Function.comp_apply, pair_fst, pair_snd]

theorem filter_csrConvert (weighted indegree : Bool) {numVertex : Nat}
    (hN : ∀ r ∈ L, r.src < numVertex ∧ r.dst < numVertex) (hword : (ids L).card < 2 ^ 32)
    (hm : L.length < 2 ^ 32) :
    ∃ E G G', filter weighted (edgesOf weighted L) { Graph.unread with numEdges := L.length }
        numVertex L.length = some (E, G) ∧
      csrConvert indegree E G = some G' ∧ BuiltCsr indegree L (rank L) E G' := by
  obtain ⟨G, hfilter, hG, hnumbered, hrest⟩ := filter_spec weighted hN
    { Graph.unread with numEdges := L.length }
  have hn : G.numVertex = (ids L).card := by rw [hG]
  have he : G.numEdges = L.length := by rw [hG]
  refine ⟨edgesOf weighted (compact L), G, ?_⟩
  by_cases hpos : 0 < (ids L).card
  · have hpairs (r : Record) (hr : r ∈ compact L) : r.src < G.numVertex ∧ r.dst < G.numVertex := by
      rw [hn]
      exact compact_lt hr
    have hlen : (compact L).length = L.length := List.length_map ..
    obtain ⟨G', hconv, hc⟩ := csrConvert_spec weighted indegree (by omega) (by omega)
      (he.trans hlen.symm) (by omega) hpairs
    refine ⟨G', hfilter, hconv, builtCsr_of_rows ?_ ?_ ?_ ?_ ?_ ?_ ?_ ?_ ?_ fun v hv => ?_⟩
    · rw [hc.numVertex, hn]
    · rw [hc.numEdges, he]
    · rw [hc.filtered_to_original]
      exact hnumbered
    · rw [hc.filtered_to_original]
      exact hrest
    · rw [hc.size, hc.numVertex]
    · rw [hc.sizeEI, hc.numEdges]
    · exact hc.csr.zero
    · rw [hc.numVertex, hc.last, hc.numEdges]
    · rw [hc.numVertex]
      exact hc.csr.entries
    · rw [hc.numVertex] at hv
      exact hc.rows_between hv
  · have hnil : L = [] := by
      refine List.eq_nil_iff_forall_not_mem.mpr fun r hr => ?_
      exact hpos (Finset.card_pos.mpr ⟨r.src, src_mem_ids hr⟩)
    have hn0 : G.numVertex = 0 := by omega
    have hm0 : G.numEdges = 0 := by rw [he, hnil]; rfl
    subst hnil
    refine ⟨{ G with VI := #[0], EI := #[] }, hfilter, csrConvert_empty hn0 hm0,
      builtCsr_of_rows hn he hnumbered hrest ?_ hm0.symm rfl ?_ (fun j (hj : j < G.numEdges) => ?_)
        fun v (hv : v < G.numVertex) => ?_⟩
    · rw [hn0]
      rfl
    · rw [hn0, hm0]
      rfl
    · omega
    · omega

end Build

/-- `filter` and `csr_convert` number the ids that occur from 0 on, in increasing order, and list the
edges row by row in input order, for every list of edges; `read_csr` does both, where it can count the
ids. -/
theorem readCsr_built (flags : Flags) (L : List Record)
    (hL : ∀ r ∈ L, r.src < 2 ^ 31 ∧ r.dst < 2 ^ 31) (hm : L.length < 2 ^ 32) :
    ∃ f E G G',
      filter flags.weighted (edgesOf flags.weighted L) { Graph.unread with numEdges := L.length }
        (largest L + 1) L.length = some (E, G) ∧
      csrConvert flags.indegree E G = some G' ∧
      BuiltCsr flags.indegree L f E G' ∧
      ((∀ r ∈ L, r.src < 2 ^ 31 - 1 ∧ r.dst < 2 ^ 31 - 1) →
        readEdgeList flags.weighted (recordFile flags.weighted L) =
          some (edgesOf flags.weighted L, ((largest L + 1 : Nat) : Int)) ∧
        readCsr flags (recordFile flags.weighted L) Graph.unread = some G') := by
  have hcard := ids_card_le hL
  obtain ⟨E, G, G', hfilter, hconv, hbuilt⟩ := filter_csrConvert flags.weighted flags.indegree
    (fun r hr => lt_largest_succ hr) (by omega) hm
  refine ⟨rank L, E, G, G', hfilter, hconv, hbuilt, fun hsmall =>
    ⟨?_, readCsr_eq hsmall hfilter hconv⟩⟩
  have hkept : kept (fun _ _ => true) L = L := by simp [kept]
  rw [readEdgeList, readRecords_spec _ _ hsmall, hkept]

theorem readCsr_built_gap : ∃ G, readCsr ⟨false, false, true⟩
    (recordFile false [⟨7, 3, 0⟩, ⟨3, 3, 0⟩]) Graph.unread = some G ∧ G.VI[G.numVertex]! = 2 := by
  obtain ⟨f, E, G, G', _, _, hbuilt, hread⟩ := readCsr_built ⟨false, false, true⟩
    [⟨7, 3, 0⟩, ⟨3, 3, 0⟩] (by decide) (by decide)
  exact ⟨G', (hread (by decide)).2, by rw [hbuilt.last, hbuilt.numEdges]; rfl⟩

end GraphReorder
