import GraphReorder.PH
import GraphReorder.Weights

/-! The pH program from its input file to its output file. -/
namespace GraphReorder.PH
open Library
variable {G1 : Graph} {CACHE_SIZE : Nat} {S : Setting} {s : Placement} {flags : Flags}
  {L : List Record}

theorem Represents.input {G : Graph} (h : Represents flags L G) : Input G :=
  ⟨h.csr, h.size, h.last⟩

theorem main_spec (flags : Flags) (CACHE_SIZE : Nat)
    (hL : ∀ r ∈ L, r.src < 2 ^ 31 - 1 ∧ r.dst < 2 ^ 31 - 1)
    (h2 : 2 ≤ (ids L).card) (hn : (ids L).card < 2 ^ 31) (hm : L.length < 2 ^ 32) :
    ∃ G1 nodeMap nodeId lines,
      main flags CACHE_SIZE (recordFile flags.weighted L) = some (nodeMap, lines) ∧
      Represents flags L G1 ∧ Order (ids L).card nodeMap nodeId ∧
      (flags.maintain = true → nodeMap[0]! = 0) ∧
      lines.Perm (G1.edges.map (movedLine flags G1 nodeMap)) := by
  obtain ⟨G1, hread, hrep⟩ := readCsr_spec flags hL (by omega) (by omega) hm
  have hG : Input G1 := Represents.input hrep
  have hcard := hrep.numVertex
  obtain ⟨S, s, hs⟩ : ∃ S s, setup CACHE_SIZE G1 = some (S, s) := setup_total hG (by omega)
  have hset := setup_some hG hs
  obtain ⟨s', tr, hplace⟩ := hset.installed.place_total (by omega)
  have ho := hset.installed.place_some hplace
  obtain ⟨nodeMap, nodeId, hkeep, ho', hzero⟩ := maintainZero_spec flags.maintain hG.csr.pos
    hset.installed.reversed.numVertex.ge ho
  obtain ⟨G, lines, hrebuild, hwrite, hperm⟩ := reorder_spec flags hG.csr ho'
    hset.installed.reversed.numVertex hset.installed.reversed.numEdges hset.installed.reversed.weights
    hset.installed.reversed.sizeVI.ge hset.installed.reversed.sizeEI.ge
    fun v hv => hG.rowEnd_eq hv
  refine ⟨G1, nodeMap, nodeId, lines, ?_, hrep, ?_, hzero, hperm⟩
  · simp only [main, hread, hs, hplace, hkeep, hrebuild, hwrite, some_bind]
  · rw [← hcard]
    exact ho'

def tableWeight (L : List Record) (r : Record) : Int :=
  ofWord (((weightTable true (compact L) Table.empty).find? (getMapKey r.src r.dst)).getD default)

theorem lines_records {lines : List Line} {nodeMap nodeId : Array Nat} (hrep : Represents flags L G1)
    (ho : Order (ids L).card nodeMap nodeId) (hn : (ids L).card < 2 ^ 31)
    (hperm : lines.Perm (G1.edges.map (movedLine flags G1 nodeMap))) :
    lines.Perm ((compact L).map fun r => ⟨(nodeMap[r.src]! : Nat), (nodeMap[r.dst]! : Nat),
      if flags.weighted then some (tableWeight L r) else none⟩) := by
  have hkeys : ∀ e ∈ (compact L).map (Record.pair flags.indegree), e.1 < G1.numVertex := by
    intro e he
    obtain ⟨r, hr, rfl⟩ := List.mem_map.mp he
    have hlt := compact_lt hr
    rw [hrep.numVertex]
    cases flags.indegree with
    | true => exact hlt.2
    | false => exact hlt.1
  have hedges := (Graph.edges_perm hkeys hrep.rows).map (movedLine flags G1 nodeMap)
  rw [List.map_map] at hedges
  refine hperm.trans (hedges.trans (List.Perm.of_eq (List.map_congr_left fun r hr => ?_)))
  have hlt := compact_lt hr
  have hs := ho.inverse.maps r.src hlt.1
  have hd := ho.inverse.maps r.dst hlt.2
  have hpair : endpoints flags.indegree (r.pair flags.indegree) = (r.src, r.dst) := by
    cases flags.indegree <;> rfl
  rw [Function.comp_apply, movedLine, hpair]
  simp only [ofWord_of_lt (hs.trans hn), ofWord_of_lt (hd.trans hn), hrep.weights, tableWeight]
  cases flags.weighted <;> rfl

def newId (L : List Record) (nodeMap : Array Nat) (v : Nat) : Nat := nodeMap[rank L v]!

theorem newId_bijOn {nodeMap nodeId : Array Nat} (ho : Order (ids L).card nodeMap nodeId) :
    Set.BijOn (newId L nodeMap) (ids L) (Set.Iio (ids L).card) :=
  ho.inverse.bijOn.comp (rank_bijOn L)

def edgeFile (L : List (Nat × Nat)) : List Token := L.flatMap fun e => [.int e.1, .int e.2]

def occurring (L : List (Nat × Nat)) : Finset Nat := (L.map Prod.fst ++ L.map Prod.snd).toFinset

def unweighted (e : Nat × Nat) : Record := ⟨e.1, e.2, 0⟩

theorem recordFile_unweighted (L : List (Nat × Nat)) :
    recordFile false (L.map unweighted) = edgeFile L := by
  rw [recordFile, List.flatMap_map]
  rfl

theorem ids_unweighted (L : List (Nat × Nat)) : ids (L.map unweighted) = occurring L := by
  simp [ids, occurring, unweighted, Function.comp_def]

/-- pH writes every edge of its input, under one renaming of the vertices that occur. -/
theorem main_preserves_edges (maintain indegree : Bool) (CACHE_SIZE : Nat) (L : List (Nat × Nat))
    (hids : ∀ e ∈ L, e.1 < 2 ^ 31 - 1 ∧ e.2 < 2 ^ 31 - 1) (h2 : 2 ≤ (occurring L).card)
    (hn : (occurring L).card < 2 ^ 31) (hm : L.length < 2 ^ 31) :
    ∃ nodeMap lines, main ⟨maintain, false, indegree⟩ CACHE_SIZE (edgeFile L) =
        some (nodeMap, lines) ∧
      ∃ f : Nat → Nat, Set.BijOn f (occurring L) (Set.Iio (occurring L).card) ∧
        (maintain = true → ∀ v ∈ occurring L, (∀ w ∈ occurring L, v ≤ w) → f v = 0) ∧
        lines.Perm (L.map fun e => ⟨(f e.1 : Nat), (f e.2 : Nat), none⟩) := by
  have hsmall : ∀ r ∈ L.map unweighted, r.src < 2 ^ 31 - 1 ∧ r.dst < 2 ^ 31 - 1 := by
    intro r hr
    obtain ⟨e, he, rfl⟩ := List.mem_map.mp hr
    exact hids e he
  have hlen : (L.map unweighted).length < 2 ^ 32 := by
    rw [List.length_map]
    omega
  rw [← ids_unweighted] at h2 hn ⊢
  obtain ⟨G1, nodeMap, nodeId, lines, hrun, hrep, ho, hzero, hperm⟩ :=
    main_spec ⟨maintain, false, indegree⟩ CACHE_SIZE hsmall h2 hn hlen
  rw [recordFile_unweighted] at hrun
  refine ⟨nodeMap, lines, hrun, newId (L.map unweighted) nodeMap, newId_bijOn ho,
    fun hmaintain v hv hle => ?_, ?_⟩
  · rw [newId, rank_least hle]
    exact hzero hmaintain
  · have hlines := lines_records hrep ho hn hperm
    rw [compact, List.map_map, List.map_map] at hlines
    exact hlines

theorem main_preserves_edges_path : ∃ nodeMap lines,
    main ⟨true, false, true⟩ 1 (edgeFile [(5, 9), (9, 9), (9, 2)]) = some (nodeMap, lines) ∧
      ∃ f : Nat → Nat, lines.Perm ([(5, 9), (9, 9), (9, 2)].map fun e =>
        ⟨(f e.1 : Nat), (f e.2 : Nat), none⟩) := by
  obtain ⟨nodeMap, lines, hrun, f, _, _, hperm⟩ := main_preserves_edges true true 1
    [(5, 9), (9, 9), (9, 2)] (by decide) (by decide) (by decide) (by decide)
  exact ⟨nodeMap, lines, hrun, f, hperm⟩

theorem tableWeight_spec (hL : ∀ r ∈ L, r.Fits) {r : Record} (hr : r ∈ L) :
    ∃ r' ∈ L, r'.src = r.src ∧ r'.dst = r.dst ∧
      tableWeight L (r.rename (rank L)) = r'.weight := by
  have hmem : r.rename (rank L) ∈ compact L := List.mem_map_of_mem hr
  obtain ⟨e, he, hs, hd, hw⟩ := find?_weightTable Table.empty hmem
  obtain ⟨r', hr', rfl⟩ := List.mem_map.mp he
  refine ⟨r', hr', rank_injective (src_mem_ids hr') (src_mem_ids hr) hs,
    rank_injective (dst_mem_ids hr') (dst_mem_ids hr) hd, ?_⟩
  rw [tableWeight, hw]
  exact ofWord_toWord (hL r' hr').low (hL r' hr').high

/-- The weighted output under a renaming `f`: one line for each record, with its own weight. -/
def weightedLines (f : Nat → Nat) (L : List Record) : List Line :=
  L.map fun r => ⟨(f r.src : Nat), (f r.dst : Nat), some r.weight⟩

def CarriesWeights (maintain indegree : Bool) (CACHE_SIZE : Nat) (L : List Record) : Prop :=
  ∃ nodeMap lines, main ⟨maintain, true, indegree⟩ CACHE_SIZE (recordFile true L) =
      some (nodeMap, lines) ∧
    ∃ f : Nat → Nat, Set.BijOn f (ids L) (Set.Iio (ids L).card) ∧
      lines.Perm (weightedLines f L)

/-- Two edges from 0 to 1, of weights 5 and 7, are both written with weight 7. -/
theorem carriesWeights_parallel : ¬ CarriesWeights false false 10 [⟨0, 1, 5⟩, ⟨0, 1, 7⟩] := by
  intro h
  obtain ⟨nodeMap, lines, hrun, f, _, hperm⟩ := h
  have hrun' : (main ⟨false, true, false⟩ 10 (recordFile true [⟨0, 1, 5⟩, ⟨0, 1, 7⟩])).map
      (fun r => r.2.map Line.w) = some [some 7, some 7] := by decide +kernel
  rw [hrun] at hrun'
  have hweights : lines.map Line.w = [some 7, some 7] := Option.some.inj hrun'
  have hmem := (hperm.map Line.w).mem_iff (a := some 5)
  rw [hweights] at hmem
  exact absurd (hmem.mpr (by simp [weightedLines])) (by decide)

theorem ids_lt_of_main (flags : Flags) (hL : ∀ r ∈ L, r.src < 2 ^ 31 ∧ r.dst < 2 ^ 31)
    {out : Array Nat × List Line}
    (h : main flags CACHE_SIZE (recordFile flags.weighted L) = some out) :
    ∀ r ∈ L, r.src < 2 ^ 31 - 1 ∧ r.dst < 2 ^ 31 - 1 := by
  obtain ⟨G1, hread, _⟩ := Option.bind_eq_some_iff.mp h
  obtain ⟨edges, hedges, _⟩ := Option.bind_eq_some_iff.mp hread
  exact ids_lt_of_readRecords hL hedges

/-- pH carries the weight of every record exactly when the ids can be counted and no two records
disagree on the weight of an edge. -/
theorem carriesWeights_iff (maintain indegree : Bool) (CACHE_SIZE : Nat) (L : List Record)
    (hL : ∀ r ∈ L, r.Fits) (h2 : 2 ≤ (ids L).card) (hn : (ids L).card < 2 ^ 31)
    (hm : L.length < 2 ^ 31) :
    CarriesWeights maintain indegree CACHE_SIZE L ↔
      (∀ r ∈ L, r.src < 2 ^ 31 - 1 ∧ r.dst < 2 ^ 31 - 1) ∧
        ∀ r ∈ L, ∀ r' ∈ L, r.src = r'.src → r.dst = r'.dst → r.weight = r'.weight := by
  have hcount (h : CarriesWeights maintain indegree CACHE_SIZE L) :
      ∀ r ∈ L, r.src < 2 ^ 31 - 1 ∧ r.dst < 2 ^ 31 - 1 := by
    obtain ⟨nodeMap, lines, hrun, _⟩ := h
    exact ids_lt_of_main ⟨maintain, true, indegree⟩
      (fun r hr => ⟨(hL r hr).src, (hL r hr).dst⟩) hrun
  refine (and_iff_right_of_imp hcount).symm.trans (and_congr_right fun hsmall => ?_)
  obtain ⟨G1, nodeMap, nodeId, lines, hrun, hrep, ho, _, hperm⟩ :=
    main_spec ⟨maintain, true, indegree⟩ CACHE_SIZE hsmall h2 hn (by omega)
  have hlines := lines_records hrep ho hn hperm
  rw [compact, List.map_map] at hlines
  have hbij := newId_bijOn ho
  constructor
  · intro h r hr r' hr' hs hd
    obtain ⟨nodeMap', lines', hrun', f, hf, hperm'⟩ := h
    change main _ _ (recordFile true L) = _ at hrun
    rw [hrun] at hrun'
    cases hrun'
    -- the line of a record, found among the lines of the table
    have hline (e : Record) (he : e ∈ L) : ∃ x ∈ L, newId L nodeMap x.src = f e.src ∧
        newId L nodeMap x.dst = f e.dst ∧ tableWeight L (x.rename (rank L)) = e.weight := by
      have hmem := (hperm'.symm.trans hlines).mem_iff.mp (List.mem_map_of_mem he)
      obtain ⟨x, hx, hxe⟩ := List.mem_map.mp hmem
      simp only [Function.comp_apply, if_true, Line.mk.injEq, Option.some.injEq, Nat.cast_inj] at hxe
      exact ⟨x, hx, hxe⟩
    obtain ⟨x, hx, hxs, hxd, hxw⟩ := hline r hr
    obtain ⟨y, hy, hys, hyd, hyw⟩ := hline r' hr'
    have hsrc : x.src = y.src := hbij.injOn (src_mem_ids hx) (src_mem_ids hy)
      (by rw [hxs, hys, hs])
    have hdst : x.dst = y.dst := hbij.injOn (dst_mem_ids hx) (dst_mem_ids hy)
      (by rw [hxd, hyd, hd])
    rw [← hxw, ← hyw]
    simp [tableWeight, Record.rename, hsrc, hdst]
  · intro h
    refine ⟨nodeMap, lines, hrun, newId L nodeMap, hbij, hlines.trans (List.Perm.of_eq ?_)⟩
    refine List.map_congr_left fun r hr => ?_
    obtain ⟨r', hr', hs, hd, hw⟩ := tableWeight_spec hL hr
    rw [Function.comp_apply, hw, ← h r hr r' hr' hs.symm hd.symm]
    rfl

theorem carriesWeights_iff_agree : CarriesWeights true true 1 [⟨4, 7, 5⟩, ⟨7, 4, 8⟩] :=
  (carriesWeights_iff true true 1 [⟨4, 7, 5⟩, ⟨7, 4, 8⟩]
    (fun r hr => by
      cases List.mem_cons.mp hr with
      | inl h => exact h ▸ ⟨by decide, by decide, by decide, by decide⟩
      | inr h => exact List.mem_singleton.mp h ▸ ⟨by decide, by decide, by decide, by decide⟩)
    (by decide) (by decide) (by decide)).mpr ⟨by decide, by decide⟩

end GraphReorder.PH
