import GraphReorder.Gorder.Build

/-! `Transform` renumbers the graph by `RCMOrder` and keeps its edges. -/
namespace GraphReorder.Gorder
open Library

section Sides
variable {g : Graph} {n : Nat} {es : List (Nat × Nat)} {graph : Array Vertex}

theorem reversed_length (hg : g.Outgoing) : (reversed g).length = g.outedge.size := by
  have hupto (k : Nat) (hk : k ≤ g.vsize) :
      ((List.range k).flatMap fun u => (g.outs u).map fun v => (v, u)).length =
        g.graph[k]!.outstart := by
    induction k with
    | zero => exact hg.out.first.symm
    | succ k ih =>
      rw [List.range_succ, List.flatMap_append, List.length_append, ih (Nat.le_of_succ_le hk),
        List.flatMap_singleton, List.length_map, hg.out.next k hk]
      exact congrArg _ (hg.out.row_length hk)
  exact (hupto g.vsize le_rfl).trans hg.out.last

theorem Indexed.valid (std : StdSort) (h : Indexed n es graph) (hd : es.Nodup)
    (hin : ∀ e ∈ es, e.1 < n ∧ e.2 < n) :
    ∃ g', Graph.fillIn ⟨n, es.length, graph, ((std.sort edgeLess es).map Prod.snd).toArray, #[]⟩ =
      some g' ∧ g'.vsize = n ∧ g'.edgenum = es.length ∧ g'.Valid ∧
      ∀ u < n, ∀ v, v ∈ g'.outs u ↔ (u, v) ∈ es := by
  obtain ⟨hp, hs⟩ := sort_edges std hd
  generalize std.sort edgeLess es = edges at hp hs
  obtain ⟨hout, houts⟩ := h.outgoing #[] es.length hin hp hs
  have hmem (u v : Nat) (hu : u < n) :
      v ∈ (Graph.mk n es.length graph (edges.map Prod.snd).toArray #[]).outs u ↔ (u, v) ∈ es := by
    rw [houts u hu, mem_group, hp.mem_iff]
  have hrev : (reversed (Graph.mk n es.length graph (edges.map Prod.snd).toArray #[])).Perm
      (es.map Prod.swap) := by
    refine (List.perm_ext_iff_of_nodup (reversed_nodup hout) (hd.map Prod.swap_injective)).mpr ?_
    rintro ⟨v, u⟩
    rw [mem_reversed, List.mem_map]
    constructor
    · rintro ⟨hu, hv⟩
      exact ⟨(u, v), (hmem u v hu).mp hv, rfl⟩
    · rintro ⟨e, he, hswap⟩
      obtain ⟨rfl, rfl⟩ := Prod.mk.inj hswap
      exact ⟨(hin e he).1, (hmem _ _ (hin e he).1).mpr he⟩
  obtain ⟨inedge, hrun, hvalid⟩ := fillIn_spec hout
    (by rw [hrev.length_eq, List.length_map])
    (fun v hv => by rw [h.into v hv, (group_perm hrev v).length_eq])
    fun v hv => by rw [h.instart v hv, below_perm hrev]
  exact ⟨_, hrun, rfl, rfl, hvalid, fun u hu v => hmem u v hu⟩

theorem renamed_spec (hg : g.Outgoing) {order : Array Nat} (ho : order.size = g.vsize) :
    g.renamed order = some ((reversed g).map fun e => (order[e.2]!, order[e.1]!)) := by
  have hpush : (reversed g).foldlM (fun edges e => do
      pure (edges ++ [(← order[e.2]?, ← order[e.1]?)])) [] =
      some ((reversed g).map fun e => (order[e.2]!, order[e.1]!)) := by
    rw [List.map_eq_flatMap, ← List.nil_append (List.flatMap _ _), ← foldlM_append_some]
    refine foldlM_congr_mem (fun e he edges => ?_) _
    obtain ⟨hu, hv⟩ := mem_reversed.mp (show (e.1, e.2) ∈ reversed g from he)
    rw [read_eq (ho.symm ▸ hu), some_bind, read_eq (ho.symm ▸ hg.outs_lt hu hv)]
    rfl
  rw [← hpush, reversed, foldlM_flatMap, Graph.renamed, forRange_zero]
  refine foldlM_congr_mem (fun u hu edges => ?_) _
  rw [hg.forOut_eq (List.mem_range.mp hu), List.foldlM_map]

theorem ofEdges_spec (std : StdSort) (hpos : 0 < n) (hd : es.Nodup)
    (hin : ∀ e ∈ es, e.1 < n ∧ e.2 < n) :
    ∃ g, Graph.ofEdges std n es = some g ∧ g.vsize = n ∧ g.edgenum = es.length ∧
      g.outedge.size = es.length ∧ g.Outgoing ∧ ∀ u < n, ∀ v, v ∈ g.outs u ↔ (u, v) ∈ es := by
  have hnew : Counted n [] (Array.replicate (n + 1) {}) :=
    ⟨by simp, fun u hu => by rw [replicate_get _ u _ (by omega)]; rfl,
      fun u hu => by rw [replicate_get _ u _ (by omega)]; rfl⟩
  obtain ⟨graph, hcount, hcounted⟩ := hnew.all hin
  obtain ⟨graph', hstarts, hindexed⟩ := hcounted.index hpos hin
  obtain ⟨hp, hs⟩ := sort_edges std hd
  obtain ⟨hout, houts⟩ := hindexed.outgoing #[] es.length hin hp hs
  refine ⟨_, ?_, rfl, rfl, ?_, hout, fun u hu v => ?_⟩
  · simp only [Graph.ofEdges, hcount, some_bind, hstarts]
    rfl
  · simpa using hp.length_eq
  · rw [houts u hu, mem_group, hp.mem_iff]

theorem bijOn_of_backwards {found : List Nat} {order : Array Nat}
    (hp : found.Perm (List.range n)) (ho : ∀ i < n, order[found[i]!]! = n - 1 - i) :
    Set.BijOn (order[·]!) (Set.Iio n) (Set.Iio n) := by
  obtain ⟨hsize, hlt, hinj⟩ := injective_of_perm (a := found.toArray) hp
  simp only [List.getElem!_toArray] at hlt hinj
  have hplace (u : Nat) (hu : u < n) : ∃ i < n, found[i]! = u :=
    surjective_of_injective hlt hinj hu
  refine ⟨fun u hu => ?_, fun u hu v hv he => ?_, fun k hk => ?_⟩
  · obtain ⟨i, hi, rfl⟩ := hplace u hu
    simp only [ho i hi, Set.mem_Iio]
    omega
  · obtain ⟨i, hi, rfl⟩ := hplace u hu
    obtain ⟨j, hj, rfl⟩ := hplace v hv
    simp only [ho i hi, ho j hj] at he
    obtain rfl : i = j := by omega
    rfl
  · have hk' : k < n := hk
    refine ⟨found[n - 1 - k]!, hlt _ (by omega), ?_⟩
    simp only [ho (n - 1 - k) (by omega)]
    omega

theorem clear_degrees (hg : g.Outgoing) :
    ∃ graph, forRange 0 g.vsize clearStep g.graph = some graph ∧
      Counted g.vsize [] graph := by
  obtain ⟨graph, hrun, hs, hzero⟩ : ∃ graph, forRange 0 g.vsize clearStep g.graph = some graph ∧
      graph.size = g.vsize + 1 ∧
      ∀ u < g.vsize, graph[u]!.outdegree = 0 ∧ graph[u]!.indegree = 0 := forRange_rule
    (fun i (graph : Array Vertex) => graph.size = g.vsize + 1 ∧
      ∀ u < i, graph[u]!.outdegree = 0 ∧ graph[u]!.indegree = 0) (Nat.zero_le g.vsize)
    ⟨hg.size, fun u hu => absurd hu (Nat.not_lt_zero u)⟩
    fun i graph _ hi (hI : graph.size = g.vsize + 1 ∧
      ∀ u < i, graph[u]!.outdegree = 0 ∧ graph[u]!.indegree = 0) => by
      have hlt : i < graph.size := by omega
      refine ⟨graph.setIfInBounds i { graph[i]! with outdegree := 0, indegree := 0 }, ?_,
        by simpa using hI.1, fun u hu => ?_⟩
      · rw [clearStep, read_eq hlt, some_bind, store_eq hlt]
      · rw [put_get hlt]
        split_ifs with hui
        · exact ⟨rfl, rfl⟩
        · exact hI.2 u (by omega)
  exact ⟨graph, hrun, hs, fun u hu => (hzero u hu).1, fun u hu => (hzero u hu).2⟩

/-- `Transform` on a graph with outgoing edges: both sides are there, under the numbers of
`RCMOrder`. -/
theorem transform_run (std : StdSort) (hg : g.Outgoing) (hpos : 0 < g.vsize)
    (hm : g.edgenum = g.outedge.size) :
    ∃ order g', g.rcmOrder std = some order ∧ order.size = g.vsize ∧
      Set.BijOn (order[·]!) (Set.Iio g.vsize) (Set.Iio g.vsize) ∧ g.transform std = some g' ∧
      g'.vsize = g.vsize ∧ g'.edgenum = g.edgenum ∧ g'.Valid ∧
      ∀ u < g.vsize, ∀ v < g.vsize, order[v]! ∈ g'.outs order[u]! ↔ v ∈ g.outs u := by
  obtain ⟨order, found, hrcm, hperm, _, ho, hnumber⟩ := rcmOrder_run g std hg
  have hbij := bijOn_of_backwards hperm hnumber
  have hlt (u : Nat) (hu : u < g.vsize) : order[u]! < g.vsize := hbij.mapsTo hu
  let es := (reversed g).map fun e => (order[e.2]!, order[e.1]!)
  have hrev (e : Nat × Nat) (he : e ∈ reversed g) : e.2 < g.vsize ∧ e.1 < g.vsize := by
    obtain ⟨hu, hv⟩ := mem_reversed.mp (show (e.1, e.2) ∈ reversed g from he)
    exact ⟨hu, hg.outs_lt hu hv⟩
  have hin (e : Nat × Nat) (he : e ∈ es) : e.1 < g.vsize ∧ e.2 < g.vsize := by
    obtain ⟨e', he', rfl⟩ := List.mem_map.mp he
    exact ⟨hlt _ (hrev e' he').1, hlt _ (hrev e' he').2⟩
  have hd : es.Nodup := by
    refine List.Nodup.map_on (fun e he e' he' hee => ?_) (reversed_nodup hg)
    obtain ⟨h₁, h₂⟩ := Prod.mk.inj hee
    exact Prod.ext (hbij.injOn (hrev e he).2 (hrev e' he').2 h₂)
      (hbij.injOn (hrev e he).1 (hrev e' he').1 h₁)
  have hlen : es.length = g.edgenum := by
    rw [List.length_map, reversed_length hg, hm]
  have hrenamed : g.renamed order = some es := renamed_spec hg ho
  obtain ⟨graph, hclear, hcleared⟩ := clear_degrees hg
  obtain ⟨graph₁, hcount, hcounted⟩ := hcleared.all hin
  obtain ⟨graph₂, hstarts, hindexed⟩ := hcounted.index hpos hin
  obtain ⟨g', hfill, hn, hm', hvalid, hmem⟩ := hindexed.valid std hd hin
  refine ⟨order, g', hrcm, ho, hbij, ?_, hn, hm'.trans hlen, hvalid, fun u hu v hv => ?_⟩
  · simp only [Graph.transform, hrcm, some_bind]
    rw [if_neg (not_not.mpr ho), if_neg (not_not.mpr hg.size), hrenamed, some_bind,
      if_neg (not_not.mpr hlen), hclear, some_bind, hcount, some_bind, ← hlen, hstarts, some_bind]
    exact hfill
  · rw [hmem _ (hlt u hu)]
    constructor
    · intro he
      obtain ⟨e, he, hee⟩ := List.mem_map.mp he
      obtain ⟨h₁, h₂⟩ := Prod.mk.inj hee
      have hu' : e.2 = u := hbij.injOn (hrev e he).1 hu h₁
      have hv' : e.1 = v := hbij.injOn (hrev e he).2 hv h₂
      exact hv' ▸ (mem_reversed.mp (show (e.1, u) ∈ reversed g from hu' ▸ he)).2
    · exact fun hv' => List.mem_map.mpr ⟨(v, u), mem_reversed.mpr ⟨hu, hv'⟩, rfl⟩

end Sides

section Program
variable (g : Graph) (std : StdSort)

/-- `RCMOrder` numbers all vertices backwards in a breadth-first order of the targets: every new
root, and the new targets of each vertex, by rising degree. -/
theorem rcmOrder_breadthFirst (hg : g.Outgoing) :
    ∃ retorder order, g.rcmOrder std = some retorder ∧ retorder.size = g.vsize ∧
      Set.BijOn (retorder[·]!) (Set.Iio g.vsize) (Set.Iio g.vsize) ∧
      (∀ i < g.vsize, retorder[order[i]!]! = g.vsize - 1 - i) ∧
      BreadthFirst (· < g.vsize) g.Edge g.degree (g.vsize, order) := by
  obtain ⟨retorder, order, hrun, hperm, hsteps, ho, hnumber⟩ := rcmOrder_run g std hg
  exact ⟨retorder, order, hrun, ho, bijOn_of_backwards hperm hnumber, hnumber,
    BreadthFirst.start.run (fun _ _ hu hw => hg.outs_lt hu hw) hsteps⟩

theorem rcmOrder_breadthFirst_triangle :
    ∃ retorder order, Graph.triangle.rcmOrder .insertion = some retorder ∧ retorder.size = 3 ∧
      Set.BijOn (retorder[·]!) (Set.Iio 3) (Set.Iio 3) ∧
      (∀ i < 3, retorder[order[i]!]! = 3 - 1 - i) ∧
      BreadthFirst (· < 3) Graph.triangle.Edge Graph.triangle.degree (3, order) :=
  rcmOrder_breadthFirst _ .insertion Graph.triangle_valid.toOutgoing

/-- `Transform` keeps the graph: under the numbers of `RCMOrder` every vertex has the same targets
and the same sources as before, in the two sides that it builds. -/
theorem transform_isomorphic (hg : g.Outgoing) (hpos : 0 < g.vsize)
    (hm : g.edgenum = g.outedge.size) :
    ∃ order g', g.rcmOrder std = some order ∧ g.transform std = some g' ∧ g'.vsize = g.vsize ∧
      g'.edgenum = g.edgenum ∧ g'.Valid ∧
      Set.BijOn (order[·]!) (Set.Iio g.vsize) (Set.Iio g.vsize) ∧
      (∀ u < g.vsize, (g'.outs order[u]!).Perm ((g.outs u).map (order[·]!))) ∧
      ∀ v < g.vsize, (g'.ins order[v]!).Perm
        (((List.range g.vsize).filter fun u => decide (v ∈ g.outs u)).map (order[·]!)) := by
  obtain ⟨order, g', hrcm, _, hbij, hrun, hn, hm', hvalid, hmem⟩ := transform_run std hg hpos hm
  have hto {u : Nat} (hu : u < g.vsize) : order[u]! < g'.vsize := hn.symm ▸ hbij.mapsTo hu
  refine ⟨order, g', hrcm, hrun, hn, hm', hvalid, hbij, fun u hu => ?_, fun v hv => ?_⟩
  · refine (List.perm_ext_iff_of_nodup (hvalid.outs_nodup (hto hu)) (List.Nodup.map_on
      (fun v hv w hw he => hbij.injOn (hg.outs_lt hu hv) (hg.outs_lt hu hw) he)
      (hg.outs_nodup hu))).mpr fun x => ?_
    rw [List.mem_map]
    constructor
    · intro hx
      have hxn : x < g.vsize := hn ▸ hvalid.outs_lt (hto hu) hx
      obtain ⟨v, hv, rfl⟩ := hbij.surjOn hxn
      exact ⟨v, (hmem u hu v hv).mp hx, rfl⟩
    · rintro ⟨v, hv, rfl⟩
      exact (hmem u hu v (hg.outs_lt hu hv)).mpr hv
  · have hsource {u : Nat} : u ∈ (List.range g.vsize).filter (fun u => decide (v ∈ g.outs u)) ↔
        u < g.vsize ∧ v ∈ g.outs u := by
      rw [List.mem_filter, List.mem_range, decide_eq_true_iff]
    refine (List.perm_ext_iff_of_nodup (hvalid.distinct _ (hto hv)) (List.Nodup.map_on
      (fun u hu w hw he => hbij.injOn (hsource.mp hu).1 (hsource.mp hw).1 he)
      (List.nodup_range.filter _))).mpr fun x => ?_
    rw [List.mem_map]
    constructor
    · intro hx
      have hxn : x < g.vsize := hn ▸ hvalid.ins_lt (hto hv) hx
      obtain ⟨u, hu, rfl⟩ := hbij.surjOn hxn
      refine ⟨u, hsource.mpr ⟨hu, (hmem u hu v hv).mp ?_⟩, rfl⟩
      exact (hvalid.transposed _ (hto hu) _ (hto hv)).mp hx
    · rintro ⟨u, hu, rfl⟩
      obtain ⟨hun, hv'⟩ := hsource.mp hu
      exact (hvalid.transposed _ (hto hun) _ (hto hv)).mpr ((hmem u hun v hv).mpr hv')

theorem transform_isomorphic_triangle :
    ∃ order g', Graph.triangle.rcmOrder .insertion = some order ∧
      Graph.triangle.transform .insertion = some g' ∧ g'.vsize = 3 ∧ g'.edgenum = 3 ∧ g'.Valid ∧
      Set.BijOn (order[·]!) (Set.Iio 3) (Set.Iio 3) ∧
      (∀ u < 3, (g'.outs order[u]!).Perm ((Graph.triangle.outs u).map (order[·]!))) ∧
      ∀ v < 3, (g'.ins order[v]!).Perm
        (((List.range 3).filter fun u => decide (v ∈ Graph.triangle.outs u)).map (order[·]!)) :=
  transform_isomorphic _ .insertion Graph.triangle_valid.toOutgoing (by decide) rfl

end Program

end GraphReorder.Gorder
