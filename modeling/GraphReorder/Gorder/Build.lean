import GraphReorder.Gorder.Rcm
import GraphReorder.Library.Scatter

/-! How `readGraph` and `Transform` make the arrays of a graph out of a list of its edges. -/
namespace GraphReorder.Gorder
open Library

def countEdge (e : Nat × Nat) (graph : Array Vertex) : Option (Array Vertex) := do
  let v ← graph[e.1]?
  let graph ← store graph e.1 { v with outdegree := v.outdegree + 1 }
  let v ← graph[e.2]?
  store graph e.2 { v with indegree := v.indegree + 1 }

def clearStep (i : Nat) (graph : Array Vertex) : Option (Array Vertex) := do
  store graph i { (← graph[i]?) with outdegree := 0, indegree := 0 }

def startStep (i : Nat) (graph : Array Vertex) : Option (Array Vertex) := do
  let before ← graph[i - 1]?
  let v ← graph[i]?
  store graph i { v with
    outstart := before.outstart + before.outdegree
    instart := before.instart + before.indegree }

def setStarts (vsize edgenum : Nat) (graph : Array Vertex) : Option (Array Vertex) := do
  let v ← graph[0]?
  let graph ← store graph 0 { v with outstart := 0, instart := 0 }
  let graph ← forRange 1 vsize startStep graph
  let v ← graph[vsize]?
  store graph vsize { v with outstart := edgenum, instart := edgenum }

/-- The comparison of both sorts. An edge comes before itself, which `std::sort` does not allow, but
between different edges it is the strict order: no harm is done where no edge is there twice. -/
def edgeLess (a b : Nat × Nat) : Bool :=
  if a.1 < b.1 then true else if b.1 < a.1 then false else decide (a.2 ≤ b.2)

def placeIn (u v : Nat) (st : Array Nat × Array Nat) : Option (Array Nat × Array Nat) := do
  let pos ← st.2[v]?
  let inedge ← store st.1 pos u
  pure (inedge, ← store st.2 v (pos + 1))

namespace Graph

def fillIn (g : Graph) : Option Graph := do
  let inpos ← forRange 0 g.vsize (fun i inpos => do
    store inpos i (← g.graph[i]?).instart) (Array.replicate g.vsize 0)
  let (inedge, _) ← forRange 0 g.vsize (fun u st => do
    let vertex ← g.graph[u]?
    forRange vertex.outstart (vertex.outstart + vertex.outdegree) (fun j st => do
      placeIn u (← g.outedge[j]?) st) st) (Array.replicate g.edgenum 0, inpos)
  pure { g with inedge }

/-- The second half of `readGraph`, with the edges read and `vsize` known. `Release` leaves out the
incoming ones. -/
def ofEdges (std : StdSort) (vsize : Nat) (edges : List (Nat × Nat)) : Option Graph := do
  let graph ← edges.foldlM (fun graph e => countEdge e graph) (Array.replicate (vsize + 1) {})
  let graph ← setStarts vsize edges.length graph
  pure ⟨vsize, edges.length, graph, ((std.sort edgeLess edges).map Prod.snd).toArray, #[]⟩

def renamed (g : Graph) (order : Array Nat) : Option (List (Nat × Nat)) :=
  forRange 0 g.vsize (fun i edges => g.forOut i (fun w edges => do
    pure (edges ++ [(← order[i]?, ← order[w]?)])) edges) []

/-- `vsize+1` is an `int` in the test of `graph.size()`; `readGraph` makes no graph for which it
overflows. -/
def transform (std : StdSort) (g : Graph) : Option Graph := do
  let order ← g.rcmOrder std
  if order.size ≠ g.vsize then none
  else if g.graph.size ≠ g.vsize + 1 then none
  else do
    let edges ← g.renamed order
    if edges.length ≠ g.edgenum then none
    else do
      let graph ← forRange 0 g.vsize clearStep g.graph
      let graph ← edges.foldlM (fun graph e => countEdge e graph) graph
      let graph ← setStarts g.vsize g.edgenum graph
      fillIn ⟨g.vsize, g.edgenum, graph, ((std.sort edgeLess edges).map Prod.snd).toArray, #[]⟩

end Graph

section Counting
variable {n : Nat} {es : List (Nat × Nat)} {graph : Array Vertex}

structure Counted (n : Nat) (es : List (Nat × Nat)) (graph : Array Vertex) : Prop where
  size : graph.size = n + 1
  out : ∀ u < n, graph[u]!.outdegree = (group es u).length
  into : ∀ u < n, graph[u]!.indegree = (group (es.map Prod.swap) u).length

theorem Counted.step (h : Counted n es graph) {e : Nat × Nat} (h₁ : e.1 < n) (h₂ : e.2 < n) :
    ∃ graph', countEdge e graph = some graph' ∧ Counted n (es ++ [e]) graph' := by
  have hs := h.size
  have hlt₁ : e.1 < graph.size := by omega
  let graph₁ := graph.setIfInBounds e.1 { graph[e.1]! with outdegree := graph[e.1]!.outdegree + 1 }
  have hs₁ : graph₁.size = n + 1 := by simpa [graph₁] using hs
  have hlt₂ : e.2 < graph₁.size := by omega
  refine ⟨graph₁.setIfInBounds e.2 { graph₁[e.2]! with indegree := graph₁[e.2]!.indegree + 1 }, ?_,
    by simpa using hs₁, fun u hu => ?_, fun u hu => ?_⟩
  · simp only [countEdge, read_eq hlt₁, some_bind, store_eq hlt₁]
    rw [read_eq hlt₂, some_bind, store_eq hlt₂]
  · rw [put_get hlt₂, group_append, group_singleton, List.length_append, ← h.out u hu]
    have hout : graph₁[u]!.outdegree = graph[u]!.outdegree + (if e.1 = u then 1 else 0) := by
      rw [put_get hlt₁]
      by_cases hu₁ : u = e.1
      · rw [if_pos hu₁, if_pos hu₁.symm, hu₁]
      · rw [if_neg hu₁, if_neg (Ne.symm hu₁), Nat.add_zero]
    have hsame : (if u = e.2 then { graph₁[e.2]! with indegree := graph₁[e.2]!.indegree + 1 }
        else graph₁[u]!).outdegree = graph₁[u]!.outdegree := by
      split_ifs with hu₂
      · rw [hu₂]
      · rfl
    rw [hsame, hout]
    split_ifs <;> rfl
  · rw [put_get hlt₂, List.map_append, group_append, List.map_singleton, group_singleton,
      List.length_append, ← h.into u hu]
    have hin (w : Nat) : graph₁[w]!.indegree = graph[w]!.indegree := by
      rw [put_get hlt₁]
      split_ifs with hw
      · rw [hw]
      · rfl
    by_cases hu₂ : u = e.2
    · rw [if_pos hu₂, if_pos (show e.swap.1 = u from hu₂.symm), hu₂]
      change graph₁[e.2]!.indegree + 1 = _
      rw [hin]
      rfl
    · rw [if_neg hu₂, if_neg (show ¬ e.swap.1 = u from Ne.symm hu₂), hin]
      rfl

theorem Counted.all (h : Counted n [] graph) (hin : ∀ e ∈ es, e.1 < n ∧ e.2 < n) :
    ∃ graph', es.foldlM (fun graph e => countEdge e graph) graph = some graph' ∧
      Counted n es graph' :=
  foldlM_list es (Counted n) h fun done e rest graph hes hI => by
    obtain ⟨he₁, he₂⟩ := hin e (by rw [hes]; simp)
    exact hI.step he₁ he₂

/-- The starts are where the edges of the smaller vertices end. -/
structure Indexed (n : Nat) (es : List (Nat × Nat)) (graph : Array Vertex) : Prop
    extends Counted n es graph where
  outstart : ∀ u ≤ n, graph[u]!.outstart = below es u
  instart : ∀ u ≤ n, graph[u]!.instart = below (es.map Prod.swap) u

structure Starting (n : Nat) (es : List (Nat × Nat)) (i : Nat) (graph : Array Vertex) : Prop
    extends Counted n es graph where
  starts : ∀ u < i, graph[u]!.outstart = below es u ∧
    graph[u]!.instart = below (es.map Prod.swap) u

theorem Counted.restart (h : Counted n es graph) {i : Nat} (hi : i < graph.size) (a b : Nat) :
    Counted n es (graph.setIfInBounds i { graph[i]! with outstart := a, instart := b }) := by
  refine ⟨by simpa using h.size, fun u hu => ?_, fun u hu => ?_⟩
  · rw [put_get hi, ← h.out u hu]
    split_ifs with hui
    · rw [hui]
    · rfl
  · rw [put_get hi, ← h.into u hu]
    split_ifs with hui
    · rw [hui]
    · rfl

theorem Starting.step {i : Nat} (h : Starting n es (i + 1) graph) (hi : i + 1 < n) :
    ∃ graph', startStep (i + 1) graph = some graph' ∧ Starting n es (i + 2) graph' := by
  have hs := h.size
  have hlt : i < graph.size := by omega
  have hlt' : i + 1 < graph.size := by omega
  refine ⟨_, ?_, h.toCounted.restart hlt'
    (graph[i]!.outstart + graph[i]!.outdegree) (graph[i]!.instart + graph[i]!.indegree),
    fun u hu => ?_⟩
  · simp only [startStep, Nat.add_sub_cancel, read_eq hlt, read_eq hlt', some_bind, store_eq hlt']
  · rw [put_get hlt']
    split_ifs with hui
    · obtain ⟨ho, hn⟩ := h.starts i (Nat.lt_succ_self i)
      rw [hui, below_succ, below_succ, ← h.out i (by omega), ← h.into i (by omega), ← ho, ← hn]
      exact ⟨rfl, rfl⟩
    · exact h.starts u (by omega)

theorem Counted.index (h : Counted n es graph) (hpos : 0 < n)
    (hin : ∀ e ∈ es, e.1 < n ∧ e.2 < n) :
    ∃ graph', setStarts n es.length graph = some graph' ∧ Indexed n es graph' := by
  have hs := h.size
  have h0 : 0 < graph.size := by omega
  have hfirst : Starting n es 1
      (graph.setIfInBounds 0 { graph[0]! with outstart := 0, instart := 0 }) := by
    refine ⟨h.restart h0 0 0, fun u hu => ?_⟩
    obtain rfl : u = 0 := by omega
    rw [put_get_self h0, below_zero, below_zero]
    exact ⟨rfl, rfl⟩
  obtain ⟨graph₂, hloop, h₂⟩ := forRange_rule (Starting n es) hpos hfirst
    fun i graph' hi1 hi hI => by
      obtain ⟨j, rfl⟩ : ∃ j, i = j + 1 := ⟨i - 1, by omega⟩
      exact hI.step hi
  have hs₂ := h₂.size
  have hn : n < graph₂.size := by omega
  have hall : below es n = es.length := below_all fun e he => (hin e he).1
  have hall' : below (es.map Prod.swap) n = es.length := by
    rw [below_all, List.length_map]
    intro e he
    obtain ⟨e', he', rfl⟩ := List.mem_map.mp he
    exact (hin e' he').2
  refine ⟨_, ?_, h₂.toCounted.restart hn es.length es.length, fun u hu => ?_, fun u hu => ?_⟩
  · simp only [setStarts, read_eq h0, some_bind, store_eq h0]
    rw [hloop, some_bind, read_eq hn, some_bind, store_eq hn]
  · rw [put_get hn]
    split_ifs with hun
    · rw [hun, hall]
    · exact (h₂.starts u (by omega)).1
  · rw [put_get hn]
    split_ifs with hun
    · rw [hun, hall']
    · exact (h₂.starts u (by omega)).2

end Counting

section Sides
variable {n : Nat} {es : List (Nat × Nat)} {graph : Array Vertex}

theorem edgeLess_iff (a b : Nat × Nat) :
    edgeLess a b = true ↔ a.1 < b.1 ∨ (a.1 = b.1 ∧ a.2 ≤ b.2) := by
  rw [edgeLess]
  split_ifs with h₁ h₂
  · simp only [h₁, true_or]
  · simp only [false_iff]
    omega
  · rw [decide_eq_true_iff]
    omega

theorem edgeLess_false (a b : Nat × Nat) :
    edgeLess b a = false ↔ a.1 < b.1 ∨ (a.1 = b.1 ∧ a.2 < b.2) := by
  rw [← Bool.not_eq_true, edgeLess_iff]
  omega

theorem edgeLess_sortable (hd : es.Nodup) : Sortable edgeLess es where
  asymm := hd.imp fun {a b} hab h => by
    have hne : ¬(a.1 = b.1 ∧ a.2 = b.2) := fun he => hab (Prod.ext he.1 he.2)
    rw [edgeLess_iff] at h
    rw [edgeLess_false]
    omega
  trans a b c hab hbc := by
    rw [edgeLess_false] at *
    omega

def Sorted (es : List (Nat × Nat)) : Prop :=
  es.Pairwise fun a b => a.1 < b.1 ∨ (a.1 = b.1 ∧ a.2 < b.2)

theorem sort_edges (std : StdSort) (hd : es.Nodup) :
    (std.sort edgeLess es).Perm es ∧ Sorted (std.sort edgeLess es) :=
  ⟨std.perm (edgeLess_sortable hd), (std.sorted (edgeLess_sortable hd)).imp fun {a b} h =>
    (edgeLess_false a b).mp h⟩

theorem Sorted.sources (h : Sorted es) : es.Pairwise fun a b => a.1 ≤ b.1 :=
  h.imp fun hab => by omega

theorem Sorted.rising (h : Sorted es) (u : Nat) : (group es u).Pairwise (· < ·) := by
  rw [group_eq_filter, List.pairwise_map]
  refine (List.Pairwise.filter _ h).imp_of_mem fun {a b} ha hb hab => ?_
  have hau := of_decide_eq_true (List.mem_filter.mp ha).2
  have hbu := of_decide_eq_true (List.mem_filter.mp hb).2
  omega

theorem Indexed.outgoing {edges : List (Nat × Nat)} (h : Indexed n es graph)
    (inedge : Array Nat) (m : Nat) (hin : ∀ e ∈ es, e.1 < n ∧ e.2 < n) (hp : edges.Perm es)
    (hs : Sorted edges) :
    (Graph.mk n m graph (edges.map Prod.snd).toArray inedge).Outgoing ∧
      ∀ u < n, (Graph.mk n m graph (edges.map Prod.snd).toArray inedge).outs u = group edges u := by
  have houts (u : Nat) (hu : u < n) :
      (Graph.mk n m graph (edges.map Prod.snd).toArray inedge).outs u = group edges u := by
    rw [Graph.outs]
    simp only [h.outstart u hu.le, h.outstart (u + 1) hu]
    rw [← below_perm hp, ← below_perm hp]
    exact rising_bucket hs.sources u
  refine ⟨⟨h.size, ⟨?_, fun u hu => ?_, ?_, fun w hw => ?_⟩, fun u hu => ?_⟩, houts⟩
  · exact (h.outstart 0 (Nat.zero_le n)).trans (below_zero es)
  · simp only at hu ⊢
    rw [h.outstart (u + 1) hu, below_succ, h.outstart u hu.le, h.out u hu]
  · simp only
    rw [h.outstart n le_rfl, below_all fun e he => (hin e he).1]
    simpa using hp.length_eq.symm
  · simp only [List.mem_map] at hw
    obtain ⟨e, he, rfl⟩ := hw
    exact (hin e (hp.mem_iff.mp he)).2
  · rw [houts u hu]
    exact hs.rising u

def reversed (g : Graph) : List (Nat × Nat) :=
  (List.range g.vsize).flatMap fun u => (g.outs u).map fun v => (v, u)

theorem mem_reversed {g : Graph} {u v : Nat} :
    (v, u) ∈ reversed g ↔ u < g.vsize ∧ v ∈ g.outs u := by
  simp only [reversed, List.mem_flatMap, List.mem_range, List.mem_map, Prod.mk.injEq]
  constructor
  · rintro ⟨u', hu', v', hv', rfl, rfl⟩
    exact ⟨hu', hv'⟩
  · rintro ⟨hu, hv⟩
    exact ⟨u, hu, v, hv, rfl, rfl⟩

theorem reversed_nodup {g : Graph} (hg : g.Outgoing) : (reversed g).Nodup := by
  refine List.nodup_flatMap.mpr ⟨fun u hu => ?_, ?_⟩
  · refine (hg.outs_nodup (List.mem_range.mp hu)).map fun v v' he => ?_
    exact (Prod.mk.inj he).1
  · refine List.nodup_range.imp fun {u u'} hne => ?_
    intro e he he'
    obtain ⟨v, _, rfl⟩ := List.mem_map.mp he
    obtain ⟨v', _, hv'⟩ := List.mem_map.mp he'
    exact hne (Prod.mk.inj hv').2.symm

theorem placeIn_spec {base : Array Nat} {all done rest : List (Nat × Nat)} {u v size : Nat}
    {inedge inpos fill : Array Nat} (ho : Offsets n base all) (hall : all = done ++ (v, u) :: rest)
    (hv : v < n) (hsize : all.length ≤ size) (h : Scattered n base size done (inedge, fill))
    (hpos : inpos.size = n) (hfill : ∀ k < n, inpos[k]! = base[k]! + fill[k]!) :
    ∃ inedge' inpos' fill', placeIn u v (inedge, inpos) = some (inedge', inpos') ∧
      Scattered n base size (done ++ [(v, u)]) (inedge', fill') ∧ inpos'.size = n ∧
      ∀ k < n, inpos'[k]! = base[k]! + fill'[k]! := by
  obtain ⟨⟨inedge', fill'⟩, hrun, h'⟩ := scatter_step ho hall hv hsize h
  have hvpos : v < inpos.size := by omega
  have hvb : v < base.size := hv.trans_le ho.1
  have hvf : v < fill.size := hv.trans_le h.room
  simp only [scatter, read_eq hvb, read_eq hvf, incr_eq hvf, some_bind] at hrun
  obtain ⟨inedge₁, hstore, hrun⟩ := Option.bind_eq_some_iff.mp hrun
  cases hrun
  refine ⟨inedge', inpos.setIfInBounds v (inpos[v]! + 1), _, ?_, h', by simpa using hpos,
    fun k hk => ?_⟩
  · have hstore' : store inedge inpos[v]! u = some inedge' := by
      rw [hfill v hv]
      exact hstore
    simp only [placeIn, read_eq hvpos, some_bind, hstore', store_eq hvpos]
    rfl
  · rw [put_get hvpos, put_get hvf]
    by_cases hkv : k = v
    · rw [if_pos hkv, if_pos hkv, hfill v hv, hkv, Nat.add_assoc]
    · rw [if_neg hkv, if_neg hkv, hfill k hk]

theorem fillIn_spec {g : Graph} (hg : g.Outgoing) (hm : g.edgenum = (reversed g).length)
    (hdegree : ∀ v < g.vsize, g.graph[v]!.indegree = (group (reversed g) v).length)
    (hstart : ∀ v ≤ g.vsize, g.graph[v]!.instart = below (reversed g) v) :
    ∃ inedge, g.fillIn = some { g with inedge } ∧ Graph.Valid { g with inedge } := by
  have hin (e : Nat × Nat) (he : e ∈ reversed g) : e.1 < g.vsize ∧ e.2 < g.vsize := by
    obtain ⟨hu, hv⟩ := mem_reversed.mp (show (e.1, e.2) ∈ reversed g from he)
    exact ⟨hg.outs_lt hu hv, hu⟩
  obtain ⟨inpos, hinit, hpos, hinpos⟩ := forRange_fill (n := g.vsize)
    (a := Array.replicate g.vsize 0) (f := fun i => g.graph[i]? >>= fun v => some v.instart)
    (g := fun i => g.graph[i]!.instart) (by simp)
    fun i hi => by rw [hg.read_vertex hi.le, some_bind]
  rw [Array.size_replicate] at hpos
  let base : Array Nat := ((List.range g.vsize).map fun v => below (reversed g) v).toArray
  have hbase (v : Nat) (hv : v < g.vsize) : base[v]! = below (reversed g) v := by
    rw [getElem!_pos base v (by simpa [base] using hv)]
    simp [base]
  have ho : Offsets g.vsize base (reversed g) := ⟨by simp [base], hbase⟩
  obtain ⟨⟨inedge, inpos'⟩, hrun, fill, hscat, _, _⟩ := foldlM_list (reversed g)
    (fun done (st : Array Nat × Array Nat) => ∃ fill,
      Scattered g.vsize base (reversed g).length done (st.1, fill) ∧ st.2.size = g.vsize ∧
        ∀ k < g.vsize, st.2[k]! = base[k]! + fill[k]!)
    (b := (Array.replicate g.edgenum 0, inpos))
    ⟨Array.replicate g.vsize 0, scattered_nil (by simpa using hm) (by simp)
      (fun k hk => replicate_get _ k 0 hk), hpos, fun k hk => by
        rw [hinpos, if_pos hk, replicate_get _ k 0 hk, hstart k hk.le, hbase k hk, Nat.add_zero]⟩
    fun done e rest st hall hI => by
      obtain ⟨fill, hscat, hpos, hfill⟩ := hI
      obtain ⟨inedge', inpos', fill', hrun, h'⟩ :=
        placeIn_spec ho hall (hin e (by rw [hall]; simp)).1 le_rfl hscat hpos hfill
      exact ⟨(inedge', inpos'), hrun, fill', h'⟩
  have hloop : forRange 0 g.vsize (fun u st => do
      let vertex ← g.graph[u]?
      forRange vertex.outstart (vertex.outstart + vertex.outdegree) (fun j st => do
        placeIn u (← g.outedge[j]?) st) st) (Array.replicate g.edgenum 0, inpos) =
      some (inedge, inpos') := by
    rw [← hrun, forRange_zero, reversed, foldlM_flatMap]
    refine foldlM_congr_mem (fun u hu st => ?_) _
    have hun := List.mem_range.mp hu
    rw [hg.read_vertex hun.le, some_bind, List.foldlM_map, ← hg.out.next u hun]
    exact forRange_slice (hg.out.mono (Nat.le_succ u) hun) (hg.out.le_size hun) (placeIn u) st
  have hrow (v : Nat) (hv : v < g.vsize) :
      Graph.ins { g with inedge } v = group (reversed g) v := by
    rw [Graph.ins]
    simp only [hstart v hv.le, hstart (v + 1) hv]
    exact hscat.bucket ho hv
  refine ⟨inedge, ?_, ⟨hg.size, ⟨hg.out.first, hg.out.next, hg.out.last, hg.out.inside⟩,
    hg.rising⟩, ⟨?_, fun u hu => ?_, ?_, fun w hw => ?_⟩, fun v hv => ?_, fun u hu v hv => ?_⟩
  · have hinit' : forRange 0 g.vsize (fun i inpos => do
        store inpos i (← g.graph[i]?).instart) (Array.replicate g.vsize 0) = some inpos := by
      rw [← hinit]
      congr 1
      funext i inpos
      cases g.graph[i]? <;> rfl
    simp only [Graph.fillIn]
    rw [hinit', some_bind, hloop]
    rfl
  · exact (hstart 0 (Nat.zero_le _)).trans (below_zero _)
  · simp only at hu ⊢
    rw [hstart (u + 1) hu, below_succ, hstart u hu.le, hdegree u hu]
  · simp only
    rw [hstart g.vsize le_rfl, below_all fun e he => (hin e he).1]
    exact hscat.size.symm
  · -- every place of the array is in the row of some vertex
    obtain ⟨i, hi, rfl⟩ := List.mem_iff_getElem.mp hw
    have hi' : i < inedge.size := by simpa using hi
    have hlast : i < below (reversed g) g.vsize := by
      rw [below_all fun e he => (hin e he).1, ← hscat.size]
      exact hi'
    obtain ⟨v, hv, hlo, hhi⟩ := below_bucket hlast
    have hmem : inedge[i]! ∈ group (reversed g) v := by
      rw [← hscat.bucket ho hv]
      exact mem_slice.mpr ⟨i, hlo, hhi, rfl⟩
    have hget : inedge.toList[i] = inedge[i]! := by simp [hi']
    rw [hget]
    exact (hin _ (mem_group.mp hmem)).2
  · rw [hrow v hv]
    exact group_nodup (reversed_nodup hg) v
  · rw [hrow v hv, mem_group, mem_reversed]
    exact ⟨fun h => h.2, fun h => ⟨hu, h⟩⟩

end Sides

end GraphReorder.Gorder
