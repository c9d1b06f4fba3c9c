import Mathlib.Data.Finset.Sort
import GraphReorder.Naming

/-! `hub.py`: the hubs are numbered first, then the other vertices. -/
namespace GraphReorder.Hub
open Library

structure Args extends GraphReorder.Args where
  sort : Bool

/-- How Python runs through a set: every element once, in an order that is not known. -/
structure SetOrder where
  list : Finset Nat → List Nat
  nodup : ∀ s, (list s).Nodup
  mem_list : ∀ {s v}, v ∈ list s ↔ v ∈ s

def SetOrder.increasing : SetOrder where
  list := fun s => s.sort (· ≤ ·)
  nodup := fun s => s.sort_nodup _
  mem_list := Finset.mem_sort _

def vertices (el : List Record) : Finset Nat :=
  el.foldl (fun vertices r => insert r.dst (insert r.src vertices)) ∅

/-- `if edges and len(edges) >= avg`, where `avg` is `edge_count / n`. The comparison is exact; that
with the rounded quotient comes out the same below 2^53 edges. -/
def addHub (edges_by_node : Dict Nat (List Nat)) (n edge_count : Nat) (hub_nodes : Finset Nat)
    (v : Nat) : Finset Nat :=
  match edges_by_node.get? v with
  | none => hub_nodes
  | some edges =>
    if edges ≠ [] ∧ edge_count ≤ edges.length * n then insert v hub_nodes else hub_nodes

def hubNodes (edges_by_node : Dict Nat (List Nat)) (n edge_count : Nat) (el : List Record) :
    Finset Nat :=
  el.foldl (fun hub_nodes r => addHub edges_by_node n edge_count
    (addHub edges_by_node n edge_count hub_nodes r.src) r.dst) ∅

def relabelEdge (weighted : Bool) (edge_weights : Dict (Nat × Nat) Int) (mapping : Dict Nat Int)
    (edge : Record) : Option Row := do
  let _ ← mapping.get? edge.src
  let _ ← mapping.get? edge.dst
  some (row weighted edge_weights mapping edge)

def hubList (args : Args) (order : SetOrder) (edges_by_node : Dict Nat (List Nat))
    (hub_nodes : Finset Nat) : List Nat :=
  if args.sort then
    sorted (fun x => ((edges_by_node.get? x).getD []).length) (!args.ascending)
      (order.list hub_nodes)
  else order.list hub_nodes

def main (args : Args) (order : SetOrder) (el : List Record) : Option Outcome := do
  let edges_by_node := edgesByNode args.indegree el
  let vertices := vertices el
  if vertices.card = 0 then none  -- the division by `n`
  else
    let hub_nodes := hubNodes edges_by_node vertices.card el.length el
    let non_hubs := vertices \ hub_nodes
    let hubs := hubList args order edges_by_node hub_nodes
    let s := hubs.foldl (Naming.visit args.maintain) (Naming.start args.maintain)
    let s := (order.list non_hubs).foldl (Naming.visit args.maintain) s
    let hub_ordered ← el.mapM
      (relabelEdge args.weighted (edgeWeights args.weighted el) s.mapping)
    finishNaming s.mapping hub_ordered

section Sets
variable {el : List Record}

theorem vertices_eq (el : List Record) : vertices el = ids el := by
  induction el using List.reverseRecOn with
  | nil => rfl
  | append_singleton el r ih =>
    ext v
    rw [mem_ids_concat, ← ih, vertices, List.foldl_append]
    simp only [List.foldl_cons, List.foldl_nil, Finset.mem_insert]
    tauto

def LongEnough (edges_by_node : Dict Nat (List Nat)) (n edge_count v : Nat) : Prop :=
  ∃ edges, edges_by_node.get? v = some edges ∧ edges ≠ [] ∧ edge_count ≤ edges.length * n

theorem mem_addHub {edges_by_node : Dict Nat (List Nat)} {n edge_count : Nat}
    {hub_nodes : Finset Nat} {v w : Nat} :
    w ∈ addHub edges_by_node n edge_count hub_nodes v ↔
      w ∈ hub_nodes ∨ w = v ∧ LongEnough edges_by_node n edge_count v := by
  rw [addHub, LongEnough]
  cases edges_by_node.get? v with
  | none => simp
  | some edges =>
    by_cases h : edges ≠ [] ∧ edge_count ≤ edges.length * n
    · simp [h, or_comm]
    · simp [h]

theorem mem_hubNodes {edges_by_node : Dict Nat (List Nat)} {n edge_count : Nat} {el : List Record}
    {v : Nat} : v ∈ hubNodes edges_by_node n edge_count el ↔
      v ∈ ids el ∧ LongEnough edges_by_node n edge_count v := by
  induction el using List.reverseRecOn with
  | nil => simp [hubNodes, ids]
  | append_singleton el r ih =>
    rw [hubNodes, List.foldl_append, List.foldl_cons, List.foldl_nil, mem_addHub, mem_addHub,
      ← hubNodes, ih, mem_ids_concat]
    constructor
    · intro h
      rcases h with (h | ⟨rfl, h⟩) | ⟨rfl, h⟩
      · exact ⟨.inl h.1, h.2⟩
      · exact ⟨.inr (.inl rfl), h⟩
      · exact ⟨.inr (.inr rfl), h⟩
    · intro h
      obtain ⟨hv, hlong⟩ := h
      rcases hv with hv | rfl | rfl
      · exact .inl (.inl ⟨hv, hlong⟩)
      · exact .inl (.inr ⟨rfl, hlong⟩)
      · exact .inr ⟨rfl, hlong⟩

theorem hubNodes_subset (edges_by_node : Dict Nat (List Nat)) (n edge_count : Nat)
    (el : List Record) : hubNodes edges_by_node n edge_count el ⊆ ids el :=
  fun _ hv => (mem_hubNodes.mp hv).1

end Sets

section Main

theorem hubList_perm (args : Args) (order : SetOrder) (edges_by_node : Dict Nat (List Nat))
    (hub_nodes : Finset Nat) :
    (hubList args order edges_by_node hub_nodes).Perm (order.list hub_nodes) := by
  rw [hubList]
  cases args.sort with
  | false => exact List.Perm.refl _
  | true => exact sorted_perm _ _ _

theorem listing (args : Args) (order : SetOrder) (edges_by_node : Dict Nat (List Nat))
    {hub_nodes V : Finset Nat} (hsub : hub_nodes ⊆ V) :
    (hubList args order edges_by_node hub_nodes ++ order.list (V \ hub_nodes)).Nodup ∧
      ∀ v, v ∈ hubList args order edges_by_node hub_nodes ++ order.list (V \ hub_nodes) ↔ v ∈ V := by
  have hperm := hubList_perm args order edges_by_node hub_nodes
  have hhub (v : Nat) : v ∈ hubList args order edges_by_node hub_nodes ↔ v ∈ hub_nodes :=
    hperm.mem_iff.trans order.mem_list
  constructor
  · refine (hperm.nodup_iff.mpr (order.nodup _)).append (order.nodup _) fun v hv hv' => ?_
    exact (Finset.mem_sdiff.mp (order.mem_list.mp hv')).2 ((hhub v).mp hv)
  · intro v
    rw [List.mem_append, hhub, order.mem_list, Finset.mem_sdiff]
    constructor
    · intro h
      cases h with
      | inl h => exact hsub h
      | inr h => exact h.1
    · intro h
      by_cases hh : v ∈ hub_nodes
      · exact .inl hh
      · exact .inr ⟨h, hh⟩

theorem relabel_spec {first : Nat} {kept : Bool} {counted : List Nat} {s : Naming}
    {el : List Record} (edge_weights : Dict (Nat × Nat) Int) (weighted : Bool)
    (h : Numbered first kept counted s) (hknown : ∀ v, Known kept counted v ↔ v ∈ ids el) :
    el.mapM (relabelEdge weighted edge_weights s.mapping) =
      some (el.map (row weighted edge_weights s.mapping)) := by
  refine mapM_of_forall fun r hr => ?_
  have hfound (v : Nat) (hv : v ∈ ids el) :
      s.mapping.get? v = some (newId first counted v : Int) := by
    rw [h.look, if_pos ((hknown v).mpr hv)]
  rw [relabelEdge, hfound r.src (src_mem_ids hr), hfound r.dst (dst_mem_ids hr), some_bind, some_bind]

def hubs (args : Args) (el : List Record) : Finset Nat :=
  hubNodes (edgesByNode args.indegree el) (vertices el).card el.length el

def numbering (args : Args) (order : SetOrder) (el : List Record) : Naming :=
  (order.list (vertices el \ hubs args el)).foldl (Naming.visit args.maintain)
    ((hubList args order (edgesByNode args.indegree el) (hubs args el)).foldl
      (Naming.visit args.maintain) (Naming.start args.maintain))

theorem main_eq (args : Args) (order : SetOrder) (el : List Record) :
    main args order el = if (vertices el).card = 0 then none else
      el.mapM (relabelEdge args.weighted (edgeWeights args.weighted el)
        (numbering args order el).mapping) >>= finishNaming (numbering args order el).mapping := rfl

theorem numbering_spec (args : Args) (order : SetOrder) (el : List Record) :
    Numbered (if args.maintain then 1 else 0) (args.maintain && decide (0 ∈ ids el))
        (countedOf args.maintain (hubList args order (edgesByNode args.indegree el) (hubs args el) ++
          order.list (ids el \ hubs args el))) (numbering args order el) ∧
      ∀ v, Known (args.maintain && decide (0 ∈ ids el))
        (countedOf args.maintain (hubList args order (edgesByNode args.indegree el) (hubs args el) ++
          order.list (ids el \ hubs args el))) v ↔ v ∈ ids el := by
  have hsub : hubs args el ⊆ ids el := hubNodes_subset _ _ _ _
  obtain ⟨hnodup, hmem⟩ := listing args order (edgesByNode args.indegree el) hsub
  have hs := Numbered.visit_list args.maintain hnodup (hmem 0).symm
  rw [List.foldl_append] at hs
  rw [numbering, vertices_eq]
  exact ⟨hs, fun v => (known_countedOf args.maintain (hmem 0).symm v).trans (hmem v)⟩

theorem main_spec (args : Args) (order : SetOrder) {el : List Record} (hne : el ≠ []) :
    ∃ counted s, Numbered (if args.maintain then 1 else 0)
        (args.maintain && decide (0 ∈ ids el)) counted s ∧
      (∀ v, Known (args.maintain && decide (0 ∈ ids el)) counted v ↔ v ∈ ids el) ∧
      main args order el = finishNaming s.mapping
        (el.map (row args.weighted (edgeWeights args.weighted el) s.mapping)) := by
  obtain ⟨hs, hknown⟩ := numbering_spec args order el
  refine ⟨_, _, hs, hknown, ?_⟩
  obtain ⟨r, hr⟩ := List.exists_mem_of_ne_nil el hne
  have hcard : ¬ (ids el).card = 0 := Finset.card_ne_zero_of_mem (src_mem_ids hr)
  have hrows := relabel_spec (edgeWeights args.weighted el) args.weighted hs hknown
  rw [main_eq, vertices_eq, if_neg hcard, hrows, some_bind]

theorem relabels_main_iff {args : Args} (order : SetOrder) {el : List Record} (hne : el ≠ [])
    (hw : args.weighted = false) :
    Relabels el (main args order el) ↔ ids el = Finset.range (ids el).card := by
  obtain ⟨counted, s, hs, hknown, hmain⟩ := main_spec args order hne
  rw [hmain, hw, relabels_finishNaming_iff hne hs (fun h => (Bool.and_eq_true_iff.mp h).1) hknown]
  refine and_iff_left_of_imp fun hids hm => ?_
  obtain ⟨r, hr⟩ := List.exists_mem_of_ne_nil el hne
  have hcard : 0 < (ids el).card := Finset.card_pos.mpr ⟨r.src, src_mem_ids hr⟩
  rw [hm, Bool.true_and, decide_eq_true_iff, hids]
  exact Finset.mem_range.mpr hcard

theorem writesRecords_main_iff {args : Args} (order : SetOrder) {el : List Record} (hne : el ≠ [])
    (hw : args.weighted = true) :
    WritesRecords el (main args order el) ↔
      ids el = Finset.range (ids el).card ∧ OneWeight el := by
  obtain ⟨counted, s, hs, hknown, hmain⟩ := main_spec args order hne
  rw [hmain, hw]
  exact writesRecords_finishNaming_iff hs hknown

end Main

end GraphReorder.Hub
