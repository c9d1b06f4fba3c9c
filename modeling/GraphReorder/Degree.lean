import GraphReorder.Naming

/-! `degree.py`: the vertices that have a list are numbered by its length, the others while the
edges are rewritten. -/
namespace GraphReorder.Degree
open Library

def rewriteEdge (weighted : Bool) (edge_weights : Dict (Nat × Nat) Int) (st : Naming × List Row)
    (edge : Record) : Naming × List Row :=
  let s := (st.1.ensure edge.src).ensure edge.dst
  (s, st.2 ++ [row weighted edge_weights s.mapping edge])

def ordered (args : Args) (el : List Record) : List (Nat × List Nat) :=
  sorted (fun item => item.2.length) (!args.ascending) (edgesByNode args.indegree el).items

def main (args : Args) (el : List Record) : Option Outcome :=
  let s := (ordered args el).foldl (fun s item => s.visit args.maintain item.1)
    (Naming.start args.maintain)
  let (s, sorted_output) := el.foldl
    (rewriteEdge args.weighted (edgeWeights args.weighted el)) (s, [])
  finishNaming s.mapping sorted_output

section Rewrite
variable {first : Nat} {kept : Bool} {counted : List Nat} {s : Naming}

theorem rewriteEdge_spec (h : Numbered first kept counted s) (edge : Record) :
    ∃ more, Numbered first kept (counted ++ more) ((s.ensure edge.src).ensure edge.dst) ∧
      ∀ v, Known kept (counted ++ more) v ↔ Known kept counted v ∨ v = edge.src ∨ v = edge.dst := by
  obtain ⟨ms, hs, hks⟩ := h.ensure edge.src
  obtain ⟨md, hd, hkd⟩ := hs.ensure edge.dst
  refine ⟨ms ++ md, by rw [← List.append_assoc]; exact hd, fun v => ?_⟩
  rw [← List.append_assoc, hkd, hks, or_assoc]

theorem look_more {s' : Naming} {more : List Nat} (h : Numbered first kept counted s)
    (h' : Numbered first kept (counted ++ more) s') {v : Nat} (hv : Known kept counted v) :
    s'.mapping.get? v = s.mapping.get? v := by
  have hv' : Known kept (counted ++ more) v := hv.imp_left (List.mem_append_left more)
  rw [h.look, h'.look, if_pos hv, if_pos hv']
  cases hv with
  | inl hc =>
    rw [newId, newId, if_pos hc, if_pos (List.mem_append_left more hc),
      List.idxOf_append_of_mem hc]
  | inr h0 =>
    obtain ⟨hk, rfl⟩ := h0
    rw [newId, newId, if_neg (h.zero hk), if_neg (h'.zero hk)]

/-- The whole loop: every line shows the final numbers. -/
theorem rewrite_spec (h : Numbered first kept counted s) (weighted : Bool)
    (edge_weights : Dict (Nat × Nat) Int) (el : List Record) :
    ∃ more s', el.foldl (rewriteEdge weighted edge_weights) (s, []) =
        (s', el.map (row weighted edge_weights s'.mapping)) ∧
      Numbered first kept (counted ++ more) s' ∧
      ∀ v, Known kept (counted ++ more) v ↔ Known kept counted v ∨ v ∈ ids el := by
  induction el using List.reverseRecOn with
  | nil =>
    refine ⟨[], s, rfl, by rw [List.append_nil]; exact h, fun v => ?_⟩
    have hnone : v ∉ ids [] := Finset.notMem_empty v
    rw [List.append_nil, or_iff_left hnone]
  | append_singleton el edge ih =>
    obtain ⟨more, s', hrun, hs, hknown⟩ := ih
    obtain ⟨more', hs', hknown'⟩ := rewriteEdge_spec hs edge
    refine ⟨more ++ more', (s'.ensure edge.src).ensure edge.dst, ?_, ?_, fun v => ?_⟩
    · have hrows : el.map (row weighted edge_weights s'.mapping) = el.map (row weighted edge_weights
          ((s'.ensure edge.src).ensure edge.dst).mapping) := by
        refine List.map_congr_left fun r hr => ?_
        rw [row, row, look_more hs hs' ((hknown r.src).mpr (.inr (src_mem_ids hr))),
          look_more hs hs' ((hknown r.dst).mpr (.inr (dst_mem_ids hr)))]
      rw [List.foldl_append, hrun, List.map_append, ← hrows]
      rfl
    · rw [← List.append_assoc]
      exact hs'
    · rw [← List.append_assoc, hknown', hknown, mem_ids_concat, or_assoc]

end Rewrite

section Main
variable {args : Args} {el : List Record}

theorem ordered_keys (args : Args) (el : List Record) :
    ((ordered args el).map Prod.fst).Perm (edgesByNode args.indegree el).keys :=
  (sorted_perm _ _ _).map Prod.fst

theorem ordered_nodup (args : Args) (el : List Record) :
    ((ordered args el).map Prod.fst).Nodup :=
  (ordered_keys args el).nodup_iff.mpr (edgesByNode args.indegree el).nodup

theorem mem_ordered (v : Nat) :
    v ∈ (ordered args el).map Prod.fst ↔ ∃ r ∈ el, r.key args.indegree = v :=
  (ordered_keys args el).mem_iff.trans mem_keys_edgesByNode

def numbering (args : Args) (el : List Record) : Naming × List Row :=
  el.foldl (rewriteEdge args.weighted (edgeWeights args.weighted el))
    ((ordered args el).foldl (fun s item => s.visit args.maintain item.1)
      (Naming.start args.maintain), [])

theorem main_eq (args : Args) (el : List Record) :
    main args el = finishNaming (numbering args el).1.mapping (numbering args el).2 := rfl

theorem numbering_spec (args : Args) (el : List Record) :
    ∃ more s, numbering args el =
        (s, el.map (row args.weighted (edgeWeights args.weighted el) s.mapping)) ∧
      Numbered (if args.maintain then 1 else 0)
        (args.maintain && decide (∃ r ∈ el, r.key args.indegree = 0))
        (countedOf args.maintain ((ordered args el).map Prod.fst) ++ more) s ∧
      ∀ v, Known (args.maintain && decide (∃ r ∈ el, r.key args.indegree = 0))
        (countedOf args.maintain ((ordered args el).map Prod.fst) ++ more) v ↔ v ∈ ids el := by
  have hfirst := Numbered.visit_list args.maintain (ordered_nodup args el) (mem_ordered 0).symm
  rw [List.foldl_map] at hfirst
  obtain ⟨more, s, hrun, hs, hknown⟩ := rewrite_spec hfirst args.weighted
    (edgeWeights args.weighted el) el
  refine ⟨more, s, hrun, hs, fun v => (hknown v).trans (or_iff_right_of_imp fun hv => ?_)⟩
  obtain ⟨r, hr, hrv⟩ :=
    (mem_ordered v).mp ((known_countedOf args.maintain (mem_ordered 0).symm v).mp hv)
  rw [← hrv]
  exact key_mem_ids hr

theorem relabels_main_iff (hne : el ≠ []) (hw : args.weighted = false) :
    Relabels el (main args el) ↔ ids el = Finset.range (ids el).card ∧
      (args.maintain = true → ∃ r ∈ el, r.key args.indegree = 0) := by
  obtain ⟨more, s, hrun, hs, hknown⟩ := numbering_spec args el
  have hkept : (args.maintain && decide (∃ r ∈ el, r.key args.indegree = 0)) = true →
      args.maintain = true := fun h => (Bool.and_eq_true_iff.mp h).1
  rw [main_eq, hrun, hw, relabels_finishNaming_iff hne hs hkept hknown]
  refine and_congr_right fun _ => imp_congr_right fun hm => ?_
  rw [hm, Bool.true_and, decide_eq_true_iff]

theorem writesRecords_main_iff (hw : args.weighted = true) :
    WritesRecords el (main args el) ↔ ids el = Finset.range (ids el).card ∧ OneWeight el := by
  obtain ⟨more, s, hrun, hs, hknown⟩ := numbering_spec args el
  rw [main_eq, hrun, hw]
  exact writesRecords_finishNaming_iff hs hknown

end Main

end GraphReorder.Degree
