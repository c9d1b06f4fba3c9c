import GraphReorder.Degree
import GraphReorder.Hub

/-! The edge lists that `degree.py` and `hub.py` relabel. -/
namespace GraphReorder
open Library

/-- Both scripts relabel an edge list exactly when its ids are the first natural numbers; with
`-m`, `degree.py` also needs a record that has vertex 0 on the side the degrees are taken from. -/
theorem scripts_relabel_iff (args : Hub.Args) (order : Hub.SetOrder) {el : List Record}
    (hne : el ≠ []) (hw : args.weighted = false) :
    (Relabels el (Degree.main args.toArgs el) ↔ ids el = Finset.range (ids el).card ∧
      (args.maintain = true → ∃ r ∈ el, r.key args.indegree = 0)) ∧
    (Relabels el (Hub.main args order el) ↔ ids el = Finset.range (ids el).card) :=
  ⟨Degree.relabels_main_iff hne hw, Hub.relabels_main_iff order hne hw⟩

def circle : List Record := [⟨0, 2, 0⟩, ⟨2, 1, 0⟩, ⟨1, 0, 0⟩]

theorem scripts_relabel_circle :
    Relabels circle (Degree.main ⟨⟨true, false, false⟩, true⟩ circle) ∧
      Relabels circle (Hub.main ⟨⟨⟨true, false, false⟩, true⟩, true⟩ .increasing circle) := by
  have hne : circle ≠ [] := List.cons_ne_nil _ _
  have hids : ids circle = Finset.range (ids circle).card := by decide
  obtain ⟨hdegree, hhub⟩ := scripts_relabel_iff ⟨⟨⟨true, false, false⟩, true⟩, true⟩ .increasing hne rfl
  exact ⟨hdegree.mpr ⟨hids, fun _ => by decide⟩, hhub.mpr hids⟩

/-- With the ids 1 and 2 both scripts end at `mapping[0]`; with `-m`, an edge from 1 to 0 leaves
`degree.py` without the number 0. -/
theorem gap_not_relabelled :
    ¬ Relabels [⟨1, 2, 0⟩] (Degree.main ⟨⟨false, false, false⟩, false⟩ [⟨1, 2, 0⟩]) ∧
      ¬ Relabels [⟨1, 2, 0⟩]
        (Hub.main ⟨⟨⟨false, false, false⟩, false⟩, false⟩ .increasing [⟨1, 2, 0⟩]) ∧
      ¬ Relabels [⟨1, 0, 0⟩] (Degree.main ⟨⟨true, false, false⟩, false⟩ [⟨1, 0, 0⟩]) := by
  rw [Degree.relabels_main_iff (List.cons_ne_nil _ _) rfl,
    Hub.relabels_main_iff _ (List.cons_ne_nil _ _) rfl,
    Degree.relabels_main_iff (List.cons_ne_nil _ _) rfl]
  decide

/-- With weights, both scripts write every record with its own weight exactly when the ids are the
first natural numbers and parallel edges have one weight. -/
theorem scripts_weights_iff (args : Hub.Args) (order : Hub.SetOrder) {el : List Record}
    (hne : el ≠ []) (hw : args.weighted = true) :
    (WritesRecords el (Degree.main args.toArgs el) ↔
      ids el = Finset.range (ids el).card ∧ OneWeight el) ∧
    (WritesRecords el (Hub.main args order el) ↔
      ids el = Finset.range (ids el).card ∧ OneWeight el) :=
  ⟨Degree.writesRecords_main_iff hw, Hub.writesRecords_main_iff order hne hw⟩

def parallel : List Record := [⟨0, 1, 5⟩, ⟨0, 1, 5⟩, ⟨1, 0, 7⟩]

theorem scripts_weights_parallel :
    WritesRecords parallel (Degree.main ⟨⟨true, true, false⟩, true⟩ parallel) ∧
      WritesRecords parallel
        (Hub.main ⟨⟨⟨true, true, false⟩, true⟩, true⟩ .increasing parallel) := by
  have hne : parallel ≠ [] := List.cons_ne_nil _ _
  have hids : ids parallel = Finset.range (ids parallel).card := by decide
  have hone : OneWeight parallel := by decide
  obtain ⟨hdegree, hhub⟩ := scripts_weights_iff ⟨⟨⟨true, true, false⟩, true⟩, true⟩ .increasing hne rfl
  exact ⟨hdegree.mpr ⟨hids, hone⟩, hhub.mpr ⟨hids, hone⟩⟩

/-- Two parallel edges of weights 5 and 7 are both written with weight 7. -/
theorem parallel_weight_lost :
    ¬ WritesRecords [⟨0, 1, 5⟩, ⟨0, 1, 7⟩]
        (Degree.main ⟨⟨false, true, false⟩, false⟩ [⟨0, 1, 5⟩, ⟨0, 1, 7⟩]) ∧
      ¬ WritesRecords [⟨0, 1, 5⟩, ⟨0, 1, 7⟩]
        (Hub.main ⟨⟨⟨false, true, false⟩, false⟩, false⟩ .increasing [⟨0, 1, 5⟩, ⟨0, 1, 7⟩]) := by
  rw [Degree.writesRecords_main_iff rfl,
    Hub.writesRecords_main_iff _ (List.cons_ne_nil _ _) rfl]
  decide

end GraphReorder
