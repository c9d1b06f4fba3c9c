import GraphReorder.Gorder.Tracks
import Mathlib.Algebra.Order.BigOperators.Group.List

/-! The window of `GorderGreedy`: what a placed vertex adds to the scores, and how the loops of one
round move the scores from one window to the next. -/
namespace GraphReorder.Gorder
open Library

namespace Graph
variable (g : Graph) (huge : Nat)

def ahead (v : Nat) : List Nat := if g.graph[v]!.outdegree ≤ huge then g.outs v else []

/-- The other targets of an in-neighbour `u`: of a single target there are none. -/
def beside (u : Nat) : List Nat := if 1 < g.graph[u]!.outdegree then g.outs u else []

def through (u : Nat) : List Nat :=
  if g.graph[u]!.outdegree ≤ huge then u :: g.beside u else []

/-- Who gains when `v` is placed, once for each edge to `v` and for each common in-neighbour. -/
def touched (v : Nat) : List Nat := g.ahead huge v ++ (g.ins v).flatMap (g.through huge)

/-- The score that a window gives to `w`. -/
def windowScore (window : List Nat) (w : Nat) : Nat :=
  (window.map fun v => (g.touched huge v).count w).sum

/-- `u` is an in-neighbour that `leaveWindow` leaves out as `v` enters. -/
def Shared (v u : Nat) : Prop :=
  g.graph[u]!.outdegree ≤ huge ∧ 1 < g.graph[u]!.outdegree ∧ v ∈ g.outs u

instance (v u : Nat) : Decidable (g.Shared huge v u) :=
  inferInstanceAs (Decidable (_ ∧ _ ∧ _))

def losing (v u : Nat) : List Nat :=
  if g.graph[u]!.outdegree ≤ huge then
    u :: if 1 < g.graph[u]!.outdegree ∧ v ∉ g.outs u then g.outs u else []
  else []

def gaining (popvexist : Array Bool) (u : Nat) : List Nat :=
  if g.graph[u]!.outdegree ≤ huge then u :: if popvexist[u]! then [] else g.beside u else []

end Graph

section Loops
variable {g : Graph} {huge u v : Nat} {h : UnitHeap}

theorem ahead_loop (hg : g.Valid) (hv : v < g.vsize) (step : Nat → UnitHeap → Option UnitHeap)
    (h : UnitHeap) :
    g.forAhead huge v step h = (g.ahead huge v).foldlM (fun h w => step w h) h := by
  rw [Graph.forAhead, hg.read_vertex hv.le, some_bind, hg.forOut_eq hv, Graph.ahead]
  split_ifs <;> rfl

theorem enterFirst_eq (hg : g.Valid) (hv : v < g.vsize) (h : UnitHeap) :
    g.enterFirst huge v h = ((g.ins v).flatMap (g.through huge) ++ g.ahead huge v).foldlM
      (fun h w => bump w h) h := by
  rw [Graph.enterFirst, hg.forIn_eq hv, List.foldlM_append, foldlM_flatMap]
  have hbody : ∀ u ∈ g.ins v, ∀ h : UnitHeap,
      (do let outdegree := (← g.graph[u]?).outdegree
          if outdegree ≤ huge then
            let h ← bump u h
            if 1 < outdegree then g.forOut u bump h else pure h
          else pure h) = (g.through huge u).foldlM (fun h w => bump w h) h := by
    intro u hu h
    have hun := hg.ins_lt hv hu
    rw [hg.read_vertex hun.le, some_bind, Graph.through]
    simp only
    split_ifs with hsmall hmany
    · rw [List.foldlM_cons]
      refine congrArg (bump u h >>= ·) (funext fun h => ?_)
      rw [hg.forOut_eq hun, Graph.beside, if_pos hmany]
    · rw [List.foldlM_cons]
      refine congrArg (bump u h >>= ·) (funext fun h => ?_)
      rw [Graph.beside, if_neg hmany]
      rfl
    · rfl
  rw [foldlM_congr_mem hbody]
  exact congrArg (_ >>= ·) (funext fun h => ahead_loop hg hv bump h)

theorem leave_loop (hg : g.Valid) (v : Nat) (us : List Nat) (hus : ∀ u ∈ us, u < g.vsize)
    {h' : UnitHeap} {marks : Array Bool} (hsize : marks.size = g.vsize)
    (hrun : (us.flatMap (g.losing huge v)).foldlM (fun h w => drop w h) h = some h') :
    ∃ marks', us.foldlM (fun st u => g.leaveStep huge v u st) (h, marks) = some (h', marks') ∧
      marks'.size = g.vsize ∧
      ∀ u < g.vsize, marks'[u]! = (marks[u]! || decide (u ∈ us ∧ g.Shared huge v u)) := by
  induction us generalizing h marks with
  | nil =>
    cases hrun
    exact ⟨marks, rfl, hsize, fun u _ => by simp⟩
  | cons e us ih =>
    have he := hus e List.mem_cons_self
    have hrest (u : Nat) (hu : u ∈ us) := hus u (List.mem_cons_of_mem e hu)
    rw [List.flatMap_cons, List.foldlM_append] at hrun
    obtain ⟨h₁, hfirst, hrun⟩ := Option.bind_eq_some_iff.mp hrun
    -- what the round of `e` does to the queue and to the marks
    have hstep : ∃ marks₁, g.leaveStep huge v e (h, marks) = some (h₁, marks₁) ∧
        marks₁.size = g.vsize ∧ ∀ u < g.vsize,
          marks₁[u]! = (marks[u]! || decide (u = e ∧ g.Shared huge v u)) := by
      have hkeep (hno : ¬ g.Shared huge v e) (u : Nat) :
          marks[u]! = (marks[u]! || decide (u = e ∧ g.Shared huge v u)) := by
        have hfalse : ¬(u = e ∧ g.Shared huge v u) := fun hs => hno (hs.1 ▸ hs.2)
        rw [decide_eq_false hfalse, Bool.or_false]
      simp only [Graph.leaveStep, hg.read_vertex he.le, hg.read_vertex he, some_bind]
      rw [Graph.losing] at hfirst
      by_cases hsmall : g.graph[e]!.outdegree ≤ huge
      · rw [if_pos hsmall] at hfirst ⊢
        rw [List.foldlM_cons] at hfirst
        obtain ⟨h₀, hdrop, hfirst⟩ := Option.bind_eq_some_iff.mp hfirst
        rw [hdrop, some_bind]
        by_cases hmany : 1 < g.graph[e]!.outdegree
        · rw [if_pos hmany, hg.search he, some_bind]
          by_cases hv : v ∈ g.outs e
          · rw [if_neg fun hs => hs.2 hv] at hfirst
            cases hfirst
            have hlt : e < marks.size := hsize ▸ he
            rw [decide_eq_true hv, if_pos rfl, store_eq hlt, some_bind]
            refine ⟨_, rfl, by simpa using hsize, fun u _ => ?_⟩
            rw [put_get hlt]
            by_cases hue : u = e
            · subst hue
              have hshared : u = u ∧ g.Shared huge v u := ⟨rfl, hsmall, hmany, hv⟩
              rw [if_pos rfl, decide_eq_true hshared, Bool.or_true]
            · rw [if_neg hue, decide_eq_false fun hs => hue hs.1, Bool.or_false]
          · rw [if_pos ⟨hmany, hv⟩] at hfirst
            rw [decide_eq_false hv, if_neg Bool.false_ne_true, hg.forOut_eq he, hfirst]
            exact ⟨marks, rfl, hsize, fun u _ => hkeep (fun hs => hv hs.2.2) u⟩
        · rw [if_neg fun hs => hmany hs.1] at hfirst
          cases hfirst
          rw [if_neg hmany]
          exact ⟨marks, rfl, hsize, fun u _ => hkeep (fun hs => hmany hs.2.1) u⟩
      · rw [if_neg hsmall] at hfirst ⊢
        cases hfirst
        exact ⟨marks, rfl, hsize, fun u _ => hkeep (fun hs => hsmall hs.1) u⟩
    obtain ⟨marks₁, hstep, hsize₁, hmarks₁⟩ := hstep
    obtain ⟨marks', hloop, hsize', hmarks'⟩ := ih hrest hsize₁ hrun
    refine ⟨marks', ?_, hsize', fun u hu => ?_⟩
    · rw [List.foldlM_cons, hstep]
      exact hloop
    · rw [hmarks' u hu, hmarks₁ u hu, Bool.or_assoc, ← Bool.decide_or]
      congr 2
      rw [List.mem_cons, or_and_right]

theorem enter_loop (hg : g.Valid) (us : List Nat) (hus : ∀ u ∈ us, u < g.vsize) (hd : us.Nodup)
    {h' : UnitHeap} {marks : Array Bool} (hsize : marks.size = g.vsize)
    (hrun : (us.flatMap (g.gaining huge marks)).foldlM (fun h w => bump w h) h = some h') :
    ∃ marks', us.foldlM (fun st u => g.enterStep huge u st) (h, marks) = some (h', marks') ∧
      marks'.size = g.vsize ∧ ∀ u < g.vsize,
        marks'[u]! = (marks[u]! && !decide (u ∈ us ∧ g.graph[u]!.outdegree ≤ huge)) := by
  induction us generalizing h marks with
  | nil =>
    cases hrun
    exact ⟨marks, rfl, hsize, fun u _ => by simp⟩
  | cons e us ih =>
    have he := hus e List.mem_cons_self
    obtain ⟨heus, hd'⟩ := List.nodup_cons.mp hd
    have hrest (u : Nat) (hu : u ∈ us) := hus u (List.mem_cons_of_mem e hu)
    rw [List.flatMap_cons, List.foldlM_append] at hrun
    obtain ⟨h₁, hfirst, hrun⟩ := Option.bind_eq_some_iff.mp hrun
    have hstep : ∃ marks₁, g.enterStep huge e (h, marks) = some (h₁, marks₁) ∧
        marks₁.size = g.vsize ∧ ∀ u < g.vsize,
          marks₁[u]! = (marks[u]! && !decide (u = e ∧ g.graph[u]!.outdegree ≤ huge)) := by
      simp only [Graph.enterStep, hg.read_vertex he.le, some_bind]
      rw [Graph.gaining] at hfirst
      by_cases hsmall : g.graph[e]!.outdegree ≤ huge
      · have hlt : e < marks.size := hsize ▸ he
        rw [if_pos hsmall] at hfirst ⊢
        rw [List.foldlM_cons] at hfirst
        obtain ⟨h₀, hbump, hfirst⟩ := Option.bind_eq_some_iff.mp hfirst
        rw [hbump, some_bind, read_eq hlt, some_bind]
        cases hmark : marks[e]! with
        | true =>
          rw [hmark] at hfirst
          cases hfirst
          rw [if_pos rfl, store_eq hlt, some_bind]
          refine ⟨_, rfl, by simpa using hsize, fun u _ => ?_⟩
          rw [put_get hlt]
          by_cases hue : u = e
          · have htrue : u = e ∧ g.graph[u]!.outdegree ≤ huge := ⟨hue, hue ▸ hsmall⟩
            rw [if_pos hue, decide_eq_true htrue, Bool.not_true, Bool.and_false]
          · rw [if_neg hue, decide_eq_false fun hs => hue hs.1, Bool.not_false, Bool.and_true]
        | false =>
          rw [hmark, if_neg Bool.false_ne_true] at hfirst
          rw [if_neg Bool.false_ne_true]
          refine ⟨marks, ?_, hsize, fun u _ => ?_⟩
          · rw [Graph.beside] at hfirst
            split_ifs with hmany
            · rw [if_pos hmany] at hfirst
              rw [hg.forOut_eq he, hfirst]
              rfl
            · rw [if_neg hmany] at hfirst
              cases hfirst
              rfl
          · by_cases hue : u = e
            · rw [hue, hmark, Bool.false_and]
            · rw [decide_eq_false fun hs => hue hs.1, Bool.not_false, Bool.and_true]
      · rw [if_neg hsmall] at hfirst ⊢
        cases hfirst
        refine ⟨marks, rfl, hsize, fun u _ => ?_⟩
        have hfalse : ¬(u = e ∧ g.graph[u]!.outdegree ≤ huge) := fun hs => hsmall (hs.1 ▸ hs.2)
        rw [decide_eq_false hfalse, Bool.not_false, Bool.and_true]
    obtain ⟨marks₁, hstep, hsize₁, hmarks₁⟩ := hstep
    have hsame : us.flatMap (g.gaining huge marks₁) = us.flatMap (g.gaining huge marks) := by
      refine List.flatMap_congr fun u hu => ?_
      have hue : u ≠ e := fun he => heus (he ▸ hu)
      rw [Graph.gaining, Graph.gaining, hmarks₁ u (hrest u hu), decide_eq_false fun hs => hue hs.1,
        Bool.not_false, Bool.and_true]
    rw [← hsame] at hrun
    obtain ⟨marks', hloop, hsize', hmarks'⟩ := ih hrest hd' hsize₁ hrun
    refine ⟨marks', ?_, hsize', fun u hu => ?_⟩
    · rw [List.foldlM_cons, hstep]
      exact hloop
    · rw [hmarks' u hu, hmarks₁ u hu, Bool.and_assoc, ← Bool.not_or, ← Bool.decide_or]
      congr 3
      rw [List.mem_cons, or_and_right]

end Loops

section Counts
variable {g : Graph} {huge u v w x : Nat}

theorem count_touched (v w : Nat) : (g.touched huge v).count w =
    (g.ahead huge v).count w + ((g.ins v).map fun u => (g.through huge u).count w).sum := by
  rw [Graph.touched, List.count_append, List.count_flatMap]
  rfl

theorem ahead_lt (hg : g.Valid) (hv : v < g.vsize) (hw : w ∈ g.ahead huge v) : w < g.vsize := by
  rw [Graph.ahead] at hw
  split_ifs at hw
  · exact hg.outs_lt hv hw
  · exact absurd hw List.not_mem_nil

theorem through_lt (hg : g.Valid) (hu : u < g.vsize) (hw : w ∈ g.through huge u) :
    w < g.vsize := by
  rw [Graph.through, Graph.beside] at hw
  split_ifs at hw
  · cases List.mem_cons.mp hw with
    | inl he => rwa [he]
    | inr hw => exact hg.outs_lt hu hw
  · rwa [List.mem_singleton.mp hw]
  · exact absurd hw List.not_mem_nil

theorem touched_lt (hg : g.Valid) (hv : v < g.vsize) (hw : w ∈ g.touched huge v) :
    w < g.vsize := by
  cases List.mem_append.mp hw with
  | inl hw => exact ahead_lt hg hv hw
  | inr hw =>
    obtain ⟨u, hu, hw⟩ := List.mem_flatMap.mp hw
    exact through_lt hg (hg.ins_lt hv hu) hw

theorem count_through (hg : g.Valid) (hu : u < g.vsize) (w : Nat) :
    (g.through huge u).count w ≤ (if u = w then 1 else 0) + 1 := by
  have houts : (g.outs u).count w ≤ 1 := List.nodup_iff_count_le_one.mp (hg.outs_nodup hu) w
  rw [Graph.through, Graph.beside]
  split_ifs <;> simp_all

theorem count_touched_le (hg : g.Valid) (hv : v < g.vsize) (w : Nat) :
    (g.touched huge v).count w ≤ g.vsize + 2 := by
  have hahead : (g.ahead huge v).count w ≤ 1 := by
    rw [Graph.ahead]
    split_ifs
    · exact List.nodup_iff_count_le_one.mp (hg.outs_nodup hv) w
    · exact Nat.zero_le 1
  have hrow (us : List Nat) (hus : ∀ u ∈ us, u < g.vsize) :
      (us.map fun u => (g.through huge u).count w).sum ≤ us.count w + us.length := by
    induction us with
    | nil => exact le_rfl
    | cons u us ih =>
      have hstep : (g.through huge u).count w ≤ (if u = w then 1 else 0) + 1 :=
        count_through hg (hus u List.mem_cons_self) w
      have hrest := ih fun u hu => hus u (List.mem_cons_of_mem _ hu)
      simp only [List.map_cons, List.sum_cons, List.count_cons, List.length_cons, beq_iff_eq]
      omega
  have hins := hrow (g.ins v) fun u hu => hg.ins_lt hv hu
  have hone : (g.ins v).count w ≤ 1 := List.nodup_iff_count_le_one.mp (hg.distinct v hv) w
  have hlen : (g.ins v).length ≤ g.vsize := hg.ins_length hv ▸ hg.indegree_le hv
  rw [count_touched]
  omega

theorem windowScore_le (hg : g.Valid) {window : List Nat} (hin : ∀ v ∈ window, v < g.vsize)
    (w : Nat) : g.windowScore huge window w ≤ window.length * (g.vsize + 2) := by
  induction window with
  | nil => exact Nat.zero_le _
  | cons v window ih =>
    have hv : (g.touched huge v).count w ≤ g.vsize + 2 :=
      count_touched_le hg (hin v List.mem_cons_self) w
    have hrest := ih fun u hu => hin u (List.mem_cons_of_mem _ hu)
    rw [Graph.windowScore] at hrest ⊢
    rw [List.map_cons, List.sum_cons, List.length_cons, Nat.succ_mul]
    omega

theorem windowScore_cons (window : List Nat) (v w : Nat) :
    g.windowScore huge (v :: window) w =
      (g.touched huge v).count w + g.windowScore huge window w := by
  rw [Graph.windowScore, List.map_cons, List.sum_cons, Graph.windowScore]

theorem windowScore_concat (window : List Nat) (v w : Nat) :
    g.windowScore huge (window ++ [v]) w =
      g.windowScore huge window w + (g.touched huge v).count w := by
  rw [Graph.windowScore, List.map_append, List.sum_append, List.map_singleton, List.sum_singleton,
    Graph.windowScore]

theorem sum_ite (l : List Nat) (p : Nat → Prop) [DecidablePred p] (f : Nat → Nat) :
    (l.map fun u => if p u then f u else 0).sum = ((l.filter p).map f).sum := by
  induction l with
  | nil => rfl
  | cons u l ih =>
    rw [List.map_cons, List.sum_cons, ih, List.filter_cons]
    by_cases hu : p u
    · rw [if_pos hu, if_pos (decide_eq_true hu), List.map_cons, List.sum_cons]
    · rw [if_neg hu, if_neg (by simpa using hu), Nat.zero_add]

theorem count_losing (v u w : Nat) : (g.through huge u).count w =
    (g.losing huge v u).count w + if g.Shared huge v u then (g.outs u).count w else 0 := by
  by_cases hsmall : g.graph[u]!.outdegree ≤ huge
  · rw [Graph.through, Graph.losing, if_pos hsmall, if_pos hsmall, Graph.beside]
    by_cases hmany : 1 < g.graph[u]!.outdegree
    · by_cases hv : v ∈ g.outs u
      · have hshared : g.Shared huge v u := ⟨hsmall, hmany, hv⟩
        rw [if_pos hmany, if_neg fun hs => hs.2 hv, if_pos hshared, List.count_cons,
          List.count_cons, List.count_nil]
        omega
      · rw [if_pos hmany, if_pos ⟨hmany, hv⟩, if_neg fun hs : g.Shared huge v u => hv hs.2.2,
          Nat.add_zero]
    · rw [if_neg hmany, if_neg fun hs => hmany hs.1,
        if_neg fun hs : g.Shared huge v u => hmany hs.2.1, Nat.add_zero]
  · rw [Graph.through, Graph.losing, if_neg hsmall, if_neg hsmall,
      if_neg fun hs : g.Shared huge v u => hsmall hs.1]
    rfl

theorem count_gaining {marks : Array Bool} (hmarks : marks[u]! = decide (u ∈ g.ins x ∧
    g.Shared huge v u)) (hv : v ∈ g.outs u) (w : Nat) : (g.through huge u).count w =
      (g.gaining huge marks u).count w +
        if u ∈ g.ins x ∧ g.Shared huge v u then (g.outs u).count w else 0 := by
  rw [Graph.through, Graph.gaining, hmarks, Graph.beside]
  by_cases hsmall : g.graph[u]!.outdegree ≤ huge
  · rw [if_pos hsmall, if_pos hsmall]
    by_cases hmany : 1 < g.graph[u]!.outdegree
    · by_cases hx : u ∈ g.ins x
      · have hboth : u ∈ g.ins x ∧ g.Shared huge v u := ⟨hx, hsmall, hmany, hv⟩
        rw [if_pos hmany, if_pos (decide_eq_true hboth), if_pos hboth, List.count_cons,
          List.count_cons, List.count_nil]
        omega
      · have hno : ¬(u ∈ g.ins x ∧ g.Shared huge v u) := fun hs => hx hs.1
        rw [decide_eq_false hno, if_neg Bool.false_ne_true, if_neg hno, Nat.add_zero]
    · have hno : ¬(u ∈ g.ins x ∧ g.Shared huge v u) := fun hs => hmany hs.2.2.1
      rw [if_neg hmany, if_neg hno, Nat.add_zero, ite_self]
  · have hno : ¬(u ∈ g.ins x ∧ g.Shared huge v u) := fun hs => hsmall hs.2.1
    rw [if_neg hsmall, if_neg hsmall, if_neg hno]
    rfl

/-- What the in-neighbours left out would have taken away and given back is the same. -/
theorem exchange (hg : g.Valid) (hx : x < g.vsize) (hv : v < g.vsize) {marks : Array Bool}
    (hmarks : ∀ u < g.vsize, marks[u]! = decide (u ∈ g.ins x ∧ g.Shared huge v u)) (w : Nat) :
    (g.touched huge x).count w +
        (g.ahead huge v ++ (g.ins v).flatMap (g.gaining huge marks)).count w =
      (g.ahead huge x ++ (g.ins x).flatMap (g.losing huge v)).count w +
        (g.touched huge v).count w := by
  have hlose : ((g.ins x).map fun u => (g.through huge u).count w).sum =
      ((g.ins x).map fun u => (g.losing huge v u).count w).sum +
        (((g.ins x).filter (g.Shared huge v)).map fun u => (g.outs u).count w).sum := by
    rw [← sum_ite, ← List.sum_map_add]
    exact congrArg List.sum (List.map_congr_left fun u _ => count_losing v u w)
  have hgain : ((g.ins v).map fun u => (g.through huge u).count w).sum =
      ((g.ins v).map fun u => (g.gaining huge marks u).count w).sum +
        (((g.ins v).filter fun u => u ∈ g.ins x ∧ g.Shared huge v u).map
          fun u => (g.outs u).count w).sum := by
    rw [← sum_ite, ← List.sum_map_add]
    refine congrArg List.sum (List.map_congr_left fun u hu => ?_)
    have hun := hg.ins_lt hv hu
    exact count_gaining (hmarks u hun) ((hg.transposed u hun v hv).mp hu) w
  have hperm : ((g.ins x).filter (g.Shared huge v)).Perm
      ((g.ins v).filter fun u => u ∈ g.ins x ∧ g.Shared huge v u) := by
    refine (List.perm_ext_iff_of_nodup ((hg.distinct x hx).filter _)
      ((hg.distinct v hv).filter _)).mpr fun u => ?_
    simp only [List.mem_filter, decide_eq_true_eq]
    constructor
    · rintro ⟨hu, hs⟩
      exact ⟨(hg.transposed u (hg.ins_lt hx hu) v hv).mpr hs.2.2, hu, hs⟩
    · rintro ⟨_, hu, hs⟩
      exact ⟨hu, hs⟩
  have hsame := (hperm.map fun u => (g.outs u).count w).sum_eq
  rw [count_touched, count_touched, List.count_append, List.count_append, List.count_flatMap,
    List.count_flatMap, hlose, hgain, hsame]
  simp only [Function.comp_def]
  omega

theorem losing_le (v u w : Nat) :
    (g.losing huge v u).count w ≤ (g.through huge u).count w := by
  rw [count_losing v u w]
  exact Nat.le_add_right _ _

theorem count_lost_le (x v w : Nat) :
    (g.ahead huge x ++ (g.ins x).flatMap (g.losing huge v)).count w ≤
      (g.touched huge x).count w := by
  rw [count_touched, List.count_append, List.count_flatMap]
  exact Nat.add_le_add_left (List.sum_le_sum fun u _ => losing_le v u w) _

end Counts

end GraphReorder.Gorder
