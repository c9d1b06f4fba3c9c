import GraphReorder.Gorder.Start
import GraphReorder.Gorder.Window
import GraphReorder.Library.Permutation

/-! `GorderGreedy` from end to end: the order that it returns, and the scores it goes by. -/
namespace GraphReorder.Gorder
open Library

section Recent
variable {α : Type}

def recent (window : Nat) (order : List α) : List α := order.drop (order.length - window)

theorem recent_length (window : Nat) (order : List α) :
    (recent window order).length ≤ window := by
  rw [recent, List.length_drop]
  omega

theorem recent_grow {window : Nat} {order : List α} (h : order.length < window) (v : α) :
    recent window (order ++ [v]) = recent window order ++ [v] := by
  have h₁ : order.length - window = 0 := by omega
  have h₂ : (order ++ [v]).length - window = 0 := by
    rw [List.length_append]
    simp only [List.length_singleton]
    omega
  rw [recent, recent, h₁, h₂]
  rfl

theorem recent_slide {window : Nat} {order : List α} (hpos : 0 < window)
    (h : window ≤ order.length) (v : α) :
    ∃ x rest, order[order.length - window]? = some x ∧ recent window order = x :: rest ∧
      recent window (order ++ [v]) = rest ++ [v] := by
  have hlt : order.length - window < order.length := by omega
  refine ⟨order[order.length - window], order.drop (order.length - window + 1),
    List.getElem?_eq_getElem hlt, List.drop_eq_getElem_cons hlt, ?_⟩
  have hlen : (order ++ [v]).length - window = order.length - window + 1 := by
    rw [List.length_append]
    simp only [List.length_singleton]
    omega
  rw [recent, hlen, List.drop_append_of_le_length (by omega)]

end Recent

section Rounds
variable {g : Graph} {window count : Nat} {zero : Array Nat} {st : Greedy}
variable {before : Option Int}

def scoreCap (g : Graph) (window : Nat) : Int := ((window + 1) * (g.vsize + 2) : Nat)

/-- After `count` rounds: every vertex is placed, or without any edge, or in the queue, and the
scores are those of the window. -/
structure Placing (g : Graph) (window : Nat) (zero : Array Nat) (count : Nat) (st : Greedy) :
    Prop where
  placed : st.order.size = count + 1
  queue : ∃ l, (st.order.toList ++ zero.toList ++ l).Perm (List.range g.vsize) ∧
    Tracks g.vsize (scoreCap g window) st.unitheap l fun w =>
      g.windowScore g.vsize.sqrt (recent window st.order.toList) w
  marks : st.popvexist.size = g.vsize ∧ ∀ u < g.vsize, st.popvexist[u]! = false

theorem windowScore_cap (hg : g.Valid) {members : List Nat} (hin : ∀ v ∈ members, v < g.vsize)
    (hlen : members.length ≤ window) (huge w : Nat) :
    g.windowScore huge members w ≤ window * (g.vsize + 2) :=
  (windowScore_le hg hin w).trans (Nat.mul_le_mul_right _ hlen)

/-- The vertex that leaves takes what it brought, but for the in-neighbours that it shares. -/
theorem leaveWindow_spec (hg : g.Valid) (huge : Nat) {x : Nat} (hx : x < g.vsize) (v : Nat)
    {h : UnitHeap} {l : List Nat} {score : Nat → Int} {cap : Int} {marks : Array Bool}
    (ht : Tracks g.vsize cap h l score) (hsize : marks.size = g.vsize)
    (hclear : ∀ u < g.vsize, marks[u]! = false)
    (h0 : ∀ w < g.vsize, ((g.touched huge x).count w : Int) ≤ score w)
    (hle : ∀ w < g.vsize, score w ≤ cap) (hcap : cap < halfMax) :
    ∃ h' marks', g.leaveWindow huge x v (h, marks) = some (h', marks') ∧
      Tracks g.vsize cap h' l (fun w => score w -
        ((g.ahead huge x ++ (g.ins x).flatMap (g.losing huge v)).count w : Nat)) ∧
      marks'.size = g.vsize ∧
      ∀ u < g.vsize, marks'[u]! = decide (u ∈ g.ins x ∧ g.Shared huge v u) := by
  have hlost (w : Nat) (hw : w < g.vsize) : ((g.ahead huge x ++
      (g.ins x).flatMap (g.losing huge v)).count w : Int) ≤ score w :=
    (Int.ofNat_le.mpr (count_lost_le x v w)).trans (h0 w hw)
  have hin (w : Nat) (hw : w ∈ g.ahead huge x ++ (g.ins x).flatMap (g.losing huge v)) :
      w < g.vsize := by
    have hcount : 0 < (g.touched huge x).count w :=
      (List.count_pos_iff.mpr hw).trans_le (count_lost_le x v w)
    exact touched_lt hg hx (List.count_pos_iff.mp hcount)
  obtain ⟨h', hrun, ht'⟩ := ht.dropAll _ hin hlost hle hcap
  rw [List.foldlM_append] at hrun
  obtain ⟨h₁, hahead, hins⟩ := Option.bind_eq_some_iff.mp hrun
  obtain ⟨marks', hloop, hsize', hmarks'⟩ := leave_loop hg v (g.ins x)
    (fun u hu => hg.ins_lt hx hu) hsize hins
  refine ⟨h', marks', ?_, ht', hsize', fun u hu => ?_⟩
  · simp only [Graph.leaveWindow]
    rw [ahead_loop hg hx drop h, hahead, some_bind, hg.forIn_eq hx]
    exact hloop
  · rw [hmarks' u hu, hclear u hu, Bool.false_or]

/-- The vertex that enters brings what it brings, but for the marks. -/
theorem enterWindow_spec (hg : g.Valid) (huge : Nat) {v : Nat} (hv : v < g.vsize)
    {h : UnitHeap} {l : List Nat} {score : Nat → Int} {cap : Int} {marks : Array Bool}
    (ht : Tracks g.vsize cap h l score) (hsize : marks.size = g.vsize)
    (h0 : ∀ w < g.vsize, 0 ≤ score w)
    (hle : ∀ w < g.vsize, score w +
      (g.ahead huge v ++ (g.ins v).flatMap (g.gaining huge marks)).count w ≤ cap)
    (hcap : cap < halfMax) :
    ∃ h' l' marks', g.enterWindow huge v (h, marks) = some (h', marks') ∧ l'.Perm l ∧
      Tracks g.vsize cap h' l' (fun w => score w +
        ((g.ahead huge v ++ (g.ins v).flatMap (g.gaining huge marks)).count w : Nat)) ∧
      marks'.size = g.vsize ∧ ∀ u < g.vsize,
        marks'[u]! = (marks[u]! && !decide (u ∈ g.ins v ∧ g.graph[u]!.outdegree ≤ huge)) := by
  have hin (w : Nat) (hw : w ∈ g.ahead huge v ++ (g.ins v).flatMap (g.gaining huge marks)) :
      w < g.vsize := by
    cases List.mem_append.mp hw with
    | inl hw => exact ahead_lt hg hv hw
    | inr hw =>
      obtain ⟨u, hu, hw⟩ := List.mem_flatMap.mp hw
      have hun := hg.ins_lt hv hu
      rw [Graph.gaining] at hw
      split_ifs at hw
      · rwa [List.mem_singleton.mp hw]
      · have hthrough : w ∈ g.through huge u := by
          rwa [Graph.through, if_pos (by assumption)]
        exact through_lt hg hun hthrough
      · exact absurd hw List.not_mem_nil
  obtain ⟨h', l', hrun, hp, ht'⟩ := ht.bumpAll _ hin h0 hle hcap
  rw [List.foldlM_append] at hrun
  obtain ⟨h₁, hahead, hins⟩ := Option.bind_eq_some_iff.mp hrun
  obtain ⟨marks', hloop, hsize', hmarks'⟩ := enter_loop hg (g.ins v)
    (fun u hu => hg.ins_lt hv hu) (hg.distinct v hv) hsize hins
  refine ⟨h', l', marks', ?_, hp, ht', hsize', hmarks'⟩
  simp only [Graph.enterWindow]
  rw [ahead_loop hg hv bump h, hahead, some_bind, hg.forIn_eq hv]
  exact hloop

theorem gaining_unmarked {huge v : Nat} {marks : Array Bool}
    (hclear : ∀ u ∈ g.ins v, marks[u]! = false) :
    g.ahead huge v ++ (g.ins v).flatMap (g.gaining huge marks) = g.touched huge v := by
  rw [Graph.touched]
  refine congrArg (g.ahead huge v ++ ·) (List.flatMap_congr fun u hu => ?_)
  rw [Graph.gaining, Graph.through, hclear u hu, if_neg Bool.false_ne_true]

/-- A round: a vertex is taken out, another one leaves the window, and it enters. -/
theorem greedyStep_eq {huge v : Nat} {h₁ h₂ : UnitHeap} {left entered : UnitHeap × Array Bool}
    (hrun : st.unitheap.extractMax before = some ((v : Int), h₁)) (hmark : mark v h₁ = some h₂)
    (hleave : (if window ≤ count + 1 then do
        g.leaveWindow huge (← (st.order.push v)[count + 1 - window]?) v (h₂, st.popvexist)
      else pure (h₂, st.popvexist)) = some left)
    (henter : g.enterWindow huge v left = some entered) :
    g.greedyStep before huge window count st = some ⟨entered.1, st.order.push v, entered.2⟩ := by
  simp only [Graph.greedyStep, hrun, some_bind, Int.toNat_natCast, hmark]
  by_cases hfull : window ≤ count + 1
  · rw [if_pos hfull] at hleave ⊢
    obtain ⟨x, hx, hleave⟩ := Option.bind_eq_some_iff.mp hleave
    simp only [hx, some_bind, hleave, henter]
    rfl
  · rw [if_neg hfull] at hleave ⊢
    cases hleave
    simp only [pure_bind, henter, some_bind]
    rfl

theorem Placing.step (hg : g.Valid) (hwindow : 0 < window) (hcap : scoreCap g window < halfMax)
    (h : Placing g window zero count st) (hcount : count < g.vsize - 1 - zero.size)
    (hbefore : ReadsBefore before (g.vsize - 1 - zero.size - count)) :
    ∃ st', g.greedyStep before g.vsize.sqrt window count st = some st' ∧
      Placing g window zero (count + 1) st' := by
  obtain ⟨hplaced, ⟨l, hperm, ht⟩, hsize, hclear⟩ := h
  have hlen := hperm.length_eq
  simp only [List.length_append, Array.length_toList, List.length_range, hplaced] at hlen
  have hleft : l.length = g.vsize - 1 - zero.size - count := by
    change count + 1 + zero.size + l.length = g.vsize at hlen
    omega
  have hne : l ≠ [] := fun he => by
    rw [he, List.length_nil] at hleft
    omega
  have hall (w : Nat) (hw : w ∈ st.order.toList) : w < g.vsize :=
    List.mem_range.mp (hperm.mem_iff.mp (by simp [hw]))
  have hmembers (w : Nat) (hw : w ∈ recent window st.order.toList) : w < g.vsize :=
    hall w (List.mem_of_mem_drop hw)
  have hbound (members : List Nat) (hin : ∀ w ∈ members, w < g.vsize)
      (hshort : members.length ≤ window) (w : Nat) :
      (g.windowScore g.vsize.sqrt members w : Int) ≤ (window * (g.vsize + 2) : Nat) :=
    Int.ofNat_le.mpr (windowScore_cap hg hin hshort _ w)
  have hroom : scoreCap g window = (window * (g.vsize + 2) : Nat) + (g.vsize + 2 : Nat) := by
    rw [scoreCap, Nat.succ_mul]
    exact Int.natCast_add _ _
  obtain ⟨v, h₁, h₂, rest, hrun, hmark, hperm', ht₂, _⟩ := ht.place (hleft ▸ hbefore) hne
    (fun w _ => Int.natCast_nonneg _) fun w _ => by
      have := hbound _ hmembers (recent_length _ _) w
      omega
  have hv : v < g.vsize := List.mem_range.mp (hperm.mem_iff.mp
    (List.mem_append_right _ (hperm'.mem_iff.mp List.mem_cons_self)))
  have hnext {l' : List Nat} (hl : l'.Perm rest) :
      ((st.order.push v).toList ++ zero.toList ++ l').Perm (List.range g.vsize) := by
    refine List.Perm.trans ?_ hperm
    rw [Array.toList_push, List.append_assoc, List.append_assoc, List.append_assoc]
    refine List.Perm.append_left _ ?_
    have hmove : (v :: (zero.toList ++ l')).Perm (zero.toList ++ (v :: l')) :=
      List.perm_middle.symm
    exact hmove.trans (List.Perm.append_left _ ((hl.cons v).trans hperm'))
  have htouch (w : Nat) : (g.touched g.vsize.sqrt v).count w ≤ g.vsize + 2 :=
    count_touched_le hg hv w
  by_cases hfull : window ≤ count + 1
  · -- the window is full: its first member `x` leaves
    have hlong : window ≤ st.order.toList.length := by rwa [Array.length_toList, hplaced]
    obtain ⟨x, members, hx, hold, hnew⟩ := recent_slide hwindow hlong v
    have hxn : x < g.vsize := hmembers x (hold ▸ List.mem_cons_self)
    have hread : (st.order.push v)[count + 1 - window]? = some x := by
      rw [Array.length_toList, hplaced, Array.getElem?_toList] at hx
      rw [Array.getElem?_push_lt (by omega)]
      rwa [Array.getElem?_eq_getElem (by omega)] at hx
    rw [hold] at ht₂
    have hscore (w : Nat) : g.windowScore g.vsize.sqrt (x :: members) w =
        (g.touched g.vsize.sqrt x).count w + g.windowScore g.vsize.sqrt members w :=
      windowScore_cons members x w
    have hlost (w : Nat) : (g.ahead g.vsize.sqrt x ++ (g.ins x).flatMap
        (g.losing g.vsize.sqrt v)).count w ≤ (g.touched g.vsize.sqrt x).count w :=
      count_lost_le x v w
    obtain ⟨h₃, marks, hleave, ht₃, hsize₃, hmarks₃⟩ := leaveWindow_spec hg g.vsize.sqrt hxn v ht₂
      hsize hclear (fun w _ => by rw [hscore]; omega)
      (fun w _ => by
        have := hbound _ hmembers (recent_length _ _) w
        rw [hold] at this
        omega) hcap
    have hswap := exchange hg hxn hv hmarks₃
    obtain ⟨h₄, l₄, marks', henter, hp₄, ht₄, hsize₄, hmarks₄⟩ :=
      enterWindow_spec hg g.vsize.sqrt hv ht₃ hsize₃ (fun w _ => by
        have := hlost w
        have := hscore w
        omega)
      (fun w hw => by
        have := hswap w
        have := hscore w
        have := htouch w
        have := hbound (x :: members) (hold ▸ hmembers) (hold ▸ recent_length _ _) w
        omega) hcap
    refine ⟨⟨h₄, st.order.push v, marks'⟩, ?_, ?_, ⟨l₄, hnext hp₄, ht₄.congr fun w _ => ?_⟩,
      hsize₄, fun u hu => ?_⟩
    · refine greedyStep_eq hrun hmark ?_ henter
      rw [if_pos hfull, hread]
      exact hleave
    · simp only [Array.size_push, hplaced]
    · rw [Array.toList_push, hnew, windowScore_concat]
      have := hswap w
      have := hscore w
      have := hlost w
      omega
    · rw [hmarks₄ u hu, hmarks₃ u hu]
      by_cases hs : u ∈ g.ins x ∧ g.Shared g.vsize.sqrt v u
      · have hback : u ∈ g.ins v ∧ g.graph[u]!.outdegree ≤ g.vsize.sqrt :=
          ⟨(hg.transposed u hu v hv).mpr hs.2.2.2, hs.2.1⟩
        rw [decide_eq_true hback, Bool.not_true, Bool.and_false]
      · rw [decide_eq_false hs, Bool.false_and]
  · -- the window still grows
    have hshort : st.order.toList.length < window := by
      rw [Array.length_toList, hplaced]
      omega
    have hnew := recent_grow hshort v
    have hgain : g.ahead g.vsize.sqrt v ++
        (g.ins v).flatMap (g.gaining g.vsize.sqrt st.popvexist) = g.touched g.vsize.sqrt v :=
      gaining_unmarked fun u hu => hclear u (hg.ins_lt hv hu)
    obtain ⟨h₄, l₄, marks', henter, hp₄, ht₄, hsize₄, hmarks₄⟩ :=
      enterWindow_spec hg g.vsize.sqrt hv ht₂ hsize (fun w _ => Int.natCast_nonneg _)
      (fun w hw => by
        have := hbound _ hmembers (recent_length _ _) w
        have := htouch w
        rw [hgain]
        omega) hcap
    refine ⟨⟨h₄, st.order.push v, marks'⟩, ?_, ?_, ⟨l₄, hnext hp₄, ht₄.congr fun w _ => ?_⟩,
      hsize₄, fun u hu => ?_⟩
    · refine greedyStep_eq hrun hmark ?_ henter
      rw [if_neg hfull]
      rfl
    · simp only [Array.size_push, hplaced]
    · rw [Array.toList_push, hnew, windowScore_concat, hgain]
      exact Int.natCast_add _ _
    · rw [hmarks₄ u hu, hclear u hu, Bool.false_and]

/-- The loop places as many vertices as it has rounds. Only the last one takes out the last vertex
of the queue. -/
theorem Placing.rounds (hg : g.Valid) (hwindow : 0 < window) (hcap : scoreCap g window < halfMax)
    (h : Placing g window zero 0 st) {m : Nat} (hm : m ≤ g.vsize - 1 - zero.size)
    (hbefore : m = g.vsize - 1 - zero.size → ReadsBefore before 1) :
    ∃ st', forRange 0 m (g.greedyStep before g.vsize.sqrt window) st = some st' ∧
      Placing g window zero m st' :=
  forRange_rule (fun i st => Placing g window zero i st) (Nat.zero_le m) h
    fun _ _ _ hi hI => hI.step hg hwindow hcap (by omega) fun hone => hbefore (by omega) rfl

theorem greedyStart_spec (std : StdSort) (hg : g.Valid) (htwo : 2 ≤ g.vsize) (hspare : g.Spare)
    (hwindow : 0 < window) (hcap : scoreCap g window < halfMax) :
    ∃ st zero, g.greedyStart std = some (st, zero) ∧ zero.size < g.vsize ∧
      Placing g window zero 0 st := by
  have hroom : ((g.vsize + 2 : Nat) : Int) ≤ scoreCap g window :=
    Int.ofNat_le.mpr (Nat.le_mul_of_pos_left (g.vsize + 2) (Nat.succ_pos window))
  have hcap₀ : (g.vsize : Int) ≤ scoreCap g window := by omega
  obtain ⟨h₀, h₁, pick, t, h₂, h₃, l, hload, hrec, hpick, ht, hmark, hdel, hperm, htracks⟩ :=
    start_spec std hg htwo hspare hcap₀
  have htn : t < g.vsize := List.mem_range.mp (hperm.mem_iff.mp (by simp))
  have hcount (w : Nat) : ((g.ins t).flatMap (g.through g.vsize.sqrt) ++
      g.ahead g.vsize.sqrt t).count w = (g.touched g.vsize.sqrt t).count w := by
    rw [Graph.touched, List.count_append, List.count_append, Nat.add_comm]
  obtain ⟨h₄, l', hrun, hp, htracks'⟩ := htracks.bumpAll
    ((g.ins t).flatMap (g.through g.vsize.sqrt) ++ g.ahead g.vsize.sqrt t)
    (fun w hw => touched_lt hg htn (List.count_pos_iff.mp (hcount w ▸ List.count_pos_iff.mpr hw)))
    (fun w _ => le_rfl)
    (fun w _ => by
      have hle : (g.touched g.vsize.sqrt t).count w ≤ g.vsize + 2 := count_touched_le hg htn w
      rw [hcount]
      omega) hcap
  rw [← enterFirst_eq hg htn] at hrun
  refine ⟨⟨h₄, #[t], Array.replicate g.vsize false⟩, pick.zero, ?_, ?_, rfl,
    ⟨l', ?_, htracks'.congr fun w _ => ?_⟩, by simp, fun u hu => replicate_get _ u _ hu⟩
  · simp only [Graph.greedyStart, hload, hrec, hpick, ht, hmark, hdel, hrun, some_bind]
    rfl
  · have hlen := hperm.length_eq
    simp only [List.length_append, List.length_singleton, Array.length_toList,
      List.length_range] at hlen
    omega
  · exact (List.Perm.append_left _ hp).trans hperm
  · have hfirst : recent window [t] = [t] := by
      have hlen : [t].length - window = 0 := by
        rw [List.length_singleton]
        omega
      rw [recent, hlen, List.drop_zero]
    change (g.windowScore g.vsize.sqrt (recent window [t]) w : Int) = _
    rw [hfirst, windowScore_cons, hcount]
    exact (Int.zero_add _).symm

theorem insertZero_perm {order : Array Nat} (h : 0 < order.size) (zero : Array Nat) :
    ∃ order', Graph.insertZero order zero = some order' ∧
      order'.toList.Perm (order.toList ++ zero.toList) := by
  obtain ⟨init, x, hx⟩ : ∃ init x, order.toList = init ++ [x] := by
    rcases List.eq_nil_or_concat order.toList with he | ⟨init, x, he⟩
    · rw [← Array.length_toList, he] at h
      exact absurd h (lt_irrefl 0)
    · exact ⟨init, x, by rw [he, List.concat_eq_append]⟩
  obtain rfl : order = (init ++ [x]).toArray := by rw [← hx]
  have hback : (init ++ [x]).toArray.back? = some x := by simp
  refine ⟨_, by rw [Graph.insertZero, hback]; rfl, ?_⟩
  have hlist : ((((init ++ [x]).toArray.pop ++ zero).push x)).toList =
      init ++ (zero.toList ++ [x]) := by simp
  rw [hlist, List.append_assoc]
  exact List.Perm.append_left _ List.perm_append_comm

end Rounds

section Program
variable (g : Graph) (std : StdSort) (before : Option Int) (window : Nat)

/-- `GorderGreedy` returns, and gives every vertex a place of its own. -/
theorem gorderGreedy_bijOn (hg : g.Valid) (htwo : 2 ≤ g.vsize) (hspare : g.Spare)
    (hwindow : 0 < window) (hcap : scoreCap g window < halfMax) (hbefore : ReadsBefore before 1) :
    ∃ retorder, g.gorderGreedy std before window = some retorder ∧ retorder.size = g.vsize ∧
      Set.BijOn (retorder[·]!) (Set.Iio g.vsize) (Set.Iio g.vsize) := by
  obtain ⟨st, zero, hstart, hzero, hplacing⟩ := greedyStart_spec std hg htwo hspare hwindow hcap
  obtain ⟨st', hloop, hplaced, ⟨l, hperm, _⟩, _⟩ :=
    hplacing.rounds hg hwindow hcap le_rfl fun _ => hbefore
  obtain ⟨order, hinsert, horder⟩ :=
    insertZero_perm (Nat.lt_of_lt_of_eq (Nat.succ_pos _) hplaced.symm) zero
  have hl : l = [] := by
    have hlen := hperm.length_eq
    simp only [List.length_append, Array.length_toList, List.length_range, hplaced] at hlen
    exact List.length_eq_zero_iff.mp (by omega)
  rw [hl, List.append_nil] at hperm
  obtain ⟨hsize, hlt, hinj⟩ := injective_of_perm (horder.trans hperm)
  obtain ⟨retorder, hinvert, hsize', hinv⟩ := forRange_invert (f := fun i => order[i]?)
    (g := fun i => order[i]!) (Array.size_replicate (n := g.vsize) (v := 0))
    (fun i hi => read_eq (hsize.symm ▸ hi)) hlt hinj
  refine ⟨retorder, ?_, hsize', hinv.bijOn⟩
  simp only [Graph.gorderGreedy, hstart, some_bind, hloop, hinsert]
  exact hinvert

end Program

end GraphReorder.Gorder
