import GraphReorder.Gorder.Graph
import GraphReorder.Library.BreadthFirst
import GraphReorder.Library.Permutation
import GraphReorder.Library.StdSort

/-! `RCMOrder`: the vertices in breadth-first order by rising degree, numbered backwards. -/
namespace GraphReorder.Gorder
open Library

structure Search where
  que : List Nat
  BFSflag : Array Bool
  order : Array Nat

namespace Graph

def degree (g : Graph) (v : Nat) : Nat := g.graph[v]!.outdegree + g.graph[v]!.indegree

def visit (v : Nat) (st : Search) : Option Search := do
  if ← st.BFSflag[v]? then pure st
  else pure ⟨st.que ++ [v], ← store st.BFSflag v true, st.order.push v⟩

def searchStep (std : StdSort) (g : Graph) (st : Search) : Option (Search ⊕ Search) := do
  match st.que with
  | [] => pure (.inr st)
  | now :: que => do
    let tmp ← g.forOut now (fun w tmp => some (tmp ++ [w])) []
    let tmp := std.sort (fun a b => decide (g.degree a < g.degree b)) tmp
    pure (.inl (← tmp.foldlM (fun st v => visit v st) { st with que }))

def searchFrom (std : StdSort) (g : Graph) (i : Nat) (st : Search) : Option Search := do
  if ← st.BFSflag[i]? then pure st
  else do loop (searchStep std g) (g.vsize + 1) (← visit i st)

def rcmOrder (std : StdSort) (g : Graph) : Option (Array Nat) := do
  let degreevertex := std.sort (fun a b => decide (g.degree a < g.degree b)) (List.range g.vsize)
  let st ← degreevertex.foldlM (fun st i => g.searchFrom std i st)
    ⟨[], Array.replicate g.vsize false, #[]⟩
  if st.order.size ≠ g.vsize then none
  else forRange 0 st.order.size (fun i retorder => do
    store retorder (← st.order[i]?) (st.order.size - 1 - i)) (Array.replicate g.vsize 0)

end Graph

section Searching
variable {g : Graph} {std : StdSort} {p v : Nat} {st : Search}

def Graph.Edge (g : Graph) (u v : Nat) : Prop := v ∈ g.outs u

/-- One step of a breadth-first search by rising degree. -/
abbrev Graph.Visits (g : Graph) : Nat × List Nat → Nat × List Nat → Prop :=
  Visit (· < g.vsize) g.Edge g.degree

structure Searching (g : Graph) (p : Nat) (st : Search) : Prop where
  queue : st.que = st.order.toList.drop p
  size : st.BFSflag.size = g.vsize
  flag : ∀ v < g.vsize, st.BFSflag[v]! = decide (v ∈ st.order.toList)
  run : Relation.ReflTransGen g.Visits (0, []) (p, st.order.toList)

theorem Searching.sound (hg : g.Outgoing) (h : Searching g p st) :
    BreadthFirst (· < g.vsize) g.Edge g.degree (p, st.order.toList) :=
  BreadthFirst.start.run (fun _ _ hu hw => hg.outs_lt hu hw) h.run

theorem visit_all (st : Search) {tmp : List Nat} (hd : tmp.Nodup) (hin : ∀ w ∈ tmp, w < g.vsize)
    (hs : st.BFSflag.size = g.vsize)
    (hf : ∀ v < g.vsize, st.BFSflag[v]! = decide (v ∈ st.order.toList)) :
    ∃ st', tmp.foldlM (fun st v => Graph.visit v st) st = some st' ∧
      st'.order.toList = st.order.toList ++ tmp.filter (· ∉ st.order.toList) ∧
      st'.que = st.que ++ tmp.filter (· ∉ st.order.toList) ∧ st'.BFSflag.size = g.vsize ∧
      ∀ v < g.vsize, st'.BFSflag[v]! = decide (v ∈ st'.order.toList) := by
  induction tmp generalizing st with
  | nil => exact ⟨st, rfl, by simp, by simp, hs, hf⟩
  | cons w tmp ih =>
    obtain ⟨hw, hd'⟩ := List.nodup_cons.mp hd
    have hwn := hin w List.mem_cons_self
    have hrest (v : Nat) (hv : v ∈ tmp) := hin v (List.mem_cons_of_mem w hv)
    have hlt : w < st.BFSflag.size := hs.symm ▸ hwn
    rw [List.foldlM_cons]
    by_cases hold : w ∈ st.order.toList
    · have hvisit : Graph.visit w st = some st := by
        rw [Graph.visit, read_eq hlt, some_bind, hf w hwn, decide_eq_true hold]
        rfl
      have hskip : (w :: tmp).filter (· ∉ st.order.toList) = tmp.filter (· ∉ st.order.toList) :=
        List.filter_cons_of_neg (by simpa using hold)
      rw [hvisit, some_bind, hskip]
      exact ih st hd' hrest hs hf
    · have hvisit : Graph.visit w st =
          some ⟨st.que ++ [w], st.BFSflag.setIfInBounds w true, st.order.push w⟩ := by
        rw [Graph.visit, read_eq hlt, some_bind, hf w hwn, decide_eq_false hold, store_eq hlt]
        rfl
      have hkeep : (w :: tmp).filter (· ∉ st.order.toList) =
          w :: tmp.filter (· ∉ st.order.toList) :=
        List.filter_cons_of_pos (by simpa using hold)
      have hnext : tmp.filter (· ∉ (st.order.push w).toList) =
          tmp.filter (· ∉ st.order.toList) := by
        refine List.filter_congr fun v hv => ?_
        have hvw : v ≠ w := fun he => hw (he ▸ hv)
        exact decide_eq_decide.mpr (by simp [hvw])
      have hih := ih ⟨st.que ++ [w], st.BFSflag.setIfInBounds w true, st.order.push w⟩ hd'
        hrest (by simpa using hs) fun v hv => by
          rw [put_get hlt]
          by_cases hvw : v = w
          · rw [if_pos hvw, hvw]
            exact (decide_eq_true (by simp)).symm
          · rw [if_neg hvw, hf v hv]
            refine decide_eq_decide.mpr ?_
            rw [Array.toList_push, List.mem_append, List.mem_singleton, or_iff_left hvw]
      obtain ⟨st', hrun, horder, hque, hs', hf'⟩ := hih
      rw [hvisit, some_bind, hkeep]
      rw [hnext] at horder hque
      exact ⟨st', hrun, by rw [horder]; simp, by rw [hque]; simp, hs', hf'⟩

def left (g : Graph) (st : Search) : Nat := g.vsize - st.order.size + st.que.length

theorem Searching.order_le (hg : g.Outgoing) (h : Searching g p st) : st.order.size ≤ g.vsize := by
  have hs := h.sound hg
  rw [← Array.length_toList, ← List.length_range (n := g.vsize)]
  exact (List.subperm_of_subset hs.nodup fun v hv => List.mem_range.mpr (hs.inside v hv)).length_le

theorem Searching.step (std : StdSort) (hg : g.Outgoing) (h : Searching g p st) :
    (∃ st', g.searchStep std st = some (.inl st') ∧ Searching g (p + 1) st' ∧
        left g st' < left g st ∧ st.order.toList <+: st'.order.toList) ∨
      (g.searchStep std st = some (.inr st) ∧ p = st.order.size) := by
  have hs := h.sound hg
  cases hq : st.que with
  | nil =>
    right
    refine ⟨by simp only [Graph.searchStep, hq]; rfl, ?_⟩
    have hdrop := List.drop_eq_nil_iff.mp (h.queue.symm.trans hq)
    have := hs.expanded
    simp only [Array.length_toList] at hdrop this
    omega
  | cons now que =>
    left
    have hp : p < st.order.toList.length := by
      by_contra hp
      rw [h.queue, List.drop_eq_nil_of_le (Nat.le_of_not_lt hp)] at hq
      cases hq
    have hcons := h.queue.symm.trans hq
    rw [List.drop_eq_getElem_cons hp] at hcons
    obtain ⟨hnow, hque⟩ := List.cons.inj hcons
    have hat : st.order.toList[p]? = some now := by rw [← hnow]; exact List.getElem?_eq_getElem hp
    have hnown : now < g.vsize := hs.inside now (List.mem_of_getElem? hat)
    have htmp : g.forOut now (fun w tmp => some (tmp ++ [w])) [] = some (g.outs now) := by
      rw [hg.forOut_eq hnown]
      rw [foldlM_append_some (fun w => [w]), List.nil_append, List.flatMap_singleton']
    obtain ⟨hperm, hrise⟩ := std.rising g.degree (g.outs now)
    generalize htmp' : std.sort (fun a b => decide (g.degree a < g.degree b)) (g.outs now) = tmp
      at hperm hrise
    obtain ⟨st', hrun, horder, hque', hs', hf'⟩ := visit_all { st with que }
      (hperm.nodup_iff.mpr (hg.outs_nodup hnown))
      (fun w hw => hg.outs_lt hnown (hperm.mem_iff.mp hw)) h.size h.flag
    simp only at horder hque'
    generalize hnew : tmp.filter (· ∉ st.order.toList) = new at horder hque'
    have hstep : g.Visits (p, st.order.toList) (p + 1, st'.order.toList) := by
      rw [horder, ← hnew]
      refine .expand hat ((hperm.nodup_iff.mpr (hg.outs_nodup hnown)).filter _)
        (hrise.sublist List.filter_sublist) fun w => ?_
      rw [List.mem_filter, hperm.mem_iff, decide_eq_true_iff]
      rfl
    have hnext : Searching g (p + 1) st' := by
      refine ⟨?_, hs', hf', h.run.tail hstep⟩
      rw [hque', horder, ← hque, List.drop_append_of_le_length hp]
    refine ⟨st', ?_, hnext, ?_, ?_⟩
    · simp only [Graph.searchStep, hq, htmp, some_bind, htmp', hrun]
      rfl
    · have hle := hnext.order_le hg
      have hsize := congrArg List.length horder
      have hlen := congrArg List.length hque'
      have hlen₀ := congrArg List.length hq
      simp only [List.length_append, Array.length_toList, List.length_cons] at hsize hlen hlen₀
      rw [left, left]
      omega
    · rw [horder]
      exact List.prefix_append _ _

theorem Searching.from_root (std : StdSort) (hg : g.Outgoing) (h : Searching g st.order.size st)
    {i : Nat} (hi : i < g.vsize)
    (hleast : i ∉ st.order.toList → ∀ w < g.vsize, w ∉ st.order.toList → g.degree i ≤ g.degree w) :
    ∃ st', g.searchFrom std i st = some st' ∧ Searching g st'.order.size st' ∧
      st.order.toList <+: st'.order.toList ∧ i ∈ st'.order.toList := by
  have hlt : i < st.BFSflag.size := h.size.symm ▸ hi
  rw [Graph.searchFrom, read_eq hlt, some_bind, h.flag i hi]
  by_cases hold : i ∈ st.order.toList
  · rw [decide_eq_true hold, if_pos rfl]
    exact ⟨st, rfl, h, List.prefix_rfl, hold⟩
  · rw [decide_eq_false hold, if_neg Bool.false_ne_true]
    have hempty : st.que = [] := by
      rw [h.queue, ← Array.length_toList]
      exact List.drop_length
    obtain ⟨st₁, hrun₁, horder₁, hque₁, hs₁, hf₁⟩ := visit_all st
      (List.nodup_singleton i) (fun w hw => List.mem_singleton.mp hw ▸ hi) h.size h.flag
    have hnew : [i].filter (· ∉ st.order.toList) = [i] :=
      List.filter_cons_of_pos (by simpa using hold)
    rw [hnew] at horder₁ hque₁
    rw [List.foldlM_cons] at hrun₁
    obtain ⟨st₁', hvisit, hrun₁⟩ := Option.bind_eq_some_iff.mp hrun₁
    cases hrun₁
    have hstart : Searching g st.order.size st₁ := by
      refine ⟨?_, hs₁, hf₁, h.run.tail ?_⟩
      · rw [hque₁, horder₁, hempty, ← Array.length_toList, List.drop_left]
        rfl
      · rw [horder₁, ← Array.length_toList]
        exact .root hi hold (hleast hold)
    have hfuel : left g st₁ < g.vsize + 1 := by
      have hle := hstart.order_le hg
      have hsize := congrArg List.length horder₁
      have hlen := congrArg List.length hque₁
      simp only [List.length_append, Array.length_toList, List.length_singleton, hempty,
        List.length_nil] at hsize hlen
      rw [left]
      omega
    rw [hvisit, some_bind]
    obtain ⟨st', hloop, hdone, hpre⟩ := loop_rule
      (fun st' => ∃ p, Searching g p st' ∧ st₁.order.toList <+: st'.order.toList)
      (fun st' => Searching g st'.order.size st' ∧ st₁.order.toList <+: st'.order.toList)
      (left g) (fun st' (hI : ∃ p, Searching g p st' ∧ st₁.order.toList <+: st'.order.toList) => by
        obtain ⟨p, hs, hpre⟩ := hI
        cases hs.step std hg with
        | inl hmove =>
          obtain ⟨st'', hrun, hs'', hless, hpre'⟩ := hmove
          exact .inl ⟨st'', hrun, ⟨p + 1, hs'', hpre.trans hpre'⟩, hless⟩
        | inr hstop => exact .inr ⟨st', hstop.1, hstop.2 ▸ hs, hpre⟩)
      ⟨_, hstart, List.prefix_rfl⟩ hfuel
    rw [horder₁] at hpre
    exact ⟨st', hloop, hdone, (List.prefix_append _ _).trans hpre, hpre.subset (by simp)⟩

theorem Searching.through (std : StdSort) (hg : g.Outgoing) {ks : List Nat}
    (hks : ∀ k ∈ ks, k < g.vsize) (hrise : ks.Pairwise (g.degree · ≤ g.degree ·))
    (h : Searching g st.order.size st)
    (hleft : ∀ w < g.vsize, w ∉ st.order.toList → w ∈ ks) :
    ∃ st', ks.foldlM (fun st i => g.searchFrom std i st) st = some st' ∧
      Searching g st'.order.size st' ∧ ∀ w < g.vsize, w ∈ st'.order.toList := by
  induction ks generalizing st with
  | nil =>
    refine ⟨st, rfl, h, fun w hw => ?_⟩
    by_contra hnew
    exact absurd (hleft w hw hnew) List.not_mem_nil
  | cons k ks ih =>
    obtain ⟨hk, hrise'⟩ := List.pairwise_cons.mp hrise
    obtain ⟨st₁, hrun, h₁, hpre, hin⟩ := h.from_root std hg (hks k List.mem_cons_self)
      fun _ w hw hnew => by
        cases List.mem_cons.mp (hleft w hw hnew) with
        | inl he => rw [he]
        | inr hm => exact hk w hm
    obtain ⟨st', hrest, h', hall⟩ := ih (fun v hv => hks v (List.mem_cons_of_mem k hv)) hrise' h₁
      fun w hw hnew => by
        refine ((List.mem_cons.mp (hleft w hw fun hold => hnew (hpre.subset hold)))).resolve_left ?_
        exact fun he => hnew (he ▸ hin)
    refine ⟨st', ?_, h', hall⟩
    rw [List.foldlM_cons, hrun]
    exact hrest

end Searching

section Program
variable (g : Graph) (std : StdSort)

/-- The search finds all vertices, by steps of a breadth-first search, and `retorder` numbers them
backwards. -/
theorem rcmOrder_run (hg : g.Outgoing) :
    ∃ retorder order, g.rcmOrder std = some retorder ∧ order.Perm (List.range g.vsize) ∧
      Relation.ReflTransGen g.Visits (0, []) (g.vsize, order) ∧ retorder.size = g.vsize ∧
      ∀ i < g.vsize, retorder[order[i]!]! = g.vsize - 1 - i := by
  obtain ⟨hperm, hrise⟩ := std.rising g.degree (List.range g.vsize)
  let start : Search := ⟨[], Array.replicate g.vsize false, #[]⟩
  have hstart : Searching g start.order.size start :=
    ⟨rfl, by simp [start], fun v hv => replicate_get _ v _ hv, .refl⟩
  obtain ⟨st, hrun, h, hall⟩ := Searching.through std hg
    (fun k hk => List.mem_range.mp (hperm.mem_iff.mp hk)) hrise hstart
    fun w hw _ => hperm.mem_iff.mpr (List.mem_range.mpr hw)
  have hs := h.sound hg
  have horder : st.order.toList.Perm (List.range g.vsize) :=
    (List.perm_ext_iff_of_nodup hs.nodup List.nodup_range).mpr fun v =>
      ⟨fun hv => List.mem_range.mpr (hs.inside v hv), fun hv => hall v (List.mem_range.mp hv)⟩
  obtain ⟨hsize, hlt, hinj⟩ := injective_of_perm horder
  obtain ⟨retorder, hassign, hsize', hret⟩ := forRange_assign (f := fun i => st.order[i]?)
    (fun i => st.order.size - 1 - i) (Array.size_replicate (n := g.vsize) (v := 0))
    (fun i hi => read_eq (hsize.symm ▸ hi)) hlt hinj
  refine ⟨retorder, st.order.toList, ?_, horder, hsize ▸ h.run, hsize', fun i hi => ?_⟩
  · rw [hsize] at hassign
    simp only [Graph.rcmOrder, start] at hrun ⊢
    rw [hrun, some_bind, if_neg (not_not.mpr hsize), hsize]
    exact hassign
  · have hget : st.order.toList[i]! = st.order[i]! := by
      rw [Array.getElem!_toList]
    rw [hget, hret i hi, hsize]

end Program

end GraphReorder.Gorder
