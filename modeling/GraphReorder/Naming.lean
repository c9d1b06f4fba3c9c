import Mathlib.Data.Set.Function
import Mathlib.Data.List.Sort
import GraphReorder.Library.Dict
import GraphReorder.ReadCsr

/-! New ids from one counter: what `degree.py` and `hub.py` have in common. -/
namespace GraphReorder
open Library

structure Args extends Flags where
  ascending : Bool

/-- `sorted` with `key` and `reverse`, which keeps the order of equal keys in both directions. -/
def sorted {α : Type} (key : α → Nat) (reverse : Bool) (items : List α) : List α :=
  items.insertionSort fun a b => if reverse then key b ≤ key a else key a ≤ key b

theorem sorted_perm {α : Type} (key : α → Nat) (reverse : Bool) (items : List α) :
    (sorted key reverse items).Perm items :=
  List.perm_insertionSort _ items

theorem sorted_pairwise {α : Type} (key : α → Nat) (reverse : Bool) (items : List α) :
    (sorted key reverse items).Pairwise fun a b =>
      if reverse then key b ≤ key a else key a ≤ key b := by
  cases reverse with
  | false =>
    have _ : Std.Total fun a b => key a ≤ key b := ⟨fun a b => Nat.le_total (key a) (key b)⟩
    have _ : IsTrans α fun a b => key a ≤ key b := ⟨fun _ _ _ => Nat.le_trans⟩
    exact List.pairwise_insertionSort (fun a b => key a ≤ key b) items
  | true =>
    have _ : Std.Total fun a b => key b ≤ key a := ⟨fun a b => Nat.le_total (key b) (key a)⟩
    have _ : IsTrans α fun a b => key b ≤ key a := ⟨fun _ _ _ h h' => Nat.le_trans h' h⟩
    exact List.pairwise_insertionSort (fun a b => key b ≤ key a) items

def Record.key (indegree : Bool) (r : Record) : Nat := if indegree then r.dst else r.src

theorem key_mem_ids {indegree : Bool} {el : List Record} {r : Record} (hr : r ∈ el) :
    r.key indegree ∈ ids el := by
  cases indegree with
  | true => exact dst_mem_ids hr
  | false => exact src_mem_ids hr

def edgesByNode (indegree : Bool) (el : List Record) : Dict Nat (List Nat) :=
  el.foldl (fun edges_by_node r =>
    if indegree then edges_by_node.append r.dst r.src else edges_by_node.append r.src r.dst)
    Dict.empty

def edgeWeights (weighted : Bool) (el : List Record) : Dict (Nat × Nat) Int :=
  if weighted then
    el.foldl (fun edge_weights r => edge_weights.set (r.src, r.dst) r.weight) Dict.empty
  else Dict.empty

structure Naming where
  mapping : Dict Nat Int
  count : Nat

abbrev Row := List (Option Int)

def row (weighted : Bool) (edge_weights : Dict (Nat × Nat) Int) (mapping : Dict Nat Int)
    (edge : Record) : Row :=
  if weighted then [mapping.get? edge.src, mapping.get? edge.dst,
    edge_weights.get? (edge.src, edge.dst)]
  else [mapping.get? edge.src, mapping.get? edge.dst]

structure Outcome where
  mapping : Dict Nat Int
  newOrder : List Int
  rows : List Row

def newOrder (mapping : Dict Nat Int) : Option (List Int) :=
  (List.range mapping.len).mapM mapping.get?

namespace Naming

def start (maintain : Bool) : Naming := ⟨Dict.empty, if maintain then 1 else 0⟩

def add (s : Naming) (vertex : Nat) : Naming := ⟨s.mapping.set vertex s.count, s.count + 1⟩

def visit (maintain : Bool) (s : Naming) (vertex : Nat) : Naming :=
  if maintain && vertex == 0 then { s with mapping := s.mapping.set vertex vertex }
  else s.add vertex

/-- `if mapping.get(vertex) is None`. -/
def ensure (s : Naming) (vertex : Nat) : Naming :=
  if (s.mapping.get? vertex).isNone then s.add vertex else s

end Naming

/-- The number of `v` when `counted` is numbered from `first` on; a vertex 0 outside keeps its
number. -/
def newId (first : Nat) (counted : List Nat) (v : Nat) : Nat :=
  if v ∈ counted then first + counted.idxOf v else 0

theorem rel_of_idxOf_lt {α : Type} [DecidableEq α] {R : α → α → Prop} {l : List α}
    (h : l.Pairwise R) {a b : α} (ha : a ∈ l) (hb : b ∈ l) (hlt : l.idxOf a < l.idxOf b) :
    R a b := by
  have hrel := List.pairwise_iff_getElem.mp h _ _ (List.idxOf_lt_length_of_mem ha)
    (List.idxOf_lt_length_of_mem hb) hlt
  rw [List.getElem_idxOf, List.getElem_idxOf] at hrel
  exact hrel

theorem newId_lt_iff {first : Nat} {counted : List Nat} {u v : Nat} (hu : u ∈ counted)
    (hv : v ∈ counted) :
    newId first counted u < newId first counted v ↔ counted.idxOf u < counted.idxOf v := by
  rw [newId, newId, if_pos hu, if_pos hv]
  exact Nat.add_lt_add_iff_left

theorem idxOf_front {front back : List Nat} {u : Nat} (hu : u ∈ front) :
    (front ++ back).idxOf u < front.length := by
  rw [List.idxOf_append_of_mem hu]
  exact List.idxOf_lt_length_of_mem hu

theorem length_le_idxOf_back {front : List Nat} (back : List Nat) {v : Nat} (hv : v ∉ front) :
    front.length ≤ (front ++ back).idxOf v := by
  rw [List.idxOf_append_of_notMem hv]
  exact Nat.le_add_right _ _

def Known (kept : Bool) (counted : List Nat) (v : Nat) : Prop :=
  v ∈ counted ∨ kept = true ∧ v = 0

instance (kept : Bool) (counted : List Nat) : DecidablePred (Known kept counted) :=
  fun _ => inferInstanceAs (Decidable (_ ∨ _))

def countedOf (maintain : Bool) (l : List Nat) : List Nat := l.filter fun v => !(maintain && v == 0)

theorem countedOf_cons {maintain : Bool} {v : Nat} (hv : ¬ (maintain && v == 0) = true)
    (l : List Nat) : countedOf maintain (v :: l) = v :: countedOf maintain l :=
  List.filter_cons_of_pos (by rw [Bool.eq_false_iff.mpr hv]; rfl)

theorem kept_cons {maintain : Bool} {v : Nat} (hv : ¬ (maintain && v == 0) = true) (l : List Nat) :
    (maintain && decide (0 ∈ v :: l)) = (maintain && decide (0 ∈ l)) := by
  cases maintain with
  | false => rfl
  | true =>
    have hv0 : 0 ≠ v := fun he => hv (by rw [← he]; rfl)
    simp [hv0]

theorem known_countedOf (maintain : Bool) {p : Prop} [Decidable p] {l : List Nat} (h : p ↔ 0 ∈ l)
    (v : Nat) : Known (maintain && decide p) (countedOf maintain l) v ↔ v ∈ l := by
  rw [Known, countedOf, List.mem_filter]
  cases maintain with
  | false => simp
  | true =>
    by_cases hv : v = 0
    · simp [hv, h]
    · simp [hv]

/-- The vertices `counted` were numbered one after another; `kept` says that 0 kept its number. -/
structure Numbered (first : Nat) (kept : Bool) (counted : List Nat) (s : Naming) : Prop where
  nodup : counted.Nodup
  zero : kept = true → 0 ∉ counted
  count : s.count = first + counted.length
  look : ∀ v, s.mapping.get? v =
    if Known kept counted v then some (newId first counted v : Int) else none

namespace Numbered
variable {first : Nat} {kept : Bool} {counted : List Nat} {s : Naming}

theorem start (maintain : Bool) :
    Numbered (if maintain then 1 else 0) false [] (Naming.start maintain) where
  nodup := List.nodup_nil
  zero := fun h => by cases h
  count := rfl
  look := fun v => by simp [Naming.start, Known]

theorem mem_keys (h : Numbered first kept counted s) (v : Nat) :
    v ∈ s.mapping.keys ↔ Known kept counted v := by
  rw [Dict.mem_keys, h.look]
  by_cases hv : Known kept counted v
  · simp [hv]
  · simp [hv]

theorem add (h : Numbered first kept counted s) {v : Nat} (hv : ¬ Known kept counted v) :
    Numbered first kept (counted ++ [v]) (s.add v) where
  nodup := h.nodup.append (List.nodup_singleton v)
    (List.disjoint_singleton.mpr fun hmem => hv (.inl hmem))
  zero := fun hk hmem => by
    cases List.mem_append.mp hmem with
    | inl hmem => exact h.zero hk hmem
    | inr hmem => exact hv (.inr ⟨hk, (List.mem_singleton.mp hmem).symm⟩)
  count := by
    rw [Naming.add, h.count, List.length_append, List.length_singleton, Nat.add_assoc]
  look := fun w => by
    have hnot : v ∉ counted := fun hmem => hv (.inl hmem)
    rw [Naming.add, Dict.get?_set, h.look, h.count]
    by_cases hw : w = v
    · subst hw
      have hnew : newId first (counted ++ [w]) w = first + counted.length := by
        rw [newId, if_pos (by simp), List.idxOf_append_of_notMem hnot]
        simp
      have hknown : Known kept (counted ++ [w]) w := .inl (by simp)
      rw [if_pos rfl, if_pos hknown, hnew]
    · have hmem : w ∈ counted ++ [v] ↔ w ∈ counted := by simp [hw]
      have hknown : Known kept (counted ++ [v]) w ↔ Known kept counted w := by
        rw [Known, Known, hmem]
      have hnew : newId first (counted ++ [v]) w = newId first counted w := by
        by_cases hc : w ∈ counted
        · rw [newId, newId, if_pos hc, if_pos (hmem.mpr hc), List.idxOf_append_of_mem hc]
        · rw [newId, newId, if_neg hc, if_neg (hmem.not.mpr hc)]
      simp only [if_neg hw, hknown, hnew]

theorem keep (h : Numbered first false counted s) (hv : 0 ∉ counted) :
    Numbered first true counted { s with mapping := s.mapping.set 0 0 } where
  nodup := h.nodup
  zero := fun _ => hv
  count := h.count
  look := fun w => by
    rw [Dict.get?_set, h.look]
    by_cases hw : w = 0
    · subst hw
      simp [Known, newId, hv]
    · simp [Known, hw]

theorem ensure (h : Numbered first kept counted s) (v : Nat) :
    ∃ more, Numbered first kept (counted ++ more) (s.ensure v) ∧
      ∀ w, Known kept (counted ++ more) w ↔ Known kept counted w ∨ w = v := by
  by_cases hv : Known kept counted v
  · refine ⟨[], ?_, fun w => ?_⟩
    · rw [Naming.ensure, h.look, if_pos hv, List.append_nil]
      exact h
    · rw [List.append_nil]
      constructor
      · exact Or.inl
      · intro hw
        cases hw with
        | inl hw => exact hw
        | inr hw =>
          rw [hw]
          exact hv
  · refine ⟨[v], ?_, fun w => ?_⟩
    · rw [Naming.ensure, h.look, if_neg hv]
      exact h.add hv
    · simp only [Known, List.mem_append, List.mem_singleton]
      tauto

/-- A whole list without repetitions is numbered, vertex 0 apart when it is to be maintained. -/
theorem visit_all (maintain : Bool) {l : List Nat} (h : Numbered first kept counted s)
    (hl : l.Nodup) (hnew : ∀ v ∈ l, ¬ Known kept counted v) :
    Numbered first (kept || maintain && decide (0 ∈ l))
      (counted ++ countedOf maintain l) (l.foldl (Naming.visit maintain) s) := by
  induction l generalizing s kept counted with
  | nil => simpa [countedOf] using h
  | cons v l ih =>
    obtain ⟨hv, hrest⟩ := List.nodup_cons.mp hl
    have hvnew := hnew v List.mem_cons_self
    rw [List.foldl_cons]
    by_cases hzero : (maintain && v == 0) = true
    · obtain ⟨hm, h0⟩ := Bool.and_eq_true_iff.mp hzero
      obtain rfl := beq_iff_eq.mp h0
      have hkept : kept = false := Bool.eq_false_iff.mpr fun hk => hvnew (.inr ⟨hk, rfl⟩)
      subst hkept
      have hstep : s.visit maintain 0 = { s with mapping := s.mapping.set 0 0 } := if_pos hzero
      have hrun := ih (h.keep fun hmem => hvnew (.inl hmem)) hrest fun w hw hknown => by
        cases hknown with
        | inl hmem => exact hnew w (List.mem_cons_of_mem _ hw) (.inl hmem)
        | inr hz =>
          rw [hz.2] at hw
          exact hv hw
      rw [hstep]
      simpa [countedOf, hm] using hrun
    · have hstep : s.visit maintain v = s.add v := if_neg hzero
      have hrun := ih (h.add hvnew) hrest fun w hw hknown => by
        have hwv : w ≠ v := fun he => hv (he ▸ hw)
        refine hnew w (List.mem_cons_of_mem _ hw) (hknown.imp_left fun hmem => ?_)
        simpa [hwv] using hmem
      rw [hstep, kept_cons hzero, countedOf_cons hzero, List.append_cons]
      exact hrun

theorem visit_list (maintain : Bool) {l : List Nat} (hl : l.Nodup) {p : Prop} [Decidable p]
    (hp : p ↔ 0 ∈ l) : Numbered (if maintain then 1 else 0) (maintain && decide p)
      (countedOf maintain l) (l.foldl (Naming.visit maintain) (Naming.start maintain)) := by
  have h := (start maintain).visit_all maintain hl fun v _ hv => by
    cases hv with
    | inl hc => exact absurd hc List.not_mem_nil
    | inr hk => exact absurd hk.1 Bool.false_ne_true
  rw [Bool.false_or, List.nil_append, decide_eq_decide.mpr hp.symm] at h
  exact h

theorem injOn (h : Numbered first kept counted s) (hfirst : kept = true → 0 < first) :
    Set.InjOn (newId first counted) { v | Known kept counted v } := by
  have hcounted {v : Nat} (hv : v ∈ counted) : newId first counted v = first + counted.idxOf v :=
    if_pos hv
  have hzero (hk : kept = true) : newId first counted 0 = 0 := if_neg (h.zero hk)
  intro v hv w hw heq
  cases hv with
  | inl hv =>
    cases hw with
    | inl hw =>
      rw [hcounted hv, hcounted hw] at heq
      exact (List.idxOf_inj hv).mp (by omega)
    | inr hw =>
      have := hfirst hw.1
      rw [hcounted hv, hw.2, hzero hw.1] at heq
      omega
  | inr hv =>
    cases hw with
    | inl hw =>
      have := hfirst hv.1
      rw [hcounted hw, hv.2, hzero hv.1] at heq
      omega
    | inr hw => rw [hv.2, hw.2]

theorem bijOn (h : Numbered first kept counted s) (hfirst : first = if kept then 1 else 0) :
    Set.BijOn (newId first counted) { v | Known kept counted v }
      (Set.Iio (first + counted.length)) := by
  have hcounted {v : Nat} (hv : v ∈ counted) : newId first counted v = first + counted.idxOf v :=
    if_pos hv
  have hzero (hk : kept = true) : newId first counted 0 = 0 := if_neg (h.zero hk)
  refine ⟨?_, h.injOn fun hk => by rw [hfirst, if_pos hk]; exact Nat.one_pos, ?_⟩
  · intro v hv
    rw [Set.mem_Iio]
    cases hv with
    | inl hv =>
      have hlt := List.idxOf_lt_length_of_mem hv
      rw [hcounted hv]
      omega
    | inr hv =>
      rw [hv.2, hzero hv.1, hfirst, if_pos hv.1]
      omega
  · intro k hk
    rw [Set.mem_Iio] at hk
    by_cases hlow : k < first
    · have hkept : kept = true := by
        by_contra hno
        rw [hfirst, if_neg hno] at hlow
        omega
      rw [hfirst, if_pos hkept] at hlow
      exact ⟨0, .inr ⟨hkept, rfl⟩, by rw [hzero hkept]; omega⟩
    · have hi : k - first < counted.length := by omega
      have hmem : counted[k - first] ∈ counted := List.getElem_mem hi
      refine ⟨counted[k - first], .inl hmem, ?_⟩
      rw [hcounted hmem, h.nodup.idxOf_getElem]
      omega

end Numbered

theorem edgesByNode_concat (indegree : Bool) (el : List Record) (r : Record) :
    edgesByNode indegree (el ++ [r]) =
      (edgesByNode indegree el).append (r.key indegree) (if indegree then r.src else r.dst) := by
  rw [edgesByNode, List.foldl_append]
  cases indegree <;> rfl

theorem mem_keys_edgesByNode {indegree : Bool} {el : List Record} {v : Nat} :
    v ∈ (edgesByNode indegree el).keys ↔ ∃ r ∈ el, r.key indegree = v := by
  induction el using List.reverseRecOn with
  | nil => simp [edgesByNode, Dict.empty, Dict.keys]
  | append_singleton el r ih =>
    rw [edgesByNode_concat, Dict.append, Dict.mem_keys_set, ih]
    constructor
    · intro h
      cases h with
      | inl h => exact ⟨r, by simp, h.symm⟩
      | inr h =>
        obtain ⟨r', hr', hv⟩ := h
        exact ⟨r', by simp [hr'], hv⟩
    · intro h
      obtain ⟨r', hr', hv⟩ := h
      cases List.mem_append.mp hr' with
      | inl hr' => exact .inr ⟨r', hr', hv⟩
      | inr hr' =>
        obtain rfl := List.mem_singleton.mp hr'
        exact .inl hv.symm

def degree (indegree : Bool) (el : List Record) (v : Nat) : Nat :=
  el.countP fun r => r.key indegree = v

theorem degree_pos {indegree : Bool} {el : List Record} {v : Nat} :
    0 < degree indegree el v ↔ ∃ r ∈ el, r.key indegree = v := by
  rw [degree, List.countP_pos_iff]
  simp only [decide_eq_true_eq]

theorem length_edgesByNode (indegree : Bool) (el : List Record) (v : Nat) :
    (((edgesByNode indegree el).get? v).getD []).length = degree indegree el v := by
  induction el using List.reverseRecOn with
  | nil => rfl
  | append_singleton el r ih =>
    rw [edgesByNode_concat, Dict.append, Dict.get?_set, degree, List.countP_append, ← degree, ← ih,
      List.countP_singleton]
    by_cases hv : v = r.key indegree
    · rw [if_pos hv, if_pos (decide_eq_true hv.symm), hv]
      exact List.length_append
    · have hv' : ¬ (decide (r.key indegree = v) = true) := by
        rw [decide_eq_true_eq]
        exact fun h => hv h.symm
      rw [if_neg hv, if_neg hv', Nat.add_zero]

/-- The mapping numbers the vertices that occur from 0 on, and every edge is written with the
numbers of its ends. -/
def Relabels (el : List Record) (run : Option Outcome) : Prop :=
  ∃ out f, run = some out ∧
    (∀ v, out.mapping.get? v = if v ∈ ids el then some (f v : Int) else none) ∧
    Set.BijOn f (ids el) (Set.Iio (ids el).card) ∧
    out.rows = el.map fun r => [some (f r.src : Int), some (f r.dst : Int)]

def WritesRecords (el : List Record) (run : Option Outcome) : Prop :=
  ∃ (out : Outcome) (f : Nat → Int), run = some out ∧
    (∀ v ∈ ids el, out.mapping.get? v = some (f v)) ∧
    out.rows = el.map fun r => [some (f r.src), some (f r.dst), some r.weight]

def OneWeight (el : List Record) : Prop :=
  ∀ r ∈ el, ∀ r' ∈ el, r'.src = r.src → r'.dst = r.dst → r'.weight = r.weight

instance (el : List Record) : Decidable (OneWeight el) :=
  inferInstanceAs (Decidable (∀ r ∈ el, ∀ r' ∈ el, _ → _ → _))

theorem get?_edgeWeights {el : List Record} {r : Record} (hr : r ∈ el) :
    ∃ r' ∈ el, r'.src = r.src ∧ r'.dst = r.dst ∧
      (edgeWeights true el).get? (r.src, r.dst) = some r'.weight := by
  induction el using List.reverseRecOn with
  | nil => cases hr
  | append_singleton el e ih =>
    have hconcat : edgeWeights true (el ++ [e]) =
        (edgeWeights true el).set (e.src, e.dst) e.weight := by
      simp [edgeWeights]
    rw [hconcat, Dict.get?_set]
    by_cases hk : (r.src, r.dst) = (e.src, e.dst)
    · obtain ⟨hs, hd⟩ := Prod.mk.inj hk
      exact ⟨e, by simp, hs.symm, hd.symm, if_pos hk⟩
    · rw [if_neg hk]
      cases List.mem_append.mp hr with
      | inl hr =>
        obtain ⟨r', hr', h⟩ := ih hr
        exact ⟨r', by simp [hr'], h⟩
      | inr hr =>
        obtain rfl := List.mem_singleton.mp hr
        exact absurd rfl hk

/-- The dictionary has every record's own weight exactly when parallel edges agree. -/
theorem edgeWeights_own_iff {el : List Record} :
    (∀ r ∈ el, (edgeWeights true el).get? (r.src, r.dst) = some r.weight) ↔ OneWeight el := by
  constructor
  · intro h r hr r' hr' hs hd
    have hw := h r' hr'
    rw [hs, hd, h r hr] at hw
    exact (Option.some.inj hw).symm
  · intro h r hr
    obtain ⟨r', hr', hs, hd, hw⟩ := get?_edgeWeights hr
    rw [hw, h r hr r' hr' hs hd]

def finishNaming (mapping : Dict Nat Int) (rows : List Row) : Option Outcome := do
  some ⟨mapping, ← newOrder mapping, rows⟩

section Finish
variable {el : List Record} {first : Nat} {kept : Bool} {counted : List Nat} {s : Naming}

theorem newOrder_some_iff {mapping : Dict Nat Int} (h : ∀ v, v ∈ mapping.keys ↔ v ∈ ids el) :
    (∃ order, newOrder mapping = some order) ↔ ids el = Finset.range (ids el).card := by
  rw [newOrder, Dict.len_of_keys h]
  constructor
  · intro hrun
    obtain ⟨order, horder⟩ := hrun
    obtain ⟨_, hread⟩ := forall_of_mapM horder
    refine (Finset.eq_of_subset_of_card_le (fun i hi => ?_) (Finset.card_range _).ge).symm
    rw [← h, Dict.mem_keys]
    exact hread i (List.mem_range.mpr (Finset.mem_range.mp hi))
  · intro hids
    have hread (i : Nat) (hi : i ∈ List.range (ids el).card) :
        mapping.get? i = some ((mapping.get? i).getD 0) := by
      have hmem : i ∈ mapping.keys := by
        rw [h, hids]
        exact Finset.mem_range.mpr (List.mem_range.mp hi)
      obtain ⟨x, hx⟩ := Dict.mem_keys.mp hmem
      rw [hx]
      rfl
    exact ⟨_, mapM_of_forall hread⟩

theorem finishNaming_some {mapping : Dict Nat Int} {rows : List Row} {out : Outcome} :
    finishNaming mapping rows = some out ↔
      ∃ order, newOrder mapping = some order ∧ out = ⟨mapping, order, rows⟩ := by
  rw [finishNaming]
  cases newOrder mapping with
  | none => simp
  | some order =>
    rw [some_bind]
    simp [eq_comm]

theorem relabels_finishNaming_iff (hne : el ≠ []) {maintain : Bool}
    {edge_weights : Dict (Nat × Nat) Int} (h : Numbered (if maintain then 1 else 0) kept counted s)
    (hkept : kept = true → maintain = true) (hknown : ∀ v, Known kept counted v ↔ v ∈ ids el) :
    Relabels el (finishNaming s.mapping (el.map (row false edge_weights s.mapping))) ↔
      ids el = Finset.range (ids el).card ∧ (maintain = true → kept = true) := by
  have hkeys (v : Nat) : v ∈ s.mapping.keys ↔ v ∈ ids el := (h.mem_keys v).trans (hknown v)
  have hlook (v : Nat) : s.mapping.get? v =
      if v ∈ ids el then some (newId (if maintain then 1 else 0) counted v : Int) else none := by
    rw [h.look]
    simp only [hknown]
  constructor
  · intro hrel
    obtain ⟨out, f, hrun, hmap, hbij, _⟩ := hrel
    obtain ⟨order, horder, rfl⟩ := finishNaming_some.mp hrun
    refine ⟨(newOrder_some_iff hkeys).mp ⟨order, horder⟩, fun hm => ?_⟩
    obtain ⟨r, hr⟩ := List.exists_mem_of_ne_nil el hne
    have hcard : 0 < (ids el).card := Finset.card_pos.mpr ⟨r.src, src_mem_ids hr⟩
    obtain ⟨v, hv, hfv⟩ := hbij.surjOn hcard
    have hmem : v ∈ ids el := hv
    have hval := (hmap v).symm.trans (hlook v)
    rw [if_pos hmem, if_pos hmem, hfv, Option.some.injEq, Int.natCast_inj] at hval
    -- the vertex with number 0 is not a counted one
    cases (hknown v).mpr hmem with
    | inl hc =>
      rw [newId, if_pos hc, if_pos hm] at hval
      omega
    | inr hk => exact hk.1
  · intro hcond
    obtain ⟨hids, hkeep⟩ := hcond
    obtain ⟨order, horder⟩ := (newOrder_some_iff hkeys).mpr hids
    refine ⟨_, _, finishNaming_some.mpr ⟨order, horder, rfl⟩, hlook, ?_, ?_⟩
    · have hset : { v | Known kept counted v } = (ids el : Set Nat) := Set.ext hknown
      have hbij := h.bijOn (by rw [Bool.eq_iff_iff.mpr ⟨hkeep, hkept⟩])
      rw [hset, ← Finset.coe_range] at hbij
      have hcard := (Set.BijOn.finsetCard_eq _ hbij).trans (Finset.card_range _)
      rw [← hcard, Finset.coe_range] at hbij
      exact hbij
    · refine List.map_congr_left fun r hr => ?_
      rw [row, if_neg Bool.false_ne_true, hlook, hlook, if_pos (src_mem_ids hr),
        if_pos (dst_mem_ids hr)]

theorem writesRecords_finishNaming_iff (h : Numbered first kept counted s)
    (hknown : ∀ v, Known kept counted v ↔ v ∈ ids el) :
    WritesRecords el
        (finishNaming s.mapping (el.map (row true (edgeWeights true el) s.mapping))) ↔
      ids el = Finset.range (ids el).card ∧ OneWeight el := by
  have hkeys (v : Nat) : v ∈ s.mapping.keys ↔ v ∈ ids el := (h.mem_keys v).trans (hknown v)
  have hlook (v : Nat) (hv : v ∈ ids el) : s.mapping.get? v = some (newId first counted v : Int) := by
    rw [h.look, if_pos ((hknown v).mpr hv)]
  rw [← edgeWeights_own_iff]
  constructor
  · intro hwrites
    obtain ⟨out, f, hrun, _, hrows⟩ := hwrites
    obtain ⟨order, horder, rfl⟩ := finishNaming_some.mp hrun
    refine ⟨(newOrder_some_iff hkeys).mp ⟨order, horder⟩, fun r hr => ?_⟩
    have hrow := List.map_inj_left.mp hrows r hr
    simp only [row, if_true, List.cons.injEq] at hrow
    exact hrow.2.2.1
  · intro hcond
    obtain ⟨hids, hown⟩ := hcond
    obtain ⟨order, horder⟩ := (newOrder_some_iff hkeys).mpr hids
    refine ⟨_, fun v => newId first counted v, finishNaming_some.mpr ⟨order, horder, rfl⟩, hlook, ?_⟩
    refine List.map_congr_left fun r hr => ?_
    rw [row, if_pos rfl, hlook _ (src_mem_ids hr), hlook _ (dst_mem_ids hr), hown r hr]

end Finish

end GraphReorder
