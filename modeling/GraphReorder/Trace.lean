import GraphReorder.Placing

/-! What the observations of the placement loop cover: the head of every round, and the placing of
every node. -/
namespace GraphReorder
open Library

variable {S : Setting} {s s' : Placement} {tr : List Obs} {v : Nat}

def Yields {α : Type} (P : α → Prop) (x : Option α) : Prop := ∀ a, x = some a → P a

theorem yields_bind {α β : Type} {P : β → Prop} {x : Option α} {f : α → Option β}
    (h : ∀ a, Yields P (f a)) : Yields P (x >>= f) := by
  intro b hb
  obtain ⟨a, _, ha⟩ := Option.bind_eq_some_iff.mp hb
  exact h a b ha

theorem yields_some {α : Type} {P : α → Prop} {a : α} (h : P a) : Yields P (some a) := by
  intro b hb
  cases hb
  exact h

/-- Nodes are only placed where it is reported. -/
def Reported (s : Placement) (tr : List Obs) (s' : Placement) : Prop :=
  ∀ v : Nat, s'.isPlaced[v]! = true → s.isPlaced[v]! = true ∨ ∃ t, Obs.place v t ∈ tr

theorem Reported.chained : Chained Reported where
  nil _ _ hv := .inl hv
  append h h' v hv := by
    cases h' v hv with
    | inl hv' => exact (h v hv').imp_right fun ht => ht.imp fun t ht => List.mem_append_left _ ht
    | inr ht => exact .inr (ht.imp fun t ht => List.mem_append_right _ ht)

namespace Reported
variable {α β : Type}

theorem pure (a : α) : Leaves Reported (Pure.pure a : Run α) := leaves_pure chained a

theorem read_bind {f : Placement → Option β} {c : β → Run α} (h : ∀ b, Leaves Reported (c b)) :
    Leaves Reported (Comp.read f >>= c) :=
  leaves_bind chained (leaves_read chained f) h

theorem note (f : Placement → Obs) : Leaves Reported (Comp.note f) :=
  leaves_note fun _ _ hv => .inl hv

theorem note_bind {f : Placement → Obs} {c : Unit → Run α} (h : Leaves Reported (c ())) :
    Leaves Reported (Comp.note f >>= c) :=
  leaves_bind chained (note f) fun _ => h

theorem update {f : Placement → Option Placement}
    (hf : ∀ s, Yields (fun s' => s'.isPlaced = s.isPlaced) (f s)) :
    Leaves Reported (Comp.update f : Run Unit) :=
  leaves_update fun s s' h _ hv => .inl (by rwa [hf s s' h] at hv)

theorem update_bind {f : Placement → Option Placement} {c : Unit → Run α}
    (hf : ∀ s, Yields (fun s' => s'.isPlaced = s.isPlaced) (f s)) (h : Leaves Reported (c ())) :
    Leaves Reported (Comp.update f >>= c) :=
  leaves_bind chained (update hf) fun _ => h

theorem bind {c : Run β} {f : β → Run α} (hc : Leaves Reported c) (hf : ∀ b, Leaves Reported (f b)) :
    Leaves Reported (c >>= f) :=
  leaves_bind chained hc hf

end Reported

theorem moveRight_isPlaced (id : Nat) (s : Placement) :
    Yields (fun s' => s'.isPlaced = s.isPlaced) (moveRight id s) := by
  unfold moveRight
  repeat refine yields_bind fun _ => ?_
  exact yields_some rfl

theorem moveLeft_isPlaced (id : Nat) (s : Placement) :
    Yields (fun s' => s'.isPlaced = s.isPlaced) (moveLeft id s) := by
  unfold moveLeft
  repeat refine yields_bind fun _ => ?_
  exact yields_some rfl

theorem forChildren_reported {body : Nat → Run Unit} (hbody : ∀ c, Leaves Reported (body c))
    (lo hi : Nat) : Leaves Reported (S.forChildren lo hi body) :=
  leaves_forRange Reported.chained
    (fun _ _ => Reported.bind (leaves_read Reported.chained _) hbody) ()

theorem evictChild_reported (c : Nat) : Leaves Reported (Setting.evictChild c) := by
  refine Reported.read_bind fun placed => ?_
  split
  · exact Reported.update fun s => yields_bind fun _ => yields_some rfl
  · exact Reported.pure _

theorem loadChild_reported (c : Nat) : Leaves Reported (Setting.loadChild c) := by
  refine Reported.read_bind fun placed => ?_
  split
  · refine Reported.read_bind fun pending => ?_
    split
    · exact Reported.update fun s => yields_bind fun _ => yields_some rfl
    · exact Reported.note_bind <|
        Reported.update_bind (moveLeft_isPlaced c) <|
          Reported.note _
  · exact Reported.pure _

theorem evictParents_reported (node : Nat) : Leaves Reported (S.evictParents node) := by
  refine Reported.read_bind fun origId => ?_
  refine Reported.read_bind fun lo => ?_
  refine Reported.read_bind fun hi => ?_
  refine leaves_forRange Reported.chained (fun i k => ?_) 0
  refine Reported.read_bind fun p => ?_
  refine Reported.read_bind fun skip => ?_
  split
  · exact Reported.pure _
  · refine Reported.note_bind ?_
    refine Reported.update_bind (fun s => yields_bind fun _ => yields_some rfl) ?_
    refine Reported.read_bind fun left => ?_
    split
    · refine Reported.read_bind fun lo => ?_
      refine Reported.read_bind fun hi => ?_
      exact Reported.bind (forChildren_reported evictChild_reported lo hi) fun _ =>
        Reported.pure _
    · exact Reported.pure _

theorem loadParents_reported (nodePtr : Nat) : Leaves Reported (S.loadParents nodePtr) := by
  refine Reported.read_bind fun origId => ?_
  refine Reported.read_bind fun lo => ?_
  refine Reported.read_bind fun hi => ?_
  refine leaves_forRange Reported.chained (fun i k => ?_) 0
  refine Reported.read_bind fun p => ?_
  refine Reported.read_bind fun skip => ?_
  split
  · exact Reported.pure _
  · refine Reported.update_bind (fun s => yields_bind fun _ => yields_some rfl) ?_
    refine Reported.read_bind fun lo => ?_
    refine Reported.read_bind fun hi => ?_
    refine Reported.read_bind fun now => ?_
    split
    · exact Reported.bind (forChildren_reported loadChild_reported lo hi) fun _ =>
        Reported.pure _
    · exact Reported.pure _

theorem flush_reported (origId : Nat) : Leaves Reported (S.flush origId) := by
  refine leaves_loop Reported.chained (fun o => ?_) _ _
  refine Reported.read_bind fun pending => ?_
  split
  · refine Reported.update_bind (fun s => yields_bind fun _ => yields_some rfl) ?_
    refine Reported.note_bind ?_
    refine Reported.update_bind (moveRight_isPlaced o) ?_
    exact Reported.note_bind <|
      Reported.read_bind fun _ =>
        Reported.pure _
  · exact Reported.pure _

theorem evictOldest_reported : Leaves Reported S.evictOldest := by
  refine Reported.read_bind fun start => ?_
  refine Reported.read_bind fun oldest => ?_
  refine Reported.read_bind fun deg => ?_
  split
  · refine Reported.note_bind ?_
    refine Reported.bind (evictParents_reported start) fun count => ?_
    exact Reported.note_bind <| Reported.update fun s => yields_some rfl
  · exact Reported.pure _

theorem evictStep_reported : Leaves Reported S.evictStep := by
  refine Reported.bind evictOldest_reported fun _ => ?_
  refine Reported.read_bind fun o => ?_
  refine Reported.bind (flush_reported o) fun o' => ?_
  refine Reported.note_bind ?_
  refine Reported.read_bind fun cost => ?_
  exact Reported.update_bind (fun s => yields_some rfl) <| Reported.pure _

theorem evictWindow_reported (r : Nat × Nat) : Leaves Reported (S.evictWindow r) := by
  refine leaves_loop Reported.chained (fun r => ?_) _ _
  refine Reported.read_bind fun must => ?_
  split
  · refine Reported.bind evictStep_reported fun r => ?_
    refine Reported.read_bind fun deg => ?_
    split
    · exact Reported.pure _
    · exact Reported.pure _
  · exact Reported.pure _

theorem markPlaced_reported (origId : Nat) : Leaves Reported (Setting.markPlaced origId) := by
  intro s a s' tr h v hv
  have hmem : Obs.place origId s ∈ tr := note_mem h
  by_cases hvo : v = origId
  · rw [hvo]
    exact .inr ⟨s, hmem⟩
  · left
    have hmarks : Leaves (fun s _ s' => ∀ v ≠ origId, s'.isPlaced[v]! = s.isPlaced[v]!)
        (Setting.markPlaced origId) := by
      have hR : Chained (ε := Obs) fun (s : Placement) _ s' =>
          ∀ v ≠ origId, s'.isPlaced[v]! = s.isPlaced[v]! :=
        ⟨fun _ _ _ => rfl, fun h h' v hv => (h' v hv).trans (h v hv)⟩
      refine leaves_bind hR (leaves_note fun _ _ _ => rfl) fun _ =>
        leaves_update fun s s' h v hv => ?_
      obtain ⟨marks, hmark, h⟩ := Option.bind_eq_some_iff.mp h
      cases h
      by_cases hlt : origId < s.isPlaced.size
      · rw [store_eq hlt] at hmark
        cases hmark
        exact put_get_ne hv true
      · rw [store_none hlt] at hmark
        cases hmark
    rw [← hmarks s a s' tr h v hvo]
    exact hv

theorem placeHeavy_reported (origId : Nat) : Leaves Reported (Setting.placeHeavy origId) :=
  Reported.bind (markPlaced_reported origId) fun _ => Reported.update fun _ => yields_some rfl

theorem placeLight_reported (atHead : Placement) (origId : Nat) :
    Leaves Reported (S.placeLight atHead origId) := by
  refine Reported.bind (flush_reported origId) fun o => ?_
  refine Reported.bind (markPlaced_reported o) fun _ => ?_
  refine Reported.bind (loadParents_reported _) fun count => ?_
  refine Reported.update_bind (fun s => yields_some rfl) ?_
  exact Reported.note_bind <| Reported.update fun _ => yields_some rfl

theorem round_reported (u : Unit) : Leaves Reported (S.round u) := by
  refine Reported.note_bind ?_
  refine Reported.read_bind fun atHead => ?_
  split
  · exact Reported.pure _
  · refine Reported.read_bind fun o => ?_
    refine Reported.note_bind ?_
    refine Reported.read_bind fun cost => ?_
    refine Reported.bind (flush_reported o) fun o => ?_
    refine Reported.read_bind fun deg => ?_
    split
    · exact Reported.bind (placeHeavy_reported o) fun _ => Reported.pure _
    · refine Reported.bind (evictWindow_reported _) fun r => ?_
      refine Reported.read_bind fun deg => ?_
      split
      · exact Reported.bind (placeHeavy_reported _) fun _ => Reported.pure _
      · exact Reported.bind (placeLight_reported _ _) fun _ => Reported.pure _

theorem placeAll_places (hrun : S.placeAll s = some ((), s', tr)) (hv : s'.isPlaced[v]! = true)
    (h0 : s.isPlaced[v]! = false) : ∃ t, Obs.place v t ∈ tr := by
  cases leaves_loop Reported.chained round_reported S.rounds () s () s' tr hrun v hv with
  | inl h =>
    rw [h0] at h
    cases h
  | inr h => exact h

theorem loop_heads (hS : S.Sound) {fuel : Nat} (h : Head S s)
    (hrun : loop S.round fuel () s = some ((), s', tr)) {p : Nat} (hlo : s.minPtr ≤ p)
    (hhi : p ≤ s'.minPtr) : ∃ t, Obs.head t ∈ tr ∧ t.minPtr = p := by
  induction fuel generalizing s tr with
  | zero => cases hrun
  | succ fuel ih =>
    obtain ⟨r, s₁, tr₁, hround, _, hhead, hgo, hstop⟩ := round_spec hS h
    have hmem : Obs.head s ∈ tr₁ := note_mem hround
    obtain ⟨r', s₁', tr₁', tr₂, hround', hrest, rfl⟩ := Comp.bind_some hrun
    rw [hround] at hround'
    cases hround'
    by_cases hp : p = s.minPtr
    · exact ⟨s, List.mem_append_left _ hmem, hp.symm⟩
    · cases r with
      | inl =>
        have hadv := (hgo rfl).2
        obtain ⟨t, ht, htp⟩ := ih hhead hrest (by omega)
        exact ⟨t, List.mem_append_right _ ht, htp⟩
      | inr =>
        cases hrest
        rw [(hstop rfl).1] at hhi
        omega

theorem placeAll_heads (hS : S.Sound) (h : Head S s) (hrun : S.placeAll s = some ((), s', tr))
    {p : Nat} (hlo : s.minPtr ≤ p) (hhi : p ≤ s'.minPtr) : ∃ t, Obs.head t ∈ tr ∧ t.minPtr = p :=
  loop_heads hS h hrun hlo hhi

end GraphReorder
