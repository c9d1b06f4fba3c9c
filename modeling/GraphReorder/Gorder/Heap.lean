import GraphReorder.Gorder.UnitHeap
import GraphReorder.Library.Chain
import GraphReorder.Library.Ranked

/-! What the queue of Gorder stands for: a list of vertices in falling order of their keys. -/
namespace GraphReorder.Gorder
open Library

section Links
variable {L : Array ListElement} {i x : Int}

def nextOf (L : Array ListElement) (v : Nat) : Int := L[v]!.next

def prevOf (L : Array ListElement) (v : Nat) : Int := L[v]!.prev

def keyOf (L : Array ListElement) (v : Nat) : Int := L[v]!.key

def onNext (L : Array ListElement) (i x : Int) : Array ListElement :=
  if 0 ≤ i then L.setIfInBounds i.toNat { L[i.toNat]! with next := x } else L

def onPrev (L : Array ListElement) (i x : Int) : Array ListElement :=
  if 0 ≤ i then L.setIfInBounds i.toNat { L[i.toNat]! with prev := x } else L

def onKey (L : Array ListElement) (i x : Int) : Array ListElement :=
  L.setIfInBounds i.toNat { L[i.toNat]! with key := x }

theorem setNext_eq (h0 : 0 ≤ i) (h : i < L.size) : setNext L i x = some (onNext L i x) := by
  rw [setNext, readAt_eq h0 h, some_bind, writeAt_eq h0 h, onNext, if_pos h0]

theorem setPrev_eq (h0 : 0 ≤ i) (h : i < L.size) : setPrev L i x = some (onPrev L i x) := by
  rw [setPrev, readAt_eq h0 h, some_bind, writeAt_eq h0 h, onPrev, if_pos h0]

theorem setKey_eq (h0 : 0 ≤ i) (h : i < L.size) : setKey L i x = some (onKey L i x) := by
  rw [setKey, readAt_eq h0 h, some_bind, writeAt_eq h0 h, onKey]

theorem linkOn_eq (h : i < L.size) : linkOn L i x = some (onNext L i x) := by
  by_cases h0 : 0 ≤ i
  · rw [linkOn, if_pos h0, setNext_eq h0 h]
  · rw [linkOn, if_neg h0, onNext, if_neg h0]

theorem linkBack_eq (h : i < L.size) : linkBack L i x = some (onPrev L i x) := by
  by_cases h0 : 0 ≤ i
  · rw [linkBack, if_pos h0, setPrev_eq h0 h]
  · rw [linkBack, if_neg h0, onPrev, if_neg h0]

@[simp] theorem size_onNext : (onNext L i x).size = L.size := by
  unfold onNext
  split_ifs <;> simp

@[simp] theorem size_onPrev : (onPrev L i x).size = L.size := by
  unfold onPrev
  split_ifs <;> simp

@[simp] theorem size_onKey : (onKey L i x).size = L.size := by simp [onKey]

theorem field_put {β : Type} (f : ListElement → β) (h : i < L.size) (h0 : 0 ≤ i) (e : ListElement)
    (v : Nat) : f (L.setIfInBounds i.toNat e)[v]! = if (v : Int) = i then f e else f L[v]! := by
  rw [put_get (by omega)]
  by_cases hv : v = i.toNat
  · rw [if_pos hv, if_pos (by omega)]
  · rw [if_neg hv, if_neg (by omega)]

theorem field_same {β : Type} (f : ListElement → β) (e : ListElement)
    (he : f e = f L[i.toNat]!) (v : Nat) : f (L.setIfInBounds i.toNat e)[v]! = f L[v]! := by
  by_cases hv : i.toNat < L.size
  · rw [put_get hv]
    split_ifs with h
    · rw [he, h]
    · rfl
  · rw [Array.setIfInBounds_eq_of_size_le (Nat.le_of_not_lt hv)]

theorem nextOf_onNext (h : i < L.size) (v : Nat) :
    nextOf (onNext L i x) v = if (v : Int) = i then x else nextOf L v := by
  by_cases h0 : 0 ≤ i
  · rw [onNext, if_pos h0]
    exact field_put ListElement.next h h0 _ v
  · rw [onNext, if_neg h0, if_neg (by omega)]

theorem prevOf_onPrev (h : i < L.size) (v : Nat) :
    prevOf (onPrev L i x) v = if (v : Int) = i then x else prevOf L v := by
  by_cases h0 : 0 ≤ i
  · rw [onPrev, if_pos h0]
    exact field_put ListElement.prev h h0 _ v
  · rw [onPrev, if_neg h0, if_neg (by omega)]

theorem keyOf_onKey (h0 : 0 ≤ i) (h : i < L.size) (v : Nat) :
    keyOf (onKey L i x) v = if (v : Int) = i then x else keyOf L v :=
  field_put ListElement.key h h0 _ v

@[simp] theorem prevOf_onNext (v : Nat) : prevOf (onNext L i x) v = prevOf L v := by
  unfold onNext
  split_ifs
  · exact field_same ListElement.prev { L[i.toNat]! with next := x } rfl v
  · rfl

@[simp] theorem keyOf_onNext (v : Nat) : keyOf (onNext L i x) v = keyOf L v := by
  unfold onNext
  split_ifs
  · exact field_same ListElement.key { L[i.toNat]! with next := x } rfl v
  · rfl

@[simp] theorem nextOf_onPrev (v : Nat) : nextOf (onPrev L i x) v = nextOf L v := by
  unfold onPrev
  split_ifs
  · exact field_same ListElement.next { L[i.toNat]! with prev := x } rfl v
  · rfl

@[simp] theorem keyOf_onPrev (v : Nat) : keyOf (onPrev L i x) v = keyOf L v := by
  unfold onPrev
  split_ifs
  · exact field_same ListElement.key { L[i.toNat]! with prev := x } rfl v
  · rfl

@[simp] theorem nextOf_onKey (v : Nat) : nextOf (onKey L i x) v = nextOf L v :=
  field_same ListElement.next { L[i.toNat]! with key := x } rfl v

@[simp] theorem prevOf_onKey (v : Nat) : prevOf (onKey L i x) v = prevOf L v :=
  field_same ListElement.prev { L[i.toNat]! with key := x } rfl v

end Links

def ends (l : List Nat) : HeadEnd := ⟨firstOr (-1) l, lastOr (-1) l⟩

/-- The header of every key holds the ends of its stretch of `l`. -/
def Headed (H : Array HeadEnd) (key : Nat → Int) (l : List Nat) : Prop :=
  ∀ k : Nat, k < H.size → H[k]! = ends (level key k l)

/-- The queue holds the vertices of `l`, in this order. -/
structure Holds (h : UnitHeap) (l : List Nat) : Prop where
  size : h.LinkedList.size = h.heapsize
  updates : h.update.size = h.heapsize
  nodup : l.Nodup
  inside : ∀ v ∈ l, v < h.LinkedList.size
  linked : Segment (nextOf h.LinkedList) (prevOf h.LinkedList) (-1) l (-1)
  ranked : Ranked (keyOf h.LinkedList) l
  keys : ∀ v ∈ l, 0 ≤ keyOf h.LinkedList v ∧ keyOf h.LinkedList v < h.Header.size
  headed : Headed h.Header (keyOf h.LinkedList) l
  top : h.top = firstOr (-1) l

section Headers
variable {H : Array HeadEnd} {k : Int}

theorem ends_meet {l l' : List Nat} {v : Nat} (hd : (l ++ v :: l').Nodup) :
    (ends (l ++ v :: l')).first = (ends (l ++ v :: l')).second ↔ l = [] ∧ l' = [] := by
  rw [ends, firstOr_append, lastOr_append]
  obtain ⟨_, hdl', hdis⟩ := List.nodup_append.mp hd
  change firstOr (v : Int) l = lastOr (v : Int) l' ↔ _
  constructor
  · intro he
    by_cases hl : l = []
    · refine ⟨hl, ?_⟩
      by_contra hl'
      obtain ⟨x, hx, hlx⟩ := lastOr_mem (v : Int) hl'
      rw [hl] at he
      exact (List.nodup_cons.mp hdl').1 (Int.ofNat_inj.mp (he.trans hlx) ▸ hx)
    · obtain ⟨x, hx, hfx⟩ := firstOr_mem (v : Int) hl
      rw [hfx] at he
      by_cases hl' : l' = []
      · rw [hl'] at he
        exact absurd (Int.ofNat_inj.mp he) (hdis x hx v List.mem_cons_self)
      · obtain ⟨y, hy, hly⟩ := lastOr_mem (v : Int) hl'
        exact absurd (Int.ofNat_inj.mp (he.trans hly)) (hdis x hx y (List.mem_cons_of_mem v hy))
  · intro h
    rw [h.1, h.2]
    rfl

theorem leaveHeader_spec {k : Nat} (hk : k < H.size) {l l' : List Nat} {v : Nat}
    (hd : (l ++ v :: l').Nodup) (he : H[k]! = ends (l ++ v :: l')) (before after : Int) :
    ∃ H', leaveHeader H k v (lastOr before l) (firstOr after l') = some H' ∧ H'.size = H.size ∧
      ∀ j, H'[j]! = if j = k then ends (l ++ l') else H[j]! := by
  have hread : readAt H k = some H[k]! := readAt_eq (Int.natCast_nonneg k) (by omega)
  have hwrite (e : HeadEnd) : writeAt H k e = some (H.setIfInBounds k e) :=
    writeAt_eq (Int.natCast_nonneg k) (by omega) e
  have hput (e : HeadEnd) (hfit : e = ends (l ++ l')) :
      ∃ H', writeAt H k e = some H' ∧ H'.size = H.size ∧
        ∀ j, H'[j]! = if j = k then ends (l ++ l') else H[j]! :=
    ⟨_, hwrite e, by simp, fun j => by rw [put_get hk, hfit]⟩
  obtain ⟨_, hdl', hdis⟩ := List.nodup_append.mp hd
  have hvl : v ∉ l := fun hv => hdis v hv v List.mem_cons_self rfl
  have hvl' : v ∉ l' := (List.nodup_cons.mp hdl').1
  have hfirst : (ends (l ++ v :: l')).first = firstOr (v : Int) l := by
    rw [ends, firstOr_append]
    rfl
  have hsecond : (ends (l ++ v :: l')).second = lastOr (v : Int) l' := by
    rw [ends, lastOr_append]
    rfl
  rw [leaveHeader, hread, some_bind, he]
  by_cases hmeet : (ends (l ++ v :: l')).first = (ends (l ++ v :: l')).second
  · obtain ⟨hl, hl'⟩ := (ends_meet hd).mp hmeet
    rw [if_pos hmeet]
    exact hput _ (by rw [hl, hl']; rfl)
  rw [if_neg hmeet]
  by_cases hl : l = []
  · -- the first one of several
    subst hl
    have hne : l' ≠ [] := fun hl' => hmeet ((ends_meet hd).mpr ⟨rfl, hl'⟩)
    have hat : (ends ([] ++ v :: l')).first = (v : Int) := hfirst
    rw [if_pos hat]
    refine hput _ ?_
    rw [ends, ends, firstOr_eq_of_ne_nil after (-1) hne]
    congr 1
    exact lastOr_eq_of_ne_nil _ _ hne
  · obtain ⟨x, hx, hfx⟩ := firstOr_mem (v : Int) hl
    have hnot : (ends (l ++ v :: l')).first ≠ v := by
      rw [hfirst, hfx]
      exact fun hxv => hvl (Int.ofNat_inj.mp hxv ▸ hx)
    rw [if_neg hnot]
    by_cases hl' : l' = []
    · -- the last one of several
      subst hl'
      have hat : (ends (l ++ [v])).second = (v : Int) := hsecond
      rw [if_pos hat]
      refine hput _ ?_
      rw [hfirst, ends, List.append_nil, firstOr_eq_of_ne_nil _ (-1) hl,
        lastOr_eq_of_ne_nil before (-1) hl]
    · obtain ⟨y, hy, hly⟩ := lastOr_mem (v : Int) hl'
      have hnot' : (ends (l ++ v :: l')).second ≠ v := by
        rw [hsecond, hly]
        exact fun hyv => hvl' (Int.ofNat_inj.mp hyv ▸ hy)
      rw [if_neg hnot']
      refine ⟨H, rfl, rfl, fun j => ?_⟩
      split_ifs with hj
      · rw [hj, he, ends, ends, firstOr_append, firstOr_append, lastOr_append, lastOr_append]
        congr 1
        · exact firstOr_eq_of_ne_nil _ _ hl
        · exact lastOr_eq_of_ne_nil _ _ hl'
      · rfl

theorem joinHeader_spec {k : Nat} (hk : k < H.size) {l : List Nat} (he : H[k]! = ends l) (v : Nat) :
    ∃ H', joinHeader H k v = some H' ∧ H'.size = H.size ∧
      ∀ j, H'[j]! = if j = k then ends (l ++ [v]) else H[j]! := by
  have hread : readAt H k = some H[k]! := readAt_eq (Int.natCast_nonneg k) (by omega)
  refine ⟨H.setIfInBounds k (ends (l ++ [v])), ?_, by simp, put_get hk _⟩
  rw [joinHeader, hread, some_bind, he, ends, ends, lastOr_concat, firstOr_append]
  refine (writeAt_eq (Int.natCast_nonneg k) (by omega) _).trans ?_
  congr 3
  cases l with
  | nil => rfl
  | cons u l => exact if_neg (Int.not_lt.mpr (Int.natCast_nonneg u))

variable {key key' : Nat → Int} {l A B : List Nat} {v : Nat}

theorem Headed.leave (hH : Headed H key (A ++ v :: B)) (hd : (A ++ v :: B).Nodup)
    (hr : Ranked key (A ++ v :: B)) (h0 : 0 ≤ key v) (hk : key v < H.size) :
    ∃ H', leaveHeader H (key v) v (lastOr (-1) A) (firstOr (-1) B) = some H' ∧
      H'.size = H.size ∧ Headed H' key (A ++ B) := by
  obtain ⟨k, hkv⟩ : ∃ k : Nat, key v = k := ⟨(key v).toNat, by omega⟩
  have hk' : k < H.size := by omega
  obtain ⟨hA, hB⟩ := hr.around
  have hprev : lastOr (-1) A = lastOr (lastOr (-1) (A.filter (key v < key ·)))
      (level key (key v) A) := by
    rw [← lastOr_append, ← hA]
  have hnext : firstOr (-1) B = firstOr (firstOr (-1) (B.filter (key · < key v)))
      (level key (key v) B) := by
    rw [← firstOr_append, ← hB]
  have hlevel (j : Nat) : level key j (A ++ v :: B) =
      level key j A ++ (if j = k then v :: level key j B else level key j B) := by
    rw [level_append]
    congr 1
    by_cases hj : j = k
    · rw [if_pos hj, level, level, List.filter_cons, if_pos (by simp [hkv, hj])]
    · rw [if_neg hj, level, level, List.filter_cons, if_neg (by simp [hkv]; omega)]
  have hends : H[k]! = ends (level key k A ++ v :: level key k B) := by
    rw [hH k hk', hlevel, if_pos rfl]
  have hd' : (level key k A ++ v :: level key k B).Nodup := by
    have h := hd.filter fun u => decide (key u = k)
    have hl := hlevel k
    rw [if_pos rfl] at hl
    rwa [← hl]
  obtain ⟨H', hrun, hsize, hH'⟩ := leaveHeader_spec hk' hd' hends
    (lastOr (-1) (A.filter (key v < key ·))) (firstOr (-1) (B.filter (key · < key v)))
  rw [hprev, hnext, hkv]
  rw [hkv] at hrun
  refine ⟨H', hrun, hsize, fun j hj => ?_⟩
  rw [hH' j, level_append]
  by_cases hjk : j = k
  · rw [if_pos hjk, hjk]
  · rw [if_neg hjk, hH j (by omega), hlevel, if_neg hjk]

theorem Headed.join (hH : Headed H key (l.erase v)) (hd : l.Nodup) {c : Nat} (hc : c < H.size)
    (hkey : ∀ u, key' u = if u = v then (c : Int) else key u) :
    ∃ H', joinHeader H c v = some H' ∧ H'.size = H.size ∧ Headed H' key' (requeue key c v l) := by
  obtain ⟨H', hrun, hsize, hH'⟩ := joinHeader_spec hc (hH c hc) v
  refine ⟨H', hrun, hsize, fun j hj => ?_⟩
  rw [hH' j, level_requeue hd hkey]
  by_cases hjc : j = c
  · rw [if_pos hjc, if_pos (by omega)]
  · rw [if_neg hjc, if_neg (by omega), hH j (by omega)]

end Headers

section Linking
variable {L : Array ListElement} {A B : List Nat} {v : Nat}

def unlinked (L : Array ListElement) (prev next : Int) : Array ListElement :=
  onPrev (onNext L prev next) next prev

theorem linked_unlinked (hd : (A ++ v :: B).Nodup) (hin : ∀ u ∈ A ++ v :: B, u < L.size)
    (h : Segment (nextOf L) (prevOf L) (-1) (A ++ v :: B) (-1)) :
    Segment (nextOf (unlinked L (lastOr (-1) A) (firstOr (-1) B)))
      (prevOf (unlinked L (lastOr (-1) A) (firstOr (-1) B))) (-1) (A ++ B) (-1) := by
  have hA := lastOr_lt fun u hu => hin u (List.mem_append_left _ hu)
  have hB := firstOr_lt fun u hu => hin u (List.mem_append_right _ (List.mem_cons_of_mem v hu))
  refine h.unlink hd (fun w _ => ?_) (fun w _ => ?_) (by decide) (by decide)
  · rw [Gorder.unlinked, nextOf_onPrev, nextOf_onNext hA]
  · rw [Gorder.unlinked, prevOf_onPrev (by simpa using hB), prevOf_onNext]

theorem nextOf_unlinked (hv : v ∉ A) (hin : ∀ u ∈ A, u < L.size) (next : Int) :
    nextOf (unlinked L (lastOr (-1) A) next) v = nextOf L v := by
  rw [unlinked, nextOf_onPrev, nextOf_onNext (lastOr_lt hin), if_neg (ne_lastOr hv (by decide))]

@[simp] theorem keyOf_unlinked (prev next : Int) (u : Nat) :
    keyOf (unlinked L prev next) u = keyOf L u := by simp [unlinked]

@[simp] theorem size_unlinked (prev next : Int) : (unlinked L prev next).size = L.size := by
  simp [unlinked]

def inserted (L : Array ListElement) (v : Nat) (prev next : Int) : Array ListElement :=
  onNext (onPrev (onNext (onPrev L v prev) v next) next v) prev v

@[simp] theorem keyOf_inserted (prev next : Int) (u : Nat) :
    keyOf (inserted L v prev next) u = keyOf L u := by simp [inserted]

@[simp] theorem size_inserted (prev next : Int) : (inserted L v prev next).size = L.size := by
  simp [inserted]

/-- Whatever the order of the four writes, the element ends up in between. -/
theorem linked_insert {L' : Array ListElement} (hd : (A ++ v :: B).Nodup)
    (h : Segment (nextOf L) (prevOf L) (-1) (A ++ B) (-1))
    (hnext : ∀ w : Nat, nextOf L' w = if (w : Int) = lastOr (-1) A then (v : Int)
      else if (w : Int) = v then firstOr (-1) B else nextOf L w)
    (hprev : ∀ w : Nat, prevOf L' w = if (w : Int) = firstOr (-1) B then (v : Int)
      else if (w : Int) = v then lastOr (-1) A else prevOf L w) :
    Segment (nextOf L') (prevOf L') (-1) (A ++ v :: B) (-1) := by
  obtain ⟨_, hdB, hdis⟩ := List.nodup_append.mp hd
  have hvA : v ∉ A := fun hv => hdis v hv v List.mem_cons_self rfl
  have hvB : v ∉ B := (List.nodup_cons.mp hdB).1
  have hne (w : Nat) (hw : w ∈ A ++ B) : (w : Int) ≠ v := fun he => by
    rw [Int.ofNat_inj.mp he] at hw
    exact (List.mem_append.mp hw).elim hvA hvB
  refine h.insert hd ?_ ?_ (fun w hw => ?_) (fun w hw => ?_) (by decide) (by decide)
  · rw [hnext, if_neg (ne_lastOr hvA (by decide)), if_pos rfl]
  · rw [hprev, if_neg (ne_firstOr hvB (by decide)), if_pos rfl]
  · rw [hnext, if_neg (hne w hw)]
  · rw [hprev, if_neg (hne w hw)]

theorem linked_inserted (hd : (A ++ v :: B).Nodup) (hin : ∀ u ∈ A ++ v :: B, u < L.size)
    (h : Segment (nextOf L) (prevOf L) (-1) (A ++ B) (-1)) :
    Segment (nextOf (inserted L v (lastOr (-1) A) (firstOr (-1) B)))
      (prevOf (inserted L v (lastOr (-1) A) (firstOr (-1) B))) (-1) (A ++ v :: B) (-1) := by
  have hA := lastOr_lt fun u hu => hin u (List.mem_append_left _ hu)
  have hB := firstOr_lt fun u hu => hin u (List.mem_append_right _ (List.mem_cons_of_mem v hu))
  have hvs : (v : Int) < L.size :=
    Int.ofNat_lt.mpr (hin v (List.mem_append_right _ List.mem_cons_self))
  refine linked_insert hd h (fun w => ?_) fun w => ?_
  · rw [inserted, nextOf_onNext (by simpa using hA), nextOf_onPrev,
      nextOf_onNext (by simpa using hvs), nextOf_onPrev]
  · rw [inserted, prevOf_onNext, prevOf_onPrev (by simpa using hB), prevOf_onNext,
      prevOf_onPrev hvs]

/-- The relinking in `IncrementKey`: the element passes those of its stretch before it. -/
theorem moveBefore_spec {a g : List Nat} (hd : (a ++ g ++ v :: B).Nodup)
    (hin : ∀ u ∈ a ++ g ++ v :: B, u < L.size)
    (h : Segment (nextOf L) (prevOf L) (-1) (a ++ g ++ v :: B) (-1)) :
    ∃ L', moveBefore L (firstOr (v : Int) g) v (lastOr (-1) (a ++ g)) (firstOr (-1) B) = some L' ∧
      L'.size = L.size ∧ (∀ u, keyOf L' u = keyOf L u) ∧
      Segment (nextOf L') (prevOf L') (-1) (a ++ v :: (g ++ B)) (-1) := by
  cases g with
  | nil =>
    rw [List.append_nil] at h
    exact ⟨L, if_neg (by simp [firstOr]), rfl, fun _ => rfl, h⟩
  | cons w g =>
    have hvs := hin v (List.mem_append_right _ List.mem_cons_self)
    have hws := hin w (List.mem_append_left _ (List.mem_append_right _ List.mem_cons_self))
    have hlast := lastOr_lt fun u hu => hin u (List.mem_append_left _ hu)
    have hfirst := firstOr_lt fun u hu =>
      hin u (List.mem_append_right _ (List.mem_cons_of_mem v hu))
    have hlast' := lastOr_lt fun u hu =>
      hin u (List.mem_append_left _ (List.mem_append_left (w :: g) hu))
    have hv0 : (0 : Int) ≤ v := Int.natCast_nonneg v
    have hw0 : (0 : Int) ≤ w := Int.natCast_nonneg w
    have hvs' : (v : Int) < L.size := Int.ofNat_lt.mpr hvs
    have hws' : (w : Int) < L.size := Int.ofNat_lt.mpr hws
    have hl0 : 0 ≤ lastOr (-1) (a ++ w :: g) := by
      obtain ⟨x, _, hx⟩ := lastOr_mem (-1) (l := a ++ w :: g) (by simp)
      omega
    have hne : (w : Int) ≠ v := fun he => by
      rw [Int.ofNat_inj.mp he] at hd
      exact (List.nodup_append.mp hd).2.2 v (by simp) v List.mem_cons_self rfl
    have hseg := linked_unlinked hd hin h
    have hperm : (a ++ v :: (w :: g ++ B)).Perm (a ++ w :: g ++ v :: B) := by
      rw [List.append_assoc]
      exact List.Perm.append_left a List.perm_middle.symm
    generalize hL : unlinked L (lastOr (-1) (a ++ w :: g)) (firstOr (-1) B) = L₁ at hseg
    have hsize : L₁.size = L.size := by rw [← hL, size_unlinked]
    rw [List.append_assoc] at hseg
    have hseg' : Segment (nextOf L₁) (prevOf L₁) (-1) (a ++ w :: (g ++ B)) (-1) := hseg
    obtain ⟨hheadprev, _⟩ := hseg'.middle
    refine ⟨inserted L₁ v (lastOr (-1) a) w, ?_, by rw [size_inserted, hsize], fun u => ?_, ?_⟩
    · have hback : linkBack (onNext L (lastOr (-1) (a ++ w :: g)) (firstOr (-1) B)) (firstOr (-1) B)
          (lastOr (-1) (a ++ w :: g)) = some L₁ := by
        rw [← hL]
        exact linkBack_eq (by simpa using hfirst)
      have hhead : firstOr (v : Int) (w :: g) = w := rfl
      have hp : L₁[w]!.prev = lastOr (-1) a := hheadprev
      simp only [moveBefore, hhead, if_pos hne, setNext_eq hl0 hlast, some_bind, hback,
        readAt_nat (hsize.symm ▸ hws), hp]
      rw [setPrev_eq hv0 (by omega), some_bind, setNext_eq hv0 (by simp; omega), some_bind,
        setPrev_eq hw0 (by simp; omega), some_bind, linkOn_eq (by simp; omega)]
      rfl
    · rw [keyOf_inserted, ← hL, keyOf_unlinked]
    · refine linked_inserted (B := w :: g ++ B) (hperm.nodup_iff.mpr hd) (fun u hu => ?_) hseg
      rw [hsize]
      exact hin u (hperm.mem_iff.mp hu)

/-- Links of an element outside the list do not matter. -/
theorem linked_outside {l : List Nat} {a b : Int} (hv : v ∉ l) (hvs : v < L.size)
    (h : Segment (nextOf L) (prevOf L) (-1) l (-1)) :
    Segment (nextOf (onNext (onPrev L v a) v b)) (prevOf (onNext (onPrev L v a) v b)) (-1) l
      (-1) := by
  have hne (w : Nat) (hw : w ∈ l) : (w : Int) ≠ v := fun he => hv (Int.ofNat_inj.mp he ▸ hw)
  have hvs' : (v : Int) < L.size := Int.ofNat_lt.mpr hvs
  refine h.congr (fun w hw => ?_) fun w hw => ?_
  · rw [nextOf_onNext (by simpa using hvs'), if_neg (hne w hw), nextOf_onPrev]
  · rw [prevOf_onNext, prevOf_onPrev hvs', if_neg (hne w hw)]

end Linking

end GraphReorder.Gorder
