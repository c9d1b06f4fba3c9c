import Mathlib.Data.List.Count
import Mathlib.Data.List.Sort
import GraphReorder.Library.Permutation

/-! Top-down merge sort of records in checked storage, largest value first, on closed index
ranges and 32-bit words. Records of equal value keep their order. -/
namespace GraphReorder.Library

/-- Storage `β` of records `α`, read and written one at a time. -/
structure Cells (β α : Type) where
  get : β → Nat → Option α
  put : β → Nat → α → Option β

structure Cells.Lawful {β α : Type} (C : Cells β α) (view : β → Array α) : Prop where
  get : ∀ b i, C.get b i = (view b)[i]?
  put : ∀ b i x, i < (view b).size → ∃ b', C.put b i x = some b' ∧
    view b' = (view b).setIfInBounds i x
  out : ∀ b i x, (view b).size ≤ i → C.put b i x = none

structure Merging (α : Type) where
  i : Nat
  j : Nat
  k : Nat
  temp : Array α

section Definitions
variable {β α : Type} [Inhabited α] (C : Cells β α) (val : α → Nat)

def takeLeft (b : β) (m : Merging α) : Option (Merging α) := do
  some { m with temp := ← store m.temp m.k (← C.get b m.i), i := m.i + 1, k := m.k + 1 }

def takeRight (b : β) (m : Merging α) : Option (Merging α) := do
  some { m with temp := ← store m.temp m.k (← C.get b m.j), j := m.j + 1, k := m.k + 1 }

/-- `while (i<=mid && j<=high)`: the larger of the two front records, the left one first. -/
def mergeBoth (b : β) (high mid : Nat) : Nat → Merging α → Option (Merging α) :=
  loop fun m => do
    if m.i ≤ mid && m.j ≤ high then
      if val (← C.get b m.j) ≤ val (← C.get b m.i) then
        return .inl (← takeLeft C b m)
      return .inl (← takeRight C b m)
    return .inr m

def mergeLeft (b : β) (mid : Nat) : Nat → Merging α → Option (Merging α) :=
  loop fun m => do
    if m.i ≤ mid then return .inl (← takeLeft C b m)
    return .inr m

def mergeRight (b : β) (high : Nat) : Nat → Merging α → Option (Merging α) :=
  loop fun m => do
    if m.j ≤ high then return .inl (← takeRight C b m)
    return .inr m

def writeBack (temp : Array α) (low high : Nat) (b : β) : Option β :=
  forRange low (high + 1) (fun i b => do C.put b i (← temp[i - low]?)) b

def mergeCells (b : β) (low high mid : Nat) : Option β := do
  let size := usub high low + 1
  let m ← mergeBoth C val b high mid (size + 1) ⟨low, mid + 1, 0, Array.replicate size default⟩
  let m ← mergeLeft C b mid (size + 1) m
  let m ← mergeRight C b high (size + 1) m
  writeBack C m.temp low high b

def sortPair (b : β) (low high : Nat) : Option β := do
  let x ← C.get b high
  let y ← C.get b low
  if val y < val x then C.put (← C.put b high y) low x else some b

def sortCells : Nat → β → Nat → Nat → Option β
  | 0, _, _, _ => none
  | depth + 1, b, low, high =>
    if high ≤ low then some b
    else if usub high low = 1 then sortPair C val b low high
    else do
      let mid := uadd low high / 2
      let b ← sortCells depth b low mid
      let b ← sortCells depth b (mid + 1) high
      mergeCells C val b low high mid

end Definitions

section Stability
variable {α : Type} (val : α → Nat)

def Stable (l l' : List α) : Prop :=
  ∀ c, l'.filter (fun x => decide (val x = c)) = l.filter fun x => decide (val x = c)

variable {val} {l l' : List α}

theorem Stable.refl (l : List α) : Stable val l l := fun _ => rfl

theorem Stable.trans {l'' : List α} (h : Stable val l l') (h' : Stable val l' l'') :
    Stable val l l'' := fun c => (h' c).trans (h c)

theorem Stable.append {r r' : List α} (h : Stable val l l') (h' : Stable val r r') :
    Stable val (l ++ r) (l' ++ r') := fun c => by
  rw [List.filter_append, List.filter_append, h c, h' c]

theorem Stable.perm (h : Stable val l l') : l'.Perm l := by
  classical
  refine List.perm_iff_count.mpr fun x => ?_
  have hx : decide (val x = val x) = true := by simp
  rw [← List.count_filter (p := fun y => decide (val y = val x)) hx, h,
    List.count_filter (p := fun y => decide (val y = val x)) hx]

theorem Stable.tail {before after : List α} {x : α}
    (h : Stable val (before ++ x :: after) (x :: l')) (hbefore : ∀ y ∈ before, val y ≠ val x) :
    Stable val (before ++ after) l' := by
  intro c
  have hc := h c
  by_cases hxc : val x = c
  · have hnone : before.filter (fun y => decide (val y = c)) = [] := by
      refine List.filter_eq_nil_iff.mpr fun y hy => ?_
      rw [decide_eq_true_eq, ← hxc]
      exact hbefore y hy
    rw [List.filter_append, hnone, List.nil_append] at hc ⊢
    simpa [List.filter_cons, hxc] using hc
  · simpa [List.filter_append, List.filter_cons, hxc] using hc

/-- Records with increasing tags are rearranged together with their tags, which increase among
the records of one value. By induction on the result: its first record is the earliest of its
value. -/
theorem Stable.tagged {L : List (Nat × α)} (h : Stable val (L.map Prod.snd) l')
    (hinc : L.Pairwise fun x y => x.1 < y.1) :
    ∃ L' : List (Nat × α), L'.Perm L ∧ L'.map Prod.snd = l' ∧
      L'.Pairwise fun x y => val x.2 = val y.2 → x.1 < y.1 := by
  induction l' generalizing L with
  | nil =>
    have hnil : L = [] := List.map_eq_nil_iff.mp h.perm.symm.eq_nil
    exact ⟨[], by rw [hnil], rfl, .nil⟩
  | cons x l' ih =>
    have hx := h (val x)
    rw [List.filter_cons_of_pos (by simp), List.filter_map] at hx
    obtain ⟨p, rest, hfilter, hp, _⟩ := List.map_eq_cons_iff.mp hx.symm
    obtain ⟨before, after, hL, hbefore, hval, _⟩ := List.filter_eq_cons_iff.mp hfilter
    subst hL hp
    have hbefore' (q : Nat × α) (hq : q ∈ before) : ¬ val q.2 = val p.2 := by
      simpa using hbefore q hq
    have hless : Stable val ((before ++ after).map Prod.snd) l' := by
      rw [List.map_append, List.map_cons] at h
      rw [List.map_append]
      refine h.tail fun y hy => ?_
      obtain ⟨q, hq, rfl⟩ := List.mem_map.mp hy
      exact hbefore' q hq
    have hp := List.pairwise_append.mp hinc
    have hinc' : (before ++ after).Pairwise fun x y => x.1 < y.1 :=
      hinc.sublist (List.Sublist.append (.refl _) (List.sublist_cons_self _ _))
    obtain ⟨L', hperm, hmap, hties⟩ := ih hless hinc'
    refine ⟨p :: L', (hperm.cons p).trans List.perm_middle.symm, by rw [List.map_cons, hmap],
      List.pairwise_cons.mpr ⟨fun q hq hpq => ?_, hties⟩⟩
    cases List.mem_append.mp (hperm.mem_iff.mp hq) with
    | inl hq => exact absurd hpq.symm (hbefore' q hq)
    | inr hq => exact (List.pairwise_cons.mp hp.2.1).1 q hq

/-- The same on a range of an array: one rearrangement of the indices, which keeps the order of
those with equal values. -/
theorem Stable.indices [Inhabited α] {a a' : Array α} {lo hi : Nat}
    (h : Stable val (slice a lo hi) (slice a' lo hi)) :
    ∃ σ : Nat → Nat, Set.BijOn σ (Set.Ico lo hi) (Set.Ico lo hi) ∧
      (∀ i ∈ Set.Ico lo hi, a'[i]! = a[σ i]!) ∧
      ∀ i ∈ Set.Ico lo hi, ∀ j ∈ Set.Ico lo hi, i < j → val a'[i]! = val a'[j]! → σ i < σ j := by
  have hinc : ((List.range' lo (hi - lo)).map fun i => (i, a[i]!)).Pairwise
      fun x y => x.1 < y.1 := List.pairwise_map.mpr List.pairwise_lt_range'
  have hsnd : ((List.range' lo (hi - lo)).map fun i => (i, a[i]!)).map Prod.snd =
      slice a lo hi := List.map_map
  rw [← hsnd] at h
  obtain ⟨L', hperm, hmap, hties⟩ := h.tagged hinc
  have htags : (L'.map Prod.fst).Perm (List.range' lo (hi - lo)) := by
    have hfst := hperm.map Prod.fst
    rwa [List.map_map, List.map_id''] at hfst
    exact fun _ => rfl
  have hcell (i : Nat) (hi' : i ∈ Set.Ico lo hi) :
      ∃ x, L'[i - lo]? = some x ∧ x.1 = (L'.map Prod.fst).getD (i - lo) 0 ∧ x.2 = a'[i]! ∧
        x.2 = a[x.1]! := by
    have hback : lo + (i - lo) = i := Nat.add_sub_cancel' hi'.1
    have hlt : i - lo < hi - lo := Nat.sub_lt_sub_right hi'.1 hi'.2
    have hk : i - lo < L'.length := by
      rwa [hperm.length_eq, List.length_map, List.length_range']
    have hval := congrArg (fun l => l[i - lo]?) hmap
    simp only [slice, List.getElem?_map, List.getElem?_range' hlt, List.getElem?_eq_getElem hk,
      Option.map_some, Option.some.injEq, Nat.one_mul, hback] at hval
    obtain ⟨j, _, he⟩ := List.mem_map.mp (hperm.mem_iff.mp (List.getElem_mem hk))
    refine ⟨L'[i - lo], List.getElem?_eq_getElem hk, by simp [hk], hval, ?_⟩
    rw [← he]
  refine ⟨_, bijOn_of_perm_range' htags, fun i hi' => ?_, fun i hi' j hj' hlt he => ?_⟩
  · obtain ⟨x, _, h1, h2, h3⟩ := hcell i hi'
    rw [← h2, h3, h1]
  · obtain ⟨x, hx, h1, h2, _⟩ := hcell i hi'
    obtain ⟨y, hy, h1', h2', _⟩ := hcell j hj'
    obtain ⟨hxlt, rfl⟩ := List.getElem?_eq_some_iff.mp hx
    obtain ⟨hylt, rfl⟩ := List.getElem?_eq_some_iff.mp hy
    rw [← h1, ← h1']
    refine List.pairwise_iff_getElem.mp hties _ _ hxlt hylt ?_ (by rw [h2, h2', he])
    exact Nat.sub_lt_sub_right hi'.1 hlt

def Descending (val : α → Nat) (l : List α) : Prop := l.Pairwise fun x y => val y ≤ val x

theorem Descending.get [Inhabited α] {a : Array α} {lo hi i j : Nat}
    (h : Descending val (slice a lo hi)) (hlo : lo ≤ i) (hlt : i < j) (hhi : j < hi) :
    val a[j]! ≤ val a[i]! := by
  rw [Descending, ← slice_append a (hlo.trans hlt.le) hhi.le] at h
  exact (List.pairwise_append.mp h).2.2 _ (mem_slice.mpr ⟨i, hlo, hlt, rfl⟩) _
    (mem_slice.mpr ⟨j, le_rfl, hhi, rfl⟩)

def mergeLists (val : α → Nat) (l r : List α) : List α :=
  l.merge r fun x y => decide (val y ≤ val x)

theorem mergeLists_left {x : α} {l r : List α} (h : ∀ y ∈ r.head?, val y ≤ val x) :
    mergeLists val (x :: l) r = x :: mergeLists val l r := by
  unfold mergeLists
  cases r with
  | nil => simp
  | cons y r =>
    have hy : val y ≤ val x := h y rfl
    simp [hy]

theorem mergeLists_right {y : α} {l r : List α} (h : ∀ x ∈ l.head?, val x < val y) :
    mergeLists val l (y :: r) = y :: mergeLists val l r := by
  unfold mergeLists
  cases l with
  | nil => simp
  | cons x l =>
    have hx : ¬ val y ≤ val x := Nat.not_le.mpr (h x rfl)
    simp [hx]

theorem mergeLists_stable (hl : Descending val l) (r : List α) :
    Stable val (l ++ r) (mergeLists val l r) := by
  intro c
  induction l generalizing r with
  | nil => simp [mergeLists]
  | cons x l ihl =>
    induction r with
    | nil => simp [mergeLists]
    | cons y r ihr =>
      have hd := List.pairwise_cons.mp hl
      by_cases h : val y ≤ val x
      · have hm : mergeLists val (x :: l) (y :: r) = x :: mergeLists val l (y :: r) := by
          simp [mergeLists, h]
        rw [hm, List.cons_append, List.filter_cons, List.filter_cons, ihl hd.2]
      · have hm : mergeLists val (x :: l) (y :: r) = y :: mergeLists val (x :: l) r :=
          mergeLists_right fun z hz => by
            obtain rfl : x = z := by simpa using hz
            omega
        rw [hm, List.filter_cons, ihr]
        by_cases hc : val y = c
        · -- everything on the left is smaller than `y`, so nothing of its value is passed
          have hnone : (x :: l).filter (fun z => decide (val z = c)) = [] := by
            refine List.filter_eq_nil_iff.mpr fun z hz => ?_
            have hzx : val z ≤ val x := by
              cases hz with
              | head => exact le_rfl
              | tail _ hz => exact hd.1 z hz
            simp only [decide_eq_true_eq]
            omega
          rw [List.filter_append, List.filter_append, hnone, List.nil_append, List.nil_append,
            List.filter_cons]
        · simp [List.filter_append, List.filter_cons, hc]

theorem mergeLists_descending {r : List α} (hl : Descending val l) (hr : Descending val r) :
    Descending val (mergeLists val l r) := by
  have hm : (mergeLists val l r).Pairwise fun x y => decide (val y ≤ val x) = true := by
    refine List.pairwise_merge ?_ ?_ l r (hl.imp fun h => decide_eq_true h)
      (hr.imp fun h => decide_eq_true h)
    · intro a b c hab hbc
      simp only [decide_eq_true_eq] at *
      omega
    · intro a b
      simp only [Bool.or_eq_true, decide_eq_true_eq]
      omega
  exact hm.imp fun h => of_decide_eq_true h

end Stability

section Merge
variable {β α : Type} [Inhabited α] {C : Cells β α} {view : β → Array α} {val : α → Nat}
variable {b : β} {low mid high : Nat} {m : Merging α}

/-- While the runs `low..mid` and `mid+1..high` are merged: what is in `temp`, followed by the
merge of what is left of them. -/
structure Merged (val : α → Nat) (a : Array α) (low mid high : Nat) (m : Merging α) : Prop where
  left : m.i ≤ mid + 1
  right : m.j ≤ high + 1
  count : m.k + (mid + 1 - m.i) + (high + 1 - m.j) = high + 1 - low
  room : m.temp.size = high + 1 - low
  parts : slice m.temp 0 m.k ++
      mergeLists val (slice a m.i (mid + 1)) (slice a m.j (high + 1)) =
    mergeLists val (slice a low (mid + 1)) (slice a (mid + 1) (high + 1))

theorem slice_head {a : Array α} {lo hi : Nat} {x : α} (h : x ∈ (slice a lo hi).head?) :
    lo < hi ∧ x = a[lo]! := by
  by_cases hlt : lo < hi
  · rw [slice_cons a hlt] at h
    exact ⟨hlt, (Option.some.inj h).symm⟩
  · rw [slice_empty a (by omega)] at h
    cases h

theorem takeLeft_spec (hC : C.Lawful view) (hb : high < (view b).size) (hmid : mid < high)
    (h : Merged val (view b) low mid high m) (hi : m.i ≤ mid)
    (hj : m.j ≤ high → val (view b)[m.j]! ≤ val (view b)[m.i]!) :
    ∃ m', takeLeft C b m = some m' ∧ Merged val (view b) low mid high m' ∧
      m'.i = m.i + 1 ∧ m'.j = m.j := by
  have hk : m.k < m.temp.size := by
    have := h.count
    have := h.room
    omega
  refine ⟨⟨m.i + 1, m.j, m.k + 1, m.temp.setIfInBounds m.k (view b)[m.i]!⟩, ?_, ⟨by
    change m.i + 1 ≤ _; omega, h.right, ?_, ?_, ?_⟩, rfl, rfl⟩
  · have hsize : m.i < (view b).size := by omega
    simp only [takeLeft, hC.get, read_eq hsize, store_eq hk, Option.bind_eq_bind, Option.bind_some]
  · have := h.count
    change m.k + 1 + (mid + 1 - (m.i + 1)) + (high + 1 - m.j) = _
    omega
  · simpa using h.room
  · have hlt : m.i < mid + 1 := Nat.lt_succ_of_le hi
    rw [← h.parts, slice_cons (view b) hlt, mergeLists_left fun y hy => ?_]
    · rw [slice_succ _ (Nat.zero_le _), slice_put_outside (.inr le_rfl), put_get_self hk,
        List.append_assoc, List.singleton_append]
    · obtain ⟨hlt, rfl⟩ := slice_head hy
      exact hj (by omega)

theorem takeRight_spec (hC : C.Lawful view) (hb : high < (view b).size)
    (h : Merged val (view b) low mid high m) (hj : m.j ≤ high)
    (hi : m.i ≤ mid → val (view b)[m.i]! < val (view b)[m.j]!) :
    ∃ m', takeRight C b m = some m' ∧ Merged val (view b) low mid high m' ∧
      m'.i = m.i ∧ m'.j = m.j + 1 := by
  have hk : m.k < m.temp.size := by
    have := h.count
    have := h.room
    omega
  refine ⟨⟨m.i, m.j + 1, m.k + 1, m.temp.setIfInBounds m.k (view b)[m.j]!⟩, ?_, ⟨h.left, by
    change m.j + 1 ≤ _; omega, ?_, ?_, ?_⟩, rfl, rfl⟩
  · have hsize : m.j < (view b).size := by omega
    simp only [takeRight, hC.get, read_eq hsize, store_eq hk, Option.bind_eq_bind, Option.bind_some]
  · have := h.count
    change m.k + 1 + (mid + 1 - m.i) + (high + 1 - (m.j + 1)) = _
    omega
  · simpa using h.room
  · have hlt : m.j < high + 1 := Nat.lt_succ_of_le hj
    rw [← h.parts, slice_cons (view b) hlt, mergeLists_right fun x hx => ?_]
    · rw [slice_succ _ (Nat.zero_le _), slice_put_outside (.inr le_rfl), put_get_self hk,
        List.append_assoc, List.singleton_append]
    · obtain ⟨hlt, rfl⟩ := slice_head hx
      exact hi (by omega)

theorem mergeBoth_spec (hC : C.Lawful view) (hb : high < (view b).size) (hmid : mid < high)
    (h : Merged val (view b) low mid high m) (fuel : Nat) (hf : high + 1 - low < fuel) :
    ∃ m', mergeBoth C val b high mid fuel m = some m' ∧ Merged val (view b) low mid high m' ∧
      (mid < m'.i ∨ high < m'.j) := by
  refine loop_rule (Merged val (view b) low mid high) _ (fun m => high + 1 - low - m.k) ?_ h
    (by omega)
  intro m h
  have hc := h.count
  by_cases hgo : m.i ≤ mid ∧ m.j ≤ high
  · left
    have hgo' : (decide (m.i ≤ mid) && decide (m.j ≤ high)) = true := by simpa using hgo
    have hi : m.i < (view b).size := by omega
    have hj : m.j < (view b).size := by omega
    simp only [hgo', if_true, hC.get, read_eq hi, read_eq hj, Option.bind_eq_bind,
      Option.bind_some]
    by_cases hle : val (view b)[m.j]! ≤ val (view b)[m.i]!
    · obtain ⟨m', hm, h', hi, hj⟩ := takeLeft_spec hC hb hmid h hgo.1 fun _ => hle
      refine ⟨m', by simp [hle, hm], h', ?_⟩
      have := h'.count
      omega
    · obtain ⟨m', hm, h', hi, hj⟩ := takeRight_spec hC hb h hgo.2 fun _ => Nat.not_le.mp hle
      refine ⟨m', by simp [hle, hm], h', ?_⟩
      have := h'.count
      omega
  · right
    refine ⟨m, ?_, h, by omega⟩
    have hgo' : (decide (m.i ≤ mid) && decide (m.j ≤ high)) = false := by simpa using hgo
    simp [hgo']

theorem mergeLeft_spec (hC : C.Lawful view) (hb : high < (view b).size) (hmid : mid < high)
    (h : Merged val (view b) low mid high m) (hend : mid < m.i ∨ high < m.j) (fuel : Nat)
    (hf : high + 1 - low < fuel) :
    ∃ m', mergeLeft C b mid fuel m = some m' ∧ Merged val (view b) low mid high m' ∧
      mid < m'.i := by
  refine loop_rule (fun m => Merged val (view b) low mid high m ∧ (mid < m.i ∨ high < m.j)) _
    (fun m => high + 1 - low - m.k) ?_ ⟨h, hend⟩ (by omega)
  intro m ⟨h, hend⟩
  have hc := h.count
  by_cases hgo : m.i ≤ mid
  · left
    obtain ⟨m', hm, h', hi, hj⟩ := takeLeft_spec hC hb hmid h hgo fun hle => by omega
    refine ⟨m', by simp [hgo, hm], ⟨h', by omega⟩, ?_⟩
    have := h'.count
    omega
  · right
    exact ⟨m, by simp [hgo], h, by omega⟩

theorem mergeRight_spec (hC : C.Lawful view) (hb : high < (view b).size)
    (h : Merged val (view b) low mid high m) (hend : mid < m.i) (fuel : Nat)
    (hf : high + 1 - low < fuel) :
    ∃ m', mergeRight C b high fuel m = some m' ∧ Merged val (view b) low mid high m' ∧
      mid < m'.i ∧ high < m'.j := by
  refine loop_rule (fun m => Merged val (view b) low mid high m ∧ mid < m.i) _
    (fun m => high + 1 - low - m.k) ?_ ⟨h, hend⟩ (by omega)
  intro m ⟨h, hend⟩
  have hc := h.count
  by_cases hgo : m.j ≤ high
  · left
    obtain ⟨m', hm, h', hi, hj⟩ := takeRight_spec hC hb h hgo fun hle => by omega
    refine ⟨m', by simp [hgo, hm], ⟨h', by omega⟩, ?_⟩
    have := h'.count
    omega
  · right
    exact ⟨m, by simp [hgo], h, by omega, by omega⟩

structure Outside (low high : Nat) (a a' : Array α) : Prop where
  size : a'.size = a.size
  same : ∀ i, i < low ∨ high < i → a'[i]! = a[i]!

theorem Outside.refl (low high : Nat) (a : Array α) : Outside low high a a := ⟨rfl, fun _ _ => rfl⟩

theorem Outside.trans {a a' a'' : Array α} (h : Outside low high a a')
    (h' : Outside low high a' a'') : Outside low high a a'' :=
  ⟨h'.size.trans h.size, fun i hi => (h'.same i hi).trans (h.same i hi)⟩

theorem Outside.mono {a a' : Array α} {low' high' : Nat} (h : Outside low' high' a a')
    (hl : low ≤ low') (hh : high' ≤ high) : Outside low high a a' :=
  ⟨h.size, fun i hi => h.same i (by omega)⟩

theorem Outside.put {a : Array α} {i : Nat} (hl : low ≤ i) (hh : i ≤ high) (x : α) :
    Outside low high a (a.setIfInBounds i x) :=
  ⟨by simp, fun j hj => put_get_ne (by omega) x⟩

theorem writeBack_spec (hC : C.Lawful view) (hb : high < (view b).size) {temp : Array α}
    (ht : temp.size = high + 1 - low) (hle : low ≤ high) :
    ∃ b', writeBack C temp low high b = some b' ∧ Outside low high (view b) (view b') ∧
      slice (view b') low (high + 1) = slice temp 0 (high + 1 - low) := by
  refine forRange_rule (fun i b' => Outside low high (view b) (view b') ∧
      slice (view b') low i = slice temp 0 (i - low)) (by omega)
    ⟨.refl low high _, by simp [slice_empty]⟩ ?_
  intro i b' hl hi ⟨ho, hs⟩
  have hsz : i < (view b').size := by
    rw [ho.size]
    omega
  have htz : i - low < temp.size := by omega
  obtain ⟨b'', hput, hv⟩ := hC.put b' i temp[i - low]! hsz
  refine ⟨b'', by simp [read_eq htz, hput], ?_, ?_⟩
  · rw [hv]
    exact ho.trans (.put hl (by omega) _)
  · have hn : i + 1 - low = i - low + 1 := by omega
    rw [hv, hn, slice_succ _ hl, slice_succ _ (Nat.zero_le _), slice_put_outside (.inr le_rfl),
      hs, put_get_self hsz]

theorem mergeCells_spec (val : α → Nat) (hC : C.Lawful view) (hb : high < (view b).size)
    (hlow : low ≤ mid)
    (hmid : mid < high) :
    ∃ b', mergeCells C val b low high mid = some b' ∧ Outside low high (view b) (view b') ∧
      slice (view b') low (high + 1) =
        mergeLists val (slice (view b) low (mid + 1)) (slice (view b) (mid + 1) (high + 1)) := by
  have hsub : usub high low + 1 = high + 1 - low := by
    rw [usub_of_le (by omega)]
    omega
  have h0 : Merged val (view b) low mid high
      ⟨low, mid + 1, 0, Array.replicate (usub high low + 1) default⟩ :=
    ⟨by change low ≤ _; omega, by change mid + 1 ≤ _; omega, by
      change 0 + (mid + 1 - low) + (high + 1 - (mid + 1)) = _; omega, by simp [hsub], by
      simp [slice_empty]⟩
  obtain ⟨m₁, hm₁, h₁, he₁⟩ := mergeBoth_spec hC hb hmid h0 (high + 1 - low + 1) (by omega)
  obtain ⟨m₂, hm₂, h₂, he₂⟩ := mergeLeft_spec hC hb hmid h₁ he₁ (high + 1 - low + 1) (by omega)
  obtain ⟨m₃, hm₃, h₃, he₃, he₃'⟩ := mergeRight_spec hC hb h₂ he₂ (high + 1 - low + 1) (by omega)
  obtain ⟨b', hb', ho, hs⟩ := writeBack_spec (b := b) hC hb h₃.room (by omega)
  refine ⟨b', ?_, ho, ?_⟩
  · rw [hsub] at hm₁
    simp only [mergeCells, hsub, hm₁, hm₂, hm₃, Option.bind_eq_bind, Option.bind_some, hb']
  · have hp := h₃.parts
    have hc := h₃.count
    have hleft : mid + 1 ≤ m₃.i := by omega
    have hright : high + 1 ≤ m₃.j := by omega
    rw [slice_empty _ hleft, slice_empty _ hright] at hp
    have hk : m₃.k = high + 1 - low := by omega
    rw [hs, ← hp, hk]
    simp [mergeLists]

end Merge

section Sorting
variable {β α : Type} [Inhabited α] {C : Cells β α} {view : β → Array α} {val : α → Nat}
variable {b : β} {low high : Nat}

structure SortedCells (val : α → Nat) (low high : Nat) (a a' : Array α) : Prop where
  outside : Outside low high a a'
  descending : Descending val (slice a' low (high + 1))
  stable : Stable val (slice a low (high + 1)) (slice a' low (high + 1))

theorem sortPair_spec (val : α → Nat) (hC : C.Lawful view) (hb : high < (view b).size)
    (hl : high = low + 1) :
    ∃ b', sortPair C val b low high = some b' ∧ SortedCells val low high (view b) (view b') := by
  have hlow : low < (view b).size := by omega
  have hpair (a : Array α) : slice a low (high + 1) = [a[low]!, a[high]!] := by
    rw [slice_cons a (by omega), slice_cons a (by omega), slice_empty a (by omega), hl]
  simp only [sortPair, hC.get, read_eq hb, read_eq hlow, Option.bind_eq_bind, Option.bind_some]
  by_cases hlt : val (view b)[low]! < val (view b)[high]!
  · obtain ⟨b₁, hb₁, hv₁⟩ := hC.put b high (view b)[low]! hb
    obtain ⟨b₂, hb₂, hv₂⟩ := hC.put b₁ low (view b)[high]! (by rw [hv₁]; simpa using hlow)
    have h0 : (view b₂)[low]! = (view b)[high]! := by
      rw [hv₂]
      exact put_get_self (by rw [hv₁]; simpa using hlow) _
    have h1 : (view b₂)[high]! = (view b)[low]! := by
      rw [hv₂, put_get_ne (by omega), hv₁, put_get_self hb]
    refine ⟨b₂, by simp [hlt, hb₁, hb₂], ?_, ?_, ?_⟩
    · rw [hv₂, hv₁]
      exact (Outside.put (by omega) le_rfl _).trans (.put le_rfl (by omega) _)
    · rw [hpair, h0, h1]
      exact List.pairwise_pair.mpr (by omega)
    · intro c
      rw [hpair, hpair, h0, h1]
      by_cases hc : val (view b)[low]! = c
      · have hne : ¬ val (view b)[high]! = c := by omega
        simp [hc, hne]
      · simp [List.filter_cons, hc]
  · refine ⟨b, by simp [hlt], .refl .., ?_, .refl _⟩
    rw [hpair]
    exact List.pairwise_pair.mpr (by omega)

theorem sortCells_trivial (depth : Nat) (h : high ≤ low) :
    sortCells C val (depth + 1) b low high = some b := by
  simp [sortCells, h]

theorem SortedCells.merge {a a₁ a₂ a' : Array α} {mid : Nat} (hlow : low ≤ mid)
    (hmid : mid < high) (h₁ : SortedCells val low mid a a₁)
    (h₂ : SortedCells val (mid + 1) high a₁ a₂) (ho : Outside low high a₂ a')
    (hm : slice a' low (high + 1) =
      mergeLists val (slice a₂ low (mid + 1)) (slice a₂ (mid + 1) (high + 1))) :
    SortedCells val low high a a' := by
  have hleft : slice a₂ low (mid + 1) = slice a₁ low (mid + 1) :=
    slice_congr fun i _ hi => h₂.outside.same i (.inl (by omega))
  have hright : slice a₁ (mid + 1) (high + 1) = slice a (mid + 1) (high + 1) :=
    slice_congr fun i hi _ => h₁.outside.same i (.inr (by omega))
  have hd := h₁.descending
  have hs := h₂.stable
  rw [← hleft] at hd
  rw [hright] at hs
  refine ⟨(h₁.outside.mono le_rfl (by omega)).trans ((h₂.outside.mono (by omega) le_rfl).trans ho),
    ?_, ?_⟩
  · rw [hm]
    exact mergeLists_descending hd h₂.descending
  · have hlo : low ≤ mid + 1 := by omega
    have hhi : mid + 1 ≤ high + 1 := by omega
    rw [hm, ← slice_append a hlo hhi]
    refine (Stable.append ?_ hs).trans (mergeLists_stable hd _)
    rw [hleft]
    exact h₁.stable

/-- No sum `low + high` of the recursion wraps around. -/
inductive MidpointsFit : Nat → Nat → Prop where
  | short {low high : Nat} (h : high ≤ low + 1) : MidpointsFit low high
  | halves {low high : Nat} (sum : low + high < 2 ^ 32)
      (left : MidpointsFit low ((low + high) / 2))
      (right : MidpointsFit ((low + high) / 2 + 1) high) : MidpointsFit low high

theorem MidpointsFit.of_lt (h : 2 * high < 2 ^ 32) : MidpointsFit low high := by
  generalize hd : high - low = d
  induction d using Nat.strong_induction_on generalizing low high with
  | _ d ih =>
    by_cases hs : high ≤ low + 1
    · exact .short hs
    · apply MidpointsFit.halves
      · omega
      · exact ih _ (by omega) (by omega) rfl
      · exact ih _ (by omega) h rfl

theorem MidpointsFit.split (h : MidpointsFit low high) (hlt : low + 1 < high) :
    low + high < 2 ^ 32 ∧ MidpointsFit low ((low + high) / 2) ∧
      MidpointsFit ((low + high) / 2 + 1) high := by
  cases h with
  | short h => omega
  | halves sum left right => exact ⟨sum, left, right⟩

/-- The last difference of at least 2 between the bounds of a range, of its right half, of the
right half of that, and so on. -/
def lastSpan (d : Nat) : Nat := if d ≤ 4 then d else lastSpan ((d - 1) / 2)

theorem lastSpan_of_le {d : Nat} (h : d ≤ 4) : lastSpan d = d := by
  rw [lastSpan, if_pos h]

theorem lastSpan_half {d : Nat} (h : 4 < d) : lastSpan d = lastSpan ((d - 1) / 2) := by
  rw [lastSpan, if_neg (Nat.not_le.mpr h)]

theorem lastSpan_le (d : Nat) : lastSpan d ≤ d := by
  induction d using lastSpan.induct with
  | case1 d h => rw [lastSpan_of_le h]
  | case2 d h ih =>
    rw [lastSpan_half (Nat.not_le.mp h)]
    omega

/-- The largest sum is that of the last right half of more than two cells. -/
theorem midpointsFit_iff (hsum : low + high < 2 ^ 32) :
    MidpointsFit low high ↔ high ≤ low + 1 ∨ 2 * high < 2 ^ 32 + lastSpan (high - low) := by
  generalize hd : high - low = d
  induction d using lastSpan.induct generalizing low with
  | case1 d h =>
    rw [lastSpan_of_le h]
    constructor
    · intro _
      omega
    · intro _
      by_cases hs : high ≤ low + 1
      · exact .short hs
      · exact .halves hsum (.of_lt (by omega)) (.short (by omega))
  | case2 d h ih =>
    have hhalf : high - ((low + high) / 2 + 1) = (d - 1) / 2 := by omega
    have hle := lastSpan_le ((d - 1) / 2)
    rw [lastSpan_half (Nat.not_le.mp h)]
    constructor
    · intro hfit
      obtain ⟨_, _, hright⟩ := hfit.split (by omega)
      have hnext := (hright.split (by omega)).1
      have := (ih hnext hhalf).mp hright
      omega
    · intro hfit
      have hnext : (low + high) / 2 + 1 + high < 2 ^ 32 := by omega
      refine .halves hsum (.of_lt (by omega)) ((ih hnext hhalf).mpr (.inr ?_))
      omega

theorem sortCells_spec (val : α → Nat) (hC : C.Lawful view) {depth : Nat} (hb : high < (view b).size)
    (hle : low ≤ high) (hfit : MidpointsFit low high) (hdepth : high - low < depth) :
    ∃ b', sortCells C val depth b low high = some b' ∧
      SortedCells val low high (view b) (view b') := by
  induction depth generalizing b low high with
  | zero => omega
  | succ depth ih =>
    by_cases h0 : high ≤ low
    · refine ⟨b, sortCells_trivial depth h0, .refl .., ?_, .refl _⟩
      rw [slice_cons _ (by omega), slice_empty _ (by omega)]
      exact List.pairwise_singleton _ _
    · have hsub : usub high low = high - low := usub_of_le hle
      by_cases h1 : high - low = 1
      · simp only [sortCells, h0, if_false, hsub, h1, if_true]
        exact sortPair_spec val hC hb (by omega)
      · obtain ⟨hsum, hleft, hright⟩ := hfit.split (by omega)
        have hadd : uadd low high / 2 = (low + high) / 2 := by rw [uadd_of_lt hsum]
        generalize hmid : (low + high) / 2 = mid at hadd hleft hright
        obtain ⟨b₁, hb₁, s₁⟩ := @ih b low mid (by omega) (by omega) hleft (by omega)
        have hb₁' : high < (view b₁).size := by rw [s₁.outside.size]; exact hb
        obtain ⟨b₂, hb₂, s₂⟩ := @ih b₁ (mid + 1) high hb₁' (by omega) hright (by omega)
        have hb₂' : high < (view b₂).size := by rw [s₂.outside.size]; exact hb₁'
        have hlo : low ≤ mid := by omega
        have hhi : mid < high := by omega
        obtain ⟨b', hb', ho, hm⟩ := mergeCells_spec val hC hb₂' hlo hhi
        refine ⟨b', ?_, SortedCells.merge (by omega) (by omega) s₁ s₂ ho hm⟩
        simp only [sortCells, h0, if_false, hsub, h1, hadd, hb₁, hb₂, Option.bind_eq_bind,
          Option.bind_some, hb']

section Returned
/-! What a sort that returned has done, whatever the bounds it was given. -/
variable {mid size : Nat} {b' : β} {m m' : Merging α}

omit [Inhabited α] in
theorem Cells.Lawful.put_some (hC : C.Lawful view) {i : Nat} {x : α} (h : C.put b i x = some b') :
    i < (view b).size ∧ view b' = (view b).setIfInBounds i x := by
  by_cases hi : i < (view b).size
  · obtain ⟨b₁, hb₁, hv⟩ := hC.put b i x hi
    rw [hb₁] at h
    cases h
    exact ⟨hi, hv⟩
  · rw [hC.out b i x (Nat.le_of_not_lt hi)] at h
    cases h

/-- Every record moved fills one more cell of `temp`. -/
structure Counted (mid size : Nat) (m : Merging α) : Prop where
  room : m.temp.size = size
  taken : m.j ≤ mid + 1 + m.k
  fits : m.k ≤ size

omit [Inhabited α] in
theorem counted_store (h : Counted mid size m) {temp : Array α} {x : α} {i j : Nat}
    (hs : store m.temp m.k x = some temp) (hj : j ≤ m.j + 1) :
    Counted mid size ⟨i, j, m.k + 1, temp⟩ := by
  have hk : m.k < m.temp.size := by
    by_contra hk
    simp [store, hk] at hs
  rw [store_eq hk] at hs
  cases hs
  have ht := h.taken
  have hr := h.room
  exact ⟨by simpa using hr, by change j ≤ mid + 1 + (m.k + 1); omega, by
    change m.k + 1 ≤ size; omega⟩

omit [Inhabited α] in
theorem takeLeft_counted (h : Counted mid size m) (ht : takeLeft C b m = some m') :
    Counted mid size m' := by
  obtain ⟨x, hx, hs⟩ := Option.bind_eq_some_iff.mp ht
  obtain ⟨temp, htemp, hm⟩ := Option.bind_eq_some_iff.mp hs
  cases hm
  exact counted_store h htemp (Nat.le_succ _)

omit [Inhabited α] in
theorem takeRight_counted (h : Counted mid size m) (ht : takeRight C b m = some m') :
    Counted mid size m' := by
  obtain ⟨x, hx, hs⟩ := Option.bind_eq_some_iff.mp ht
  obtain ⟨temp, htemp, hm⟩ := Option.bind_eq_some_iff.mp hs
  cases hm
  exact counted_store h htemp le_rfl

omit [Inhabited α] in
theorem mergeBoth_counted {fuel : Nat} (h : Counted mid size m)
    (hm : mergeBoth C val b high mid fuel m = some m') : Counted mid size m' := by
  refine loop_some (Counted mid size) (Counted mid size) ?_ hm h
  intro m r h hr
  split_ifs at hr with hgo
  · obtain ⟨x, hx, hr⟩ := Option.bind_eq_some_iff.mp hr
    obtain ⟨y, hy, hr⟩ := Option.bind_eq_some_iff.mp hr
    split_ifs at hr with hle
    · obtain ⟨m₁, hm₁, hr⟩ := Option.bind_eq_some_iff.mp hr
      cases hr
      exact takeLeft_counted h hm₁
    · obtain ⟨m₁, hm₁, hr⟩ := Option.bind_eq_some_iff.mp hr
      cases hr
      exact takeRight_counted h hm₁
  · cases hr
    exact h

omit [Inhabited α] in
theorem mergeLeft_counted {fuel : Nat} (h : Counted mid size m)
    (hm : mergeLeft C b mid fuel m = some m') : Counted mid size m' := by
  refine loop_some (Counted mid size) (Counted mid size) ?_ hm h
  intro m r h hr
  split_ifs at hr with hgo
  · obtain ⟨m₁, hm₁, hr⟩ := Option.bind_eq_some_iff.mp hr
    cases hr
    exact takeLeft_counted h hm₁
  · cases hr
    exact h

omit [Inhabited α] in
theorem mergeRight_counted {fuel : Nat} (h : Counted mid size m)
    (hm : mergeRight C b high fuel m = some m') : Counted mid size m' ∧ high < m'.j := by
  refine loop_some (Counted mid size) (fun m' => Counted mid size m' ∧ high < m'.j) ?_ hm h
  intro m r h hr
  split_ifs at hr with hgo
  · obtain ⟨m₁, hm₁, hr⟩ := Option.bind_eq_some_iff.mp hr
    cases hr
    exact takeRight_counted h hm₁
  · cases hr
    exact ⟨h, Nat.lt_of_not_le hgo⟩

omit [Inhabited α] in
theorem writeBack_some (hC : C.Lawful view) {temp : Array α} (hle : low ≤ high)
    (h : writeBack C temp low high b = some b') : high < (view b).size := by
  have hw := forRange_some (fun i b' => (view b').size = (view b).size ∧
    (low < i → i ≤ (view b).size)) (by omega) h ⟨rfl, fun hlt => absurd hlt (Nat.lt_irrefl _)⟩
    fun i c c' hl hi hI hc => by
      obtain ⟨x, hx, hput⟩ := Option.bind_eq_some_iff.mp hc
      obtain ⟨hlt, hv⟩ := hC.put_some hput
      rw [hv, Array.size_setIfInBounds]
      exact ⟨hI.1, fun _ => by omega⟩
  have := hw.2 (by omega)
  omega

theorem mergeCells_some (hC : C.Lawful view) (hle : low ≤ high)
    (h : mergeCells C val b low high mid = some b') :
    high < (view b).size ∧ low ≤ mid + 1 := by
  have hsub : usub high low = high - low := usub_of_le hle
  obtain ⟨m₁, hm₁, h⟩ := Option.bind_eq_some_iff.mp h
  obtain ⟨m₂, hm₂, h⟩ := Option.bind_eq_some_iff.mp h
  obtain ⟨m₃, hm₃, h⟩ := Option.bind_eq_some_iff.mp h
  rw [hsub] at hm₁
  have h0 : Counted mid (high - low + 1)
      ⟨low, mid + 1, 0, Array.replicate (high - low + 1) (default : α)⟩ :=
    ⟨by simp, le_rfl, Nat.zero_le _⟩
  obtain ⟨h₃, hj⟩ := mergeRight_counted (mergeLeft_counted (mergeBoth_counted h0 hm₁) hm₂) hm₃
  have ht := h₃.taken
  have hf := h₃.fits
  exact ⟨writeBack_some hC hle h, by omega⟩

theorem sortPair_some (hC : C.Lawful view) (hl : high = low + 1)
    (h : sortPair C val b low high = some b') :
    high < (view b).size ∧ SortedCells val low high (view b) (view b') := by
  obtain ⟨x, hx, _⟩ := Option.bind_eq_some_iff.mp h
  rw [hC.get] at hx
  have hb : high < (view b).size := by
    by_contra hge
    simp [hge] at hx
  obtain ⟨b₁, hb₁, hs⟩ := sortPair_spec val hC hb hl
  rw [h] at hb₁
  cases hb₁
  exact ⟨hb, hs⟩

/-- A sum that wraps gives a midpoint too far to the left for the merge to return. -/
theorem uadd_of_returned (hword : high < 2 ^ 32) (hlow : low ≤ uadd low high / 2 + 1)
    (hright : MidpointsFit (uadd low high / 2 + 1) high) : uadd low high = low + high := by
  by_cases hgap : uadd low high / 2 + 2 < high
  · have hsum := (hright.split hgap).1
    unfold uadd at hsum hlow ⊢
    omega
  · unfold uadd at hgap hlow ⊢
    omega

/-- A sort that returns has sorted; its bounds were inside, or it had nothing to do, and no
sum has wrapped. -/
theorem sortCells_some (hC : C.Lawful view) {depth : Nat}
    (hword : high < (view b).size → high < 2 ^ 32)
    (h : sortCells C val depth b low high = some b') :
    (low < high → high < (view b).size) ∧ MidpointsFit low high ∧
      SortedCells val low high (view b) (view b') := by
  induction depth generalizing b b' low high with
  | zero => cases h
  | succ depth ih =>
    by_cases h0 : high ≤ low
    · rw [sortCells_trivial depth h0] at h
      cases h
      refine ⟨fun hlt => absurd hlt (Nat.not_lt.mpr h0), .short (by omega), .refl .., ?_, .refl _⟩
      by_cases h1 : high = low
      · rw [h1, slice_cons _ (by omega), slice_empty _ (by omega)]
        exact List.pairwise_singleton _ _
      · rw [slice_empty _ (by omega)]
        exact List.Pairwise.nil
    · have hsub : usub high low = high - low := usub_of_le (by omega)
      simp only [sortCells, h0, if_false, hsub] at h
      split_ifs at h with h1
      · obtain ⟨hb, hs⟩ := sortPair_some hC (by omega) h
        exact ⟨fun _ => hb, .short (by omega), hs⟩
      · generalize hmid : uadd low high / 2 = mid at h
        obtain ⟨b₁, hb₁, h⟩ := Option.bind_eq_some_iff.mp h
        obtain ⟨b₂, hb₂, h⟩ := Option.bind_eq_some_iff.mp h
        have hmid32 : mid < 2 ^ 32 := by
          unfold uadd at hmid
          omega
        obtain ⟨_, hleft, s₁⟩ := ih (fun _ => hmid32) hb₁
        have hword₁ : high < (view b₁).size → high < 2 ^ 32 := by
          rw [s₁.outside.size]
          exact hword
        obtain ⟨_, hright, s₂⟩ := ih hword₁ hb₂
        obtain ⟨hhigh, hlow⟩ := mergeCells_some hC (by omega) h
        rw [s₂.outside.size] at hhigh
        have hb : high < (view b).size := by rw [← s₁.outside.size]; exact hhigh
        have hadd : uadd low high = low + high := by
          rw [← hmid] at hlow hright
          exact uadd_of_returned (hword hb) hlow hright
        have hb₂' : high < (view b₂).size := by rw [s₂.outside.size]; exact hhigh
        have hlo : low ≤ mid := by omega
        have hhi : mid < high := by omega
        obtain ⟨c, hc, ho, hm⟩ := mergeCells_spec val hC hb₂' hlo hhi
        rw [h] at hc
        cases hc
        have hhalf : mid = (low + high) / 2 := by rw [← hmid, hadd]
        rw [hhalf] at hleft hright
        exact ⟨fun _ => hb, .halves (by unfold uadd at hadd; omega) hleft hright,
          SortedCells.merge (by omega) (by omega) s₁ s₂ ho hm⟩

end Returned

section Frame
variable {mid depth : Nat} {b' : β} {P : β → Prop}
variable (hP : ∀ b i x b', P b → C.put b i x = some b' → P b') (h0 : P b)
include hP h0

omit [Inhabited α] in
theorem writeBack_keeps {temp : Array α} (h : writeBack C temp low high b = some b') : P b' :=
  forRange_keeps P h h0 fun i c c' hI hc => by
    obtain ⟨x, hx, hput⟩ := Option.bind_eq_some_iff.mp hc
    exact hP c i x c' hI hput

theorem mergeCells_keeps (h : mergeCells C val b low high mid = some b') : P b' := by
  obtain ⟨m₁, hm₁, h⟩ := Option.bind_eq_some_iff.mp h
  obtain ⟨m₂, hm₂, h⟩ := Option.bind_eq_some_iff.mp h
  obtain ⟨m₃, hm₃, h⟩ := Option.bind_eq_some_iff.mp h
  exact writeBack_keeps hP h0 h

omit [Inhabited α] in
theorem sortPair_keeps (h : sortPair C val b low high = some b') : P b' := by
  obtain ⟨x, hx, h⟩ := Option.bind_eq_some_iff.mp h
  obtain ⟨y, hy, h⟩ := Option.bind_eq_some_iff.mp h
  split_ifs at h with hlt
  · obtain ⟨b₁, hb₁, h⟩ := Option.bind_eq_some_iff.mp h
    exact hP b₁ low x b' (hP b high y b₁ h0 hb₁) h
  · cases h
    exact h0

theorem sortCells_keeps (h : sortCells C val depth b low high = some b') : P b' := by
  induction depth generalizing b b' low high with
  | zero => cases h
  | succ depth ih =>
    unfold sortCells at h
    split_ifs at h with hle h1
    · cases h
      exact h0
    · exact sortPair_keeps hP h0 h
    · obtain ⟨b₁, hb₁, h⟩ := Option.bind_eq_some_iff.mp h
      obtain ⟨b₂, hb₂, h⟩ := Option.bind_eq_some_iff.mp h
      exact mergeCells_keeps hP (ih (ih h0 hb₁) hb₂) h

end Frame

end Sorting

end GraphReorder.Library
