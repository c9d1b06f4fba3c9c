import Mathlib.Data.List.Count
import Mathlib.Data.List.Nodup
import GraphReorder.Library.Memory

/-! Stable distribution of keyed values into consecutive buckets, the second pass of a
counting sort: `base` says where each bucket begins, `fill` how much of it is used. -/
namespace GraphReorder.Library

def scatter (base : Array Nat) (k x : Nat) (st : Array Nat × Array Nat) :
    Option (Array Nat × Array Nat) := do
  let cells ← store st.1 ((← base[k]?) + (← st.2[k]?)) x
  let fill ← incr st.2 k
  some (cells, fill)

def group (es : List (Nat × Nat)) (k : Nat) : List Nat :=
  es.filterMap fun e => if e.1 = k then some e.2 else none

def below (es : List (Nat × Nat)) (k : Nat) : Nat := es.countP fun e => e.1 < k

theorem group_append (es es' : List (Nat × Nat)) (k : Nat) :
    group (es ++ es') k = group es k ++ group es' k := List.filterMap_append

theorem group_singleton (e : Nat × Nat) (k : Nat) :
    group [e] k = if e.1 = k then [e.2] else [] := by
  by_cases h : e.1 = k <;> simp [group, h]

theorem mem_group {es : List (Nat × Nat)} {k x : Nat} : x ∈ group es k ↔ (k, x) ∈ es := by
  simp only [group, List.mem_filterMap]
  constructor
  · intro h
    obtain ⟨e, he, hx⟩ := h
    split_ifs at hx with hk
    cases hx
    rw [← hk]
    exact he
  · intro h
    exact ⟨(k, x), h, if_pos rfl⟩

theorem count_group (es : List (Nat × Nat)) (k x : Nat) :
    (group es k).count x = es.count (k, x) := by
  induction es with
  | nil => rfl
  | cons e es ih =>
    obtain ⟨j, y⟩ := e
    rw [← List.singleton_append, group_append, List.count_append, ih, List.count_append,
      group_singleton]
    by_cases hj : j = k <;> simp [hj, List.count_singleton]

theorem perm_of_group {es es' : List (Nat × Nat)} (h : ∀ k, group es k = group es' k) :
    es.Perm es' :=
  List.perm_iff_count.mpr fun e => by rw [← count_group, ← count_group, h]

theorem below_succ (es : List (Nat × Nat)) (k : Nat) :
    below es (k + 1) = below es k + (group es k).length := by
  induction es with
  | nil => rfl
  | cons e es ih =>
    simp only [below, group, List.countP_cons, List.filterMap_cons, decide_eq_true_eq] at ih ⊢
    rcases Nat.lt_trichotomy e.1 k with h | h | h
    · rw [if_pos (by omega), if_pos h, if_neg (by omega)]
      simp only [ih]
      omega
    · rw [if_pos (by omega), if_neg (by omega), if_pos h]
      simp only [List.length_cons, ih]
      omega
    · rw [if_neg (by omega), if_neg (by omega), if_neg (by omega)]
      simp only [ih]
      omega

theorem below_mono (es : List (Nat × Nat)) {j k : Nat} (h : j ≤ k) : below es j ≤ below es k :=
  List.countP_mono_left fun e _ he => by
    simp only [decide_eq_true_eq] at he ⊢
    omega

theorem below_zero (es : List (Nat × Nat)) : below es 0 = 0 := by simp [below]

theorem below_le_length (es : List (Nat × Nat)) (k : Nat) : below es k ≤ es.length :=
  List.countP_le_length

theorem below_bucket {es : List (Nat × Nat)} {n j : Nat} (h : j < below es n) :
    ∃ k < n, below es k ≤ j ∧ j < below es (k + 1) := by
  induction n with
  | zero =>
    rw [below_zero] at h
    exact absurd h (Nat.not_lt_zero j)
  | succ n ih =>
    by_cases hj : j < below es n
    · obtain ⟨k, hk, hlo, hhi⟩ := ih hj
      exact ⟨k, Nat.lt_succ_of_lt hk, hlo, hhi⟩
    · exact ⟨n, Nat.lt_succ_self n, Nat.le_of_not_lt hj, h⟩

theorem below_all {es : List (Nat × Nat)} {n : Nat} (h : ∀ e ∈ es, e.1 < n) :
    below es n = es.length :=
  List.countP_eq_length.mpr fun e he => by simpa using h e he

theorem below_apart (es : List (Nat × Nat)) {j k s t : Nat} (hjk : k ≠ j)
    (hs : s < (group es k).length) (ht : t ≤ (group es j).length) :
    below es k + s < below es j ∨ below es j + t ≤ below es k + s := by
  have hsj := below_succ es j
  have hsk := below_succ es k
  cases Nat.lt_or_gt_of_ne hjk with
  | inl hlt =>
    have hmono : below es (k + 1) ≤ below es j := below_mono es hlt
    omega
  | inr hlt =>
    have hmono : below es (j + 1) ≤ below es k := below_mono es hlt
    omega

theorem group_done_le {es done rest : List (Nat × Nat)} {k x : Nat}
    (hes : es = done ++ (k, x) :: rest) (j : Nat) :
    (group done j).length + (if k = j then 1 else 0) ≤ (group es j).length := by
  rw [hes, group_append, ← List.singleton_append, group_append, group_singleton]
  split_ifs <;> simp

theorem below_perm {es es' : List (Nat × Nat)} (h : es.Perm es') (k : Nat) :
    below es k = below es' k := h.countP_eq _

theorem group_perm {es es' : List (Nat × Nat)} (h : es.Perm es') (k : Nat) :
    (group es k).Perm (group es' k) := h.filterMap _

theorem group_eq_filter (es : List (Nat × Nat)) (k : Nat) :
    group es k = (es.filter fun e => e.1 = k).map Prod.snd := by
  induction es with
  | nil => rfl
  | cons e es ih =>
    rw [← List.singleton_append, group_append, group_singleton, ih, List.filter_append,
      List.map_append]
    by_cases he : e.1 = k
    · rw [if_pos he, List.filter_cons_of_pos (by simpa using he)]
      rfl
    · rw [if_neg he, List.filter_cons_of_neg (by simpa using he)]
      rfl

theorem group_nodup {es : List (Nat × Nat)} (h : es.Nodup) (k : Nat) : (group es k).Nodup :=
  List.nodup_iff_count_le_one.mpr fun x => by
    rw [count_group]
    exact List.nodup_iff_count_le_one.mp h _

theorem rising_split {es : List (Nat × Nat)} (h : es.Pairwise fun e e' => e.1 ≤ e'.1) (k : Nat) :
    es = es.filter (fun e => e.1 < k) ++
      (es.filter (fun e => e.1 = k) ++ es.filter fun e => k < e.1) := by
  induction es with
  | nil => rfl
  | cons e es ih =>
    obtain ⟨he, hes⟩ := List.pairwise_cons.mp h
    simp only [List.filter_cons, decide_eq_true_eq]
    rcases Nat.lt_trichotomy e.1 k with hlt | heq | hgt
    · rw [if_pos hlt, if_neg (by omega), if_neg (by omega), List.cons_append, ← ih hes]
    · have hnone : es.filter (fun e => e.1 < k) = [] :=
        List.filter_eq_nil_iff.mpr fun e' he' => by
          have := he e' he'
          simpa using by omega
      have hih := ih hes
      rw [hnone, List.nil_append] at hih
      rw [if_neg (by omega), if_pos heq, if_neg (by omega), hnone, List.nil_append,
        List.cons_append, ← hih]
    · have hnone (p : Nat × Nat → Bool) (hp : ∀ e', e.1 ≤ e'.1 → p e' = false) :
          es.filter p = [] :=
        List.filter_eq_nil_iff.mpr fun e' he' => by simpa using hp e' (he e' he')
      have hall : es.filter (fun e => k < e.1) = es :=
        List.filter_eq_self.mpr fun e' he' => decide_eq_true (hgt.trans_le (he e' he'))
      rw [if_neg (by omega), if_neg (by omega), if_pos hgt,
        hnone _ fun e' hle => decide_eq_false (by omega),
        hnone _ fun e' hle => decide_eq_false (by omega), hall]
      rfl

theorem rising_bucket {es : List (Nat × Nat)} (h : es.Pairwise fun e e' => e.1 ≤ e'.1) (k : Nat) :
    slice (es.map Prod.snd).toArray (below es k) (below es (k + 1)) = group es k := by
  have hlen : (es.filter fun e => e.1 < k).length = below es k :=
    List.countP_eq_length_filter.symm
  have hlen' : (es.filter fun e => e.1 = k).length = (group es k).length := by
    rw [group_eq_filter, List.length_map]
  refine List.ext_getElem ?_ fun i h₁ h₂ => ?_
  · rw [slice_length, below_succ, Nat.add_sub_cancel_left]
  · have hi : below es k + i < es.length := by
      have := below_le_length es (k + 1)
      rw [below_succ] at this
      omega
    have hat : es[below es k + i] = (es.filter fun e => e.1 = k)[i] := by
      have hsplit := rising_split h k
      rw [List.getElem_of_eq hsplit, List.getElem_append_right (by omega),
        List.getElem_append_left (by omega)]
      simp only [hlen, Nat.add_sub_cancel_left]
    simp only [slice, List.getElem_map, List.getElem_range', Nat.one_mul, group_eq_filter]
    rw [getElem!_pos _ _ (by simpa using hi)]
    simp only [List.getElem_toArray, List.getElem_map, hat]

/-- The buckets of `es` begin where the smaller keys end. -/
def Offsets (n : Nat) (base : Array Nat) (es : List (Nat × Nat)) : Prop :=
  n ≤ base.size ∧ ∀ k < n, base[k]! = below es k

def Tallied (n : Nat) (counts : Array Nat) (es : List (Nat × Nat)) : Prop :=
  counts.size = n ∧ ∀ k < n, counts[k]! = (group es k).length

theorem tallied_nil (n : Nat) : Tallied n (Array.replicate n 0) [] :=
  ⟨by simp, fun k hk => by simp [group, hk]⟩

theorem tally_step {n : Nat} {counts : Array Nat} {es : List (Nat × Nat)} {e : Nat × Nat}
    (he : e.1 < n) (h : Tallied n counts es) :
    ∃ counts', incr counts e.1 = some counts' ∧ Tallied n counts' (es ++ [e]) := by
  have hlt : e.1 < counts.size := by rw [h.1]; exact he
  refine ⟨_, incr_eq hlt, by simpa using h.1, fun k hk => ?_⟩
  rw [put_get hlt, group_append, group_singleton, List.length_append, h.2 e.1 he]
  by_cases hke : k = e.1
  · simp [hke]
  · simp [hke, Ne.symm hke, h.2 k hk]

theorem offsets_prefix {n size : Nat} {counts : Array Nat} {es : List (Nat × Nat)}
    (h : Tallied n counts es) (hpos : 1 ≤ size) (hsize : size ≤ n + 1) :
    ∃ base, forRange 1 size (fun i base => do
        store base i ((← base[i - 1]?) + (← counts[i - 1]?))) (Array.replicate size 0) =
      some base ∧ base.size = size ∧ ∀ k < size, base[k]! = below es k := by
  refine forRange_rule
    (fun i (base : Array Nat) => base.size = size ∧ ∀ k < i, base[k]! = below es k)
    hpos ⟨by simp, fun k hk => ?_⟩ ?_
  · obtain rfl : k = 0 := by omega
    rw [replicate_get size 0 0 hpos, below_zero]
  · intro i base hl hi hI
    obtain ⟨hs, hb⟩ := hI
    obtain ⟨j, rfl⟩ : ∃ j, i = j + 1 := ⟨i - 1, by omega⟩
    have h1 : j < base.size := by omega
    have h2 : j < counts.size := by rw [h.1]; omega
    have h3 : j + 1 < base.size := by omega
    refine ⟨base.setIfInBounds (j + 1) (base[j]! + counts[j]!), ?_, by simpa using hs, ?_⟩
    · simp only [Nat.add_sub_cancel, read_eq h1, read_eq h2, store_eq h3, Option.bind_eq_bind,
        Option.bind_some]
    · intro k hk
      rw [put_get h3]
      split_ifs with hkj
      · rw [hkj, hb j (by omega), h.2 j (by omega), below_succ]
      · exact hb k (by omega)

theorem offsets_sum {n : Nat} {counts : Array Nat} {es : List (Nat × Nat)}
    (h : Tallied n counts es) :
    ∃ base, forRange 1 (n + 1) (fun i base => do
        store base i ((← base[i - 1]?) + (← counts[i - 1]?))) (Array.replicate (n + 1) 0) =
      some base ∧ base.size = n + 1 ∧ ∀ k < n + 1, base[k]! = below es k :=
  offsets_prefix h (Nat.le_add_left 1 n) le_rfl

structure Scattered (n : Nat) (base : Array Nat) (size : Nat) (done : List (Nat × Nat))
    (st : Array Nat × Array Nat) : Prop where
  size : st.1.size = size
  room : n ≤ st.2.size
  fill : ∀ k < n, st.2[k]! = (group done k).length
  cells : ∀ k < n, slice st.1 base[k]! (base[k]! + (group done k).length) = group done k

theorem scattered_nil {n size : Nat} {base cells fill : Array Nat} (hc : cells.size = size)
    (hr : n ≤ fill.size) (hf : ∀ k < n, fill[k]! = 0) :
    Scattered n base size [] (cells, fill) :=
  ⟨hc, hr, fun k hk => by simpa [group] using hf k hk, fun k _ => by simp [group, slice_empty]⟩

theorem scatter_step {n size : Nat} {base : Array Nat} {es done rest : List (Nat × Nat)}
    {k x : Nat} {st : Array Nat × Array Nat} (ho : Offsets n base es)
    (hes : es = done ++ (k, x) :: rest) (hk : k < n) (hsize : es.length ≤ size)
    (h : Scattered n base size done st) :
    ∃ st', scatter base k x st = some st' ∧ Scattered n base size (done ++ [(k, x)]) st' := by
  obtain ⟨hb, ho⟩ := ho
  have hk' := group_done_le hes k
  have hke : below es k + (group es k).length ≤ size := by
    rw [← below_succ]
    exact (below_le_length es (k + 1)).trans hsize
  rw [if_pos rfl] at hk'
  have hcell : base[k]! + st.2[k]! < st.1.size := by
    rw [h.size, ho k hk, h.fill k hk]
    omega
  have hfill : k < st.2.size := by have := h.room; omega
  have hbase : k < base.size := by omega
  refine ⟨(st.1.setIfInBounds (base[k]! + st.2[k]!) x, st.2.setIfInBounds k (st.2[k]! + 1)),
    ?_, ?_⟩
  · simp only [scatter, read_eq hbase, read_eq hfill, Option.bind_eq_bind, Option.bind_some,
      store_eq hcell, incr_eq hfill]
  · refine ⟨by simpa using h.size, by simpa using h.room, ?_, ?_⟩
    · intro j hj
      rw [put_get hfill, group_append, group_singleton, List.length_append]
      by_cases hjk : k = j
      · subst hjk
        simp [h.fill k hk]
      · simp [hjk, Ne.symm hjk, h.fill j hj]
    · intro j hj
      rw [group_append, group_singleton, List.length_append]
      by_cases hjk : k = j
      · subst hjk
        rw [if_pos rfl, h.fill k hk, List.length_singleton, ← Nat.add_assoc,
          slice_succ _ (by omega), slice_put_outside (.inr le_rfl), h.cells k hk,
          put_get_self (by rw [← h.fill k hk]; exact hcell)]
      · simp only [if_neg hjk, List.length_nil, Nat.add_zero, List.append_nil]
        rw [slice_put_outside ?_, h.cells j hj]
        rw [h.fill k hk, ho k hk, ho j hj]
        exact below_apart es hjk (by omega) ((Nat.le_add_right _ _).trans (group_done_le hes j))

theorem Scattered.bucket {n size : Nat} {base : Array Nat} {es : List (Nat × Nat)}
    {st : Array Nat × Array Nat} (h : Scattered n base size es st) (ho : Offsets n base es)
    {k : Nat} (hk : k < n) : slice st.1 (below es k) (below es (k + 1)) = group es k := by
  rw [below_succ, ← ho.2 k hk]
  exact h.cells k hk

section Runs
variable {es : List (Nat × Nat)} {n : Nat}

theorem key_at {done rest : List (Nat × Nat)} {e : Nat × Nat} (h : es = done ++ e :: rest) :
    (es.map Prod.fst).toArray[done.length]? = some e.1 := by simp [h]

theorem value_at {done rest : List (Nat × Nat)} {e : Nat × Nat} (h : es = done ++ e :: rest) :
    (es.map Prod.snd).toArray[done.length]? = some e.2 := by simp [h]

theorem tally_run (hn : ∀ e ∈ es, e.1 < n) :
    ∃ counts, forRange 0 es.length (fun i counts => do
        incr counts (← (es.map Prod.fst).toArray[i]?)) (Array.replicate n 0) = some counts ∧
      Tallied n counts es :=
  forRange_list es (fun done counts => Tallied n counts done) (tallied_nil n)
    fun done e rest counts h hI => by
      rw [key_at h]
      exact tally_step (hn e (by simp [h])) hI

theorem clear_run {counts : Array Nat} (h : counts.size = n) :
    ∃ zero, forRange 0 n (fun i counts => store counts i 0) counts = some zero ∧ zero.size = n ∧
      ∀ k < n, zero[k]! = 0 := by
  obtain ⟨zero, hrun, hs, hz⟩ := forRange_fill (n := n) (a := counts) (f := fun _ => some 0)
    (g := fun _ => 0) h.ge fun _ _ => rfl
  exact ⟨zero, hrun, hs.trans h, fun k hk => by rw [hz, if_pos hk]⟩

theorem scatter_run {base cells fill : Array Nat} (ho : Offsets n base es)
    (hn : ∀ e ∈ es, e.1 < n) (hc : cells.size = es.length) (hr : n ≤ fill.size)
    (hf : ∀ k < n, fill[k]! = 0) :
    ∃ st, forRange 0 es.length (fun i st => do
        scatter base (← (es.map Prod.fst).toArray[i]?) (← (es.map Prod.snd).toArray[i]?) st)
        (cells, fill) = some st ∧ Scattered n base es.length es st :=
  forRange_list es (fun done st => Scattered n base es.length done st)
    (scattered_nil hc hr hf) fun done e rest st h hI => by
      rw [key_at h, value_at h]
      exact scatter_step ho h (hn e (by simp [h])) le_rfl hI

end Runs

end GraphReorder.Library
