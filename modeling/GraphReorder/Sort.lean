import GraphReorder.Library.MergeSort

/-! The two merge sorts of `sort.cpp`: with a key array that moves along, and without. -/
namespace GraphReorder
open Library

def keyed : Cells (Array Nat × Array Nat) (Nat × Nat) where
  get b i := do some (← b.1[i]?, ← b.2[i]?)
  put b i x := do some (← store b.1 i x.1, ← store b.2 i x.2)

def unkeyed : Cells (Array Nat) Nat where
  get arr i := arr[i]?
  put arr i x := store arr i x

def merge (arr key : Array Nat) (low high mid : Nat) : Option (Array Nat × Array Nat) :=
  mergeCells keyed Prod.fst (arr, key) low high mid

def mergeSort (arr key : Array Nat) (low high : Nat) : Option (Array Nat × Array Nat) :=
  sortCells keyed Prod.fst (usub high low + 1) (arr, key) low high

def mergeWOkey (arr : Array Nat) (low high mid : Nat) : Option (Array Nat) :=
  mergeCells unkeyed id arr low high mid

def mergeSortWOkey (arr : Array Nat) (low high : Nat) : Option (Array Nat) :=
  sortCells unkeyed id (usub high low + 1) arr low high

theorem keyed_lawful : keyed.Lawful fun b => b.1.zip b.2 where
  get b i := by
    obtain ⟨arr, key⟩ := b
    by_cases h1 : i < arr.size
    · by_cases h2 : i < key.size
      · simp [keyed, h1, h2]
      · simp [keyed, h1, h2]
    · simp [keyed, h1]
  put b i x hi := by
    obtain ⟨arr, key⟩ := b
    obtain ⟨h1, h2⟩ : i < arr.size ∧ i < key.size := by simpa using hi
    refine ⟨(arr.setIfInBounds i x.1, key.setIfInBounds i x.2), ?_, ?_⟩
    · simp [keyed, store_eq h1, store_eq h2]
    · apply Array.ext
      · simp
      · intro j hj hj'
        grind
  out b i x hi := by
    obtain ⟨arr, key⟩ := b
    have h : ¬ (i < arr.size ∧ i < key.size) := by
      have hle : min arr.size key.size ≤ i := by simpa using hi
      omega
    by_cases h1 : i < arr.size
    · have h2 : ¬ i < key.size := fun h2 => h ⟨h1, h2⟩
      simp [keyed, store, h1, h2]
    · simp [keyed, store, h1]

theorem unkeyed_lawful : unkeyed.Lawful id where
  get _ _ := rfl
  put _ _ _ hi := ⟨_, store_eq hi, rfl⟩
  out _ _ _ hi := if_neg (Nat.not_lt.mpr hi)

theorem slice_zip_snd {arr key : Array Nat} {lo hi : Nat} (h : hi ≤ arr.size)
    (h' : hi ≤ key.size) : (slice (arr.zip key) lo hi).map Prod.snd = slice key lo hi := by
  rw [slice, List.map_map]
  refine List.map_congr_left fun i hi' => ?_
  have hlt := List.mem_range'_1.mp hi'
  have harr : i < arr.size := by omega
  have hkey : i < key.size := by omega
  simp [harr, hkey]

section Whole
variable {arr key arr' key' : Array Nat} {n : Nat}

theorem mergeSort_total (ha : arr.size = n) (hk : key.size = n) (hpos : 1 ≤ n) (hn : n ≤ 2 ^ 31) :
    ∃ r, mergeSort arr key 0 (n - 1) = some r := by
  have hview : n - 1 < (arr.zip key).size := by
    rw [Array.size_zip, ha, hk]
    omega
  have hdepth : n - 1 - 0 < usub (n - 1) 0 + 1 := by
    rw [usub_of_le (Nat.zero_le _)]
    omega
  obtain ⟨r, hrun, _⟩ := @sortCells_spec _ _ _ keyed _ (arr, key) 0 (n - 1) Prod.fst keyed_lawful
    (usub (n - 1) 0 + 1) hview (Nat.zero_le _) (.of_lt (by omega)) hdepth
  exact ⟨r, hrun⟩

structure SameRest (arr key arr' key' : Array Nat) : Prop where
  arrSize : arr'.size = arr.size
  keySize : key'.size = key.size
  arrRest : ∀ i, key.size ≤ i → arr'[i]! = arr[i]!
  keyRest : ∀ i, arr.size ≤ i → key'[i]! = key[i]!

theorem mergeSort_rest {low high : Nat} (h : mergeSort arr key low high = some (arr', key')) :
    SameRest arr key arr' key' := by
  refine sortCells_keeps (P := fun b => SameRest arr key b.1 b.2) ?_
    ⟨rfl, rfl, fun _ _ => rfl, fun _ _ => rfl⟩ h
  intro b i x b' hb hput
  obtain ⟨c, hc, hput⟩ := Option.bind_eq_some_iff.mp hput
  obtain ⟨d, hd, he⟩ := Option.bind_eq_some_iff.mp hput
  unfold store at hc hd
  split_ifs at hc hd with h1 h2
  cases hc
  cases hd
  cases he
  rw [hb.arrSize] at h1
  rw [hb.keySize] at h2
  refine ⟨by simpa using hb.arrSize, by simpa using hb.keySize, fun j hj => ?_, fun j hj => ?_⟩
  · rw [← hb.arrRest j hj]
    exact put_get_ne (by omega) _
  · rw [← hb.keyRest j hj]
    exact put_get_ne (by omega) _

theorem mergeSort_sizes {low high : Nat} (h : mergeSort arr key low high = some (arr', key')) :
    arr'.size = arr.size ∧ key'.size = key.size :=
  ⟨(mergeSort_rest h).arrSize, (mergeSort_rest h).keySize⟩

theorem mergeSort_perm (ha : arr.size = n) (hk : key.size = n) (hpos : 1 ≤ n) (hn : n < 2 ^ 32)
    (h : mergeSort arr key 0 (n - 1) = some (arr', key')) : key'.toList.Perm key.toList := by
  obtain ⟨has, hks⟩ := mergeSort_sizes h
  have hword : n - 1 < 2 ^ 32 := by omega
  obtain ⟨_, _, hs⟩ := sortCells_some keyed_lawful (fun _ => hword) h
  have hperm := hs.stable.perm.map Prod.snd
  have hend : n - 1 + 1 = n := by omega
  simp only [hend] at hperm
  rw [slice_zip_snd (by omega) (by omega), slice_zip_snd (by omega) (by omega)] at hperm
  have hall := slice_all key
  have hall' := slice_all key'
  rw [hk] at hall
  rw [hks, hk] at hall'
  rwa [hall, hall'] at hperm

end Whole

section Keyed
variable {arr key arr' key' : Array Nat} {low high : Nat}

/-- One rearrangement `σ` of the places `low..high` for both arrays, which puts the larger cells
of `arr` first and keeps equal ones in order. -/
structure StablySorted (low high : Nat) (arr key arr' key' : Array Nat) (σ : Nat → Nat) : Prop where
  arrOutside : Outside low high arr arr'
  keyOutside : Outside low high key key'
  bijection : Set.BijOn σ (Set.Icc low high) (Set.Icc low high)
  moved : ∀ i ∈ Set.Icc low high, arr'[i]! = arr[σ i]! ∧ key'[i]! = key[σ i]!
  descending : ∀ i ∈ Set.Icc low high, ∀ j ∈ Set.Icc low high, i < j → arr'[j]! ≤ arr'[i]!
  stable : ∀ i ∈ Set.Icc low high, ∀ j ∈ Set.Icc low high, i < j → arr'[i]! = arr'[j]! → σ i < σ j
  /-- Keys that start as vertex ids: equal cells end up in increasing vertex id. -/
  ties : (∀ i ∈ Set.Icc low high, key[i]! = i) → ∀ i ∈ Set.Icc low high,
    ∀ j ∈ Set.Icc low high, i < j → arr'[i]! = arr'[j]! → key'[i]! < key'[j]!

theorem zip_get {i : Nat} (h : i < arr.size) (h' : i < key.size) :
    (arr.zip key)[i]! = (arr[i]!, key[i]!) := by
  have hz : i < (arr.zip key).size := by
    rw [Array.size_zip]
    omega
  rw [getElem!_pos (arr.zip key) i hz, Array.getElem_zip, getElem!_pos arr i h, getElem!_pos key i h']

theorem SameRest.outside (hrest : SameRest arr key arr' key')
    (h : Outside low high (arr.zip key) (arr'.zip key')) :
    Outside low high arr arr' ∧ Outside low high key key' := by
  have hout (i : Nat) (hi : i < low ∨ high < i) : arr'[i]! = arr[i]! ∧ key'[i]! = key[i]! := by
    have hge := hrest.arrSize
    have hge' := hrest.keySize
    by_cases h1 : i < arr.size
    · by_cases h2 : i < key.size
      · have hsame := h.same i hi
        rw [zip_get h1 h2, zip_get (by omega) (by omega)] at hsame
        exact Prod.mk.inj hsame
      · refine ⟨hrest.arrRest i (Nat.le_of_not_lt h2), ?_⟩
        rw [getElem!_neg key i h2, getElem!_neg key' i (by omega)]
    · refine ⟨?_, hrest.keyRest i (Nat.le_of_not_lt h1)⟩
      rw [getElem!_neg arr i h1, getElem!_neg arr' i (by omega)]
  exact ⟨⟨hrest.arrSize, fun i hi => (hout i hi).1⟩, ⟨hrest.keySize, fun i hi => (hout i hi).2⟩⟩

/-- A sort that returns has sorted stably. -/
theorem mergeSort_stable (ha : high < arr.size) (hk : high < key.size)
    (hs : SortedCells Prod.fst low high (arr.zip key) (arr'.zip key'))
    (hrest : SameRest arr key arr' key') : ∃ σ, StablySorted low high arr key arr' key' σ := by
  obtain ⟨σ, hbij, hmoved, hties⟩ := hs.stable.indices
  have hset : Set.Ico low (high + 1) = Set.Icc low high :=
    Set.ext fun i => and_congr_right fun _ => Nat.lt_succ_iff
  rw [hset] at hbij hmoved hties
  have hin {i : Nat} (hi : i ∈ Set.Icc low high) : i < arr.size ∧ i < key.size :=
    ⟨hi.2.trans_lt ha, hi.2.trans_lt hk⟩
  have hcell {i : Nat} (hi : i ∈ Set.Icc low high) :
      (arr'.zip key')[i]! = (arr'[i]!, key'[i]!) :=
    zip_get (by rw [hrest.arrSize]; exact (hin hi).1) (by rw [hrest.keySize]; exact (hin hi).2)
  have hmove {i : Nat} (hi : i ∈ Set.Icc low high) : arr'[i]! = arr[σ i]! ∧ key'[i]! = key[σ i]! := by
    have hσ := hbij.mapsTo hi
    have hpair := hmoved i hi
    rw [hcell hi, zip_get (hin hσ).1 (hin hσ).2] at hpair
    exact Prod.mk.inj hpair
  have hkeeps {i j : Nat} (hi : i ∈ Set.Icc low high) (hj : j ∈ Set.Icc low high) (hlt : i < j)
      (he : arr'[i]! = arr'[j]!) : σ i < σ j := by
    refine hties i hi j hj hlt ?_
    rw [hcell hi, hcell hj]
    exact he
  obtain ⟨harr, hkey⟩ := hrest.outside hs.outside
  refine ⟨σ, harr, hkey, hbij, fun i hi => hmove hi, fun i hi j hj hlt => ?_,
    fun i hi j hj hlt he => hkeeps hi hj hlt he,
    fun hid i hi j hj hlt he => ?_⟩
  · have hdesc := hs.descending.get hi.1 hlt (Nat.lt_succ_of_le hj.2)
    rwa [hcell hi, hcell hj] at hdesc
  · rw [(hmove hi).2, (hmove hj).2, hid _ (hbij.mapsTo hi), hid _ (hbij.mapsTo hj)]
    exact hkeeps hi hj hlt he

/-- The keyed sort does its work exactly when the sums of the bounds of the right halves do not
wrap: the range has at most two cells, or `high` is close enough to the middle of the words. -/
theorem mergeSort_sorts_iff (hle : low ≤ high) (ha : high < arr.size) (hk : high < key.size)
    (hsum : low + high < 2 ^ 32) :
    (∃ arr' key', mergeSort arr key low high = some (arr', key') ∧
      ∃ σ, StablySorted low high arr key arr' key' σ) ↔
    high ≤ low + 1 ∨ 2 * high < 2 ^ 32 + lastSpan (high - low) := by
  rw [← midpointsFit_iff hsum]
  constructor
  · intro h
    obtain ⟨arr', key', hrun, _⟩ := h
    have hword : high < (arr.zip key).size → high < 2 ^ 32 := fun _ => by omega
    exact (sortCells_some keyed_lawful hword hrun).2.1
  · intro hfit
    have hview : high < (arr.zip key).size := by
      rw [Array.size_zip]
      omega
    have hdepth : high - low < usub high low + 1 := by
      rw [usub_of_le hle]
      omega
    obtain ⟨b', hrun, hs⟩ := @sortCells_spec _ _ _ keyed _ (arr, key) low high Prod.fst keyed_lawful
      (usub high low + 1) hview hle hfit hdepth
    exact ⟨b'.1, b'.2, hrun, mergeSort_stable ha hk hs (mergeSort_rest hrun)⟩

theorem mergeSort_sorts_four :
    ∃ arr' key', mergeSort #[1, 2, 2, 0] #[0, 1, 2, 3] 0 3 = some (arr', key') ∧
      ∃ σ, StablySorted 0 3 #[1, 2, 2, 0] #[0, 1, 2, 3] arr' key' σ :=
  (mergeSort_sorts_iff (by decide) (by decide) (by decide) (by decide)).mpr (.inr (by omega))

/-- With 3 * 2^30 + 1 vertices the sum of the right half wraps, and the sort never returns. -/
theorem mergeSort_wraps :
    3 * 2 ^ 30 < (Array.replicate (3 * 2 ^ 30 + 1) 0).size ∧
    3 * 2 ^ 30 < (Array.range (3 * 2 ^ 30 + 1)).size ∧ 0 + 3 * 2 ^ 30 < 2 ^ 32 ∧
    ¬ ∃ arr' key', mergeSort (Array.replicate (3 * 2 ^ 30 + 1) 0) (Array.range (3 * 2 ^ 30 + 1))
        0 (3 * 2 ^ 30) = some (arr', key') ∧
      ∃ σ, StablySorted 0 (3 * 2 ^ 30) (Array.replicate (3 * 2 ^ 30 + 1) 0)
        (Array.range (3 * 2 ^ 30 + 1)) arr' key' σ := by
  refine ⟨by simp, by simp, by omega, fun h => ?_⟩
  obtain ⟨arr', key', hrun, _⟩ := h
  have hword : 3 * 2 ^ 30 < 2 ^ 32 := by omega
  obtain ⟨_, hfit, _⟩ := sortCells_some keyed_lawful (fun _ => hword) hrun
  obtain ⟨_, _, hright⟩ := hfit.split (by omega)
  have := (hright.split (by omega)).1
  omega

end Keyed

section Part
variable {arr arr' : Array Nat} {start stop : Nat}

structure SortedPart (start stop : Nat) (arr arr' : Array Nat) : Prop where
  size : arr'.size = arr.size
  descending : Descending id (slice arr' start stop)
  perm : (slice arr' start stop).Perm (slice arr start stop)
  beyond : ∀ j, stop ≤ j → arr'[j]! = arr[j]!

theorem mergeSortWOkey_some (hsize : arr.size < 2 ^ 32)
    (h : mergeSortWOkey arr start (usub stop 1) = some arr') : SortedPart start stop arr arr' := by
  obtain ⟨hhigh, _, hs⟩ := sortCells_some unkeyed_lawful (fun h => h.trans hsize) h
  simp only [id] at hhigh hs
  by_cases h0 : stop = 0
  · subst h0
    have hwrap : usub 0 1 = 2 ^ 32 - 1 := rfl
    rw [hwrap] at hhigh hs
    by_cases hlt : start < 2 ^ 32 - 1
    · exact absurd (hhigh hlt) (by omega)
    · rw [mergeSortWOkey, hwrap, sortCells_trivial _ (by omega)] at h
      cases h
      refine ⟨rfl, ?_, .refl _, fun _ _ => rfl⟩
      rw [slice_empty _ (Nat.zero_le _)]
      exact .nil
  · have hend : usub stop 1 + 1 = stop := by
      rw [usub_of_le (Nat.one_le_iff_ne_zero.mpr h0)]
      omega
    have hdesc := hs.descending
    have hperm := hs.stable.perm
    rw [hend] at hdesc hperm
    exact ⟨hs.outside.size, hdesc, hperm, fun j hj => hs.outside.same j (.inr (by omega))⟩

theorem mergeSortWOkey_iff (hle : start ≤ stop) (hstop : stop ≤ arr.size)
    (hsize : arr.size < 2 ^ 32) :
    (∃ arr', mergeSortWOkey arr start (usub stop 1) = some arr') ↔
      0 < stop ∧ MidpointsFit start (stop - 1) := by
  constructor
  · intro h
    obtain ⟨arr', h⟩ := h
    obtain ⟨hhigh, hfit, _⟩ := sortCells_some unkeyed_lawful (fun h => h.trans hsize) h
    have hpos : 0 < stop := by
      by_contra h0
      obtain rfl : stop = 0 := by omega
      have hwrap : usub 0 1 = 2 ^ 32 - 1 := rfl
      rw [hwrap] at hhigh
      simp only [id] at hhigh
      have := hhigh (by omega)
      omega
    rw [usub_of_le hpos] at hfit
    exact ⟨hpos, hfit⟩
  · intro h
    obtain ⟨hpos, hfit⟩ := h
    rw [usub_of_le hpos]
    by_cases hlt : start < stop
    · have hview : stop - 1 < (id arr).size := by
        change stop - 1 < arr.size
        omega
      have hdepth : stop - 1 - start < usub (stop - 1) start + 1 := by
        rw [usub_of_le (by omega)]
        omega
      have hle : start ≤ stop - 1 := Nat.le_sub_one_of_lt hlt
      obtain ⟨arr', hrun, _⟩ := sortCells_spec id unkeyed_lawful hview hle hfit hdepth
      exact ⟨arr', hrun⟩
    · exact ⟨arr, sortCells_trivial _ (by omega)⟩

end Part

end GraphReorder
