import GraphReorder.Gorder.Heap

/-! `ReConstruct` builds the queue from the keys alone. -/
namespace GraphReorder.Gorder
open Library

theorem setFirst_eq {H : Array HeadEnd} {k : Int} (h0 : 0 ≤ k) (h : k < H.size) (x : Int) :
    setFirst H k x = some (H.setIfInBounds k.toNat { H[k.toNat]! with first := x }) := by
  rw [setFirst, readAt_eq h0 h, some_bind, writeAt_eq h0 h]

theorem setSecond_eq {H : Array HeadEnd} {k : Int} (h0 : 0 ≤ k) (h : k < H.size) (x : Int) :
    setSecond H k x = some (H.setIfInBounds k.toNat { H[k.toNat]! with second := x }) := by
  rw [setSecond, readAt_eq h0 h, some_bind, writeAt_eq h0 h]

section Stretches
variable {H : Array HeadEnd} {key : Nat → Int} {l : List Nat} {u v : Nat}

theorem level_self (key : Nat → Int) (u : Nat) : level key (key u) [u] = [u] :=
  level_eq_self fun x hx => by rw [List.mem_singleton.mp hx]

theorem level_other {k : Int} (hk : k ≠ key u) : level key k [u] = [] :=
  level_eq_nil fun x hx => by rw [List.mem_singleton.mp hx]; exact hk.symm

structure Opened (H : Array HeadEnd) (key : Nat → Int) (l : List Nat) (u : Nat) : Prop where
  others : ∀ k : Nat, k < H.size → (k : Int) ≠ key u → H[k]! = ends (level key k (l ++ [u]))
  first : H[(key u).toNat]!.first = firstOr (-1) (level key (key u) (l ++ [u]))

theorem Opened.close (h : Opened H key l u) (h0 : 0 ≤ key u) (hlt : key u < H.size) :
    ∃ H', setSecond H (key u) u = some H' ∧ H'.size = H.size ∧ Headed H' key (l ++ [u]) := by
  have hk : (key u).toNat < H.size := by omega
  refine ⟨_, setSecond_eq h0 hlt u, by simp, fun k hk' => ?_⟩
  rw [Array.size_setIfInBounds] at hk'
  rw [put_get hk]
  by_cases hku : k = (key u).toNat
  · have hcast : (k : Int) = key u := by omega
    rw [if_pos hku, hcast, ends, level_append, level_self, lastOr_concat, ← level_self key u,
      ← level_append]
    exact congrArg (HeadEnd.mk · u) h.first
  · rw [if_neg hku]
    exact h.others k hk' (by omega)

theorem Opened.same (h : Opened H key l u) (hv : key v = key u) : Opened H key (l ++ [u]) v where
  others k hk hkv := by
    rw [level_append, level_other hkv, List.append_nil]
    exact h.others k hk (hv ▸ hkv)
  first := by
    rw [level_append, level_self, firstOr_append, hv]
    refine h.first.trans (firstOr_eq_of_ne_nil _ _ ?_)
    exact List.ne_nil_of_mem (mem_level.mpr ⟨List.mem_append_right l List.mem_cons_self, rfl⟩)

theorem Headed.new (h : Headed H key l) (hv : level key (key v) l = []) (h0 : 0 ≤ key v)
    (hlt : key v < H.size) :
    ∃ H', setFirst H (key v) v = some H' ∧ H'.size = H.size ∧ Opened H' key l v := by
  have hk : (key v).toNat < H.size := by omega
  refine ⟨_, setFirst_eq h0 hlt v, by simp, fun k hk' hkv => ?_, ?_⟩
  · rw [Array.size_setIfInBounds] at hk'
    have hne : k ≠ (key v).toNat := by omega
    rw [put_get hk, if_neg hne, level_append, level_other hkv, List.append_nil]
    exact h k hk'
  · rw [put_get_self hk, level_append, level_self, hv]
    rfl

theorem Headed.closed (h : Headed H key l) (hv : level key (key v) l = []) (h0 : 0 ≤ key v)
    (hlt : key v < H.size) :
    ∃ H', writeAt H (key v) ⟨v, v⟩ = some H' ∧ H'.size = H.size ∧ Headed H' key (l ++ [v]) := by
  have hk : (key v).toNat < H.size := by omega
  refine ⟨_, writeAt_eq h0 hlt _, by simp, fun k hk' => ?_⟩
  rw [Array.size_setIfInBounds] at hk'
  rw [put_get hk, level_append]
  by_cases hkv : k = (key v).toNat
  · have hcast : (k : Int) = key v := by omega
    rw [if_pos hkv, hcast, hv, level_self]
    rfl
  · have hne : (k : Int) ≠ key v := by omega
    rw [if_neg hkv, level_other hne, List.append_nil]
    exact h k hk'

theorem fresh_level {B : List Nat} (hr : Ranked key (l ++ u :: v :: B)) (hne : key v ≠ key u) :
    level key (key v) (l ++ [u]) = [] := by
  obtain ⟨_, hr', hcross⟩ := List.pairwise_append.mp hr
  have huv : key v ≤ key u := (List.pairwise_cons.mp hr').1 v List.mem_cons_self
  refine level_eq_nil fun x hx => ?_
  have hxu : key u ≤ key x := by
    cases List.mem_append.mp hx with
    | inl hx => exact hcross x hx u List.mem_cons_self
    | inr hx => rw [List.mem_singleton.mp hx]
  omega

end Stretches

section Layout
variable {L₀ : Array ListElement} {n : Nat} {A B : List Nat} {u v w y z : Nat}
  {st : Array ListElement × Array HeadEnd × Int}

structure Laid (L₀ : Array ListElement) (n y z : Nat) (A : List Nat) (u : Nat) (B : List Nat)
    (st : Array ListElement × Array HeadEnd × Int) : Prop where
  size : st.1.size = L₀.size
  key : ∀ w, keyOf st.1 w = keyOf L₀ w
  reached : st.2.2 = keyOf L₀ u
  header : st.2.1.size = n
  linked : Segment (nextOf st.1) (prevOf st.1) (-1) (A ++ [u]) (firstOr (-1) B)
  tail : prevOf st.1 z = y ∧ nextOf st.1 z = -1
  opened : Opened st.2.1 (keyOf L₀) A u

theorem links_set {L : Array ListElement} (hv : v < L.size) (a b : Int) (x : Nat) :
    nextOf (onNext (onPrev L v a) v b) x = (if x = v then b else nextOf L x) ∧
      prevOf (onNext (onPrev L v a) v b) x = if x = v then a else prevOf L x := by
  have hv' : (v : Int) < L.size := Int.ofNat_lt.mpr hv
  rw [nextOf_onNext (by simpa using hv'), nextOf_onPrev, prevOf_onNext, prevOf_onPrev hv']
  simp only [Int.ofNat_inj, and_self]

theorem Laid.step (h : Laid L₀ n y z A u (v :: w :: B) st)
    (hd : (A ++ u :: v :: w :: B).Nodup) (hin : ∀ x ∈ A ++ u :: v :: w :: B, x < L₀.size)
    (hr : Ranked (keyOf L₀) (A ++ u :: v :: w :: B))
    (hkeys : ∀ x ∈ A ++ u :: v :: w :: B, 0 ≤ keyOf L₀ x ∧ keyOf L₀ x < n)
    (hz : z ∈ w :: B) :
    ∃ st', UnitHeap.reConstructStep (A ++ u :: v :: w :: B).toArray (A.length + 1) st = some st' ∧
      Laid L₀ n y z (A ++ [u]) v (w :: B) st' := by
  obtain ⟨L, H, key⟩ := st
  obtain rfl : key = keyOf L₀ u := h.reached
  have hLsize : L.size = L₀.size := h.size
  have hHsize : H.size = n := h.header
  have hopen : Opened H (keyOf L₀) A u := h.opened
  have hv : v < L.size := by rw [hLsize]; exact hin v (by simp)
  have hv0 : (0 : Int) ≤ v := Int.natCast_nonneg v
  have hassoc : (A ++ [u]) ++ v :: w :: B = A ++ u :: v :: w :: B := by simp
  obtain ⟨_, hvd, hcross⟩ := List.nodup_append.mp (hassoc ▸ hd)
  have hdis : v ∉ A ++ [u] := fun hm => hcross v hm v List.mem_cons_self rfl
  have hvz : z ≠ v := fun he => (List.nodup_cons.mp hvd).1 (he ▸ hz)
  obtain ⟨hu0, hun⟩ := hkeys u (by simp)
  obtain ⟨hv0', hvn⟩ := hkeys v (by simp)
  let L' := onNext (onPrev L v u) v w
  have hL' : setPrev L v u = some (onPrev L v u) := setPrev_eq hv0 (by omega)
  have hL'' : setNext (onPrev L v u) v w = some L' := setNext_eq hv0 (by simp; omega)
  have hL'size : L'.size = L₀.size := by simp [L', hLsize]
  have hkey (x : Nat) : keyOf L' x = keyOf L₀ x := by
    rw [keyOf_onNext, keyOf_onPrev]
    exact h.key x
  have hread : readAt L' v = some L'[v]! := readAt_nat (by omega)
  have hkv : L'[v]!.key = keyOf L₀ v := hkey v
  have hlinked : Segment (nextOf L') (prevOf L') (-1) ((A ++ [u]) ++ [v])
      (firstOr (-1) (w :: B)) := by
    refine Segment.append.mpr ⟨h.linked.congr (fun x hx => ?_) fun x hx => ?_, ?_, ?_, trivial⟩
    · rw [(links_set hv u w x).1, if_neg fun he : x = v => hdis (he ▸ hx)]
    · rw [(links_set hv u w x).2, if_neg fun he : x = v => hdis (he ▸ hx)]
    · rw [(links_set hv u w v).2, if_pos rfl, lastOr_concat]
    · rw [(links_set hv u w v).1, if_pos rfl]
      rfl
  have htail : prevOf L' z = y ∧ nextOf L' z = -1 := by
    rw [(links_set hv u w z).2, (links_set hv u w z).1, if_neg hvz, if_neg hvz]
    exact h.tail
  have hfetch : UnitHeap.reConstructStep (A ++ u :: v :: w :: B).toArray (A.length + 1)
      (L, H, keyOf L₀ u) = if keyOf L₀ v ≠ keyOf L₀ u then do
        let H ← setSecond H (keyOf L₀ u) u
        let H ← setFirst H (keyOf L₀ v) v
        pure (L', H, keyOf L₀ v)
      else some (L', H, keyOf L₀ u) := by
    have h₁ : (A ++ u :: v :: w :: B).toArray[A.length]? = some u := by simp
    have h₂ : (A ++ u :: v :: w :: B).toArray[A.length + 1]? = some v := by simp
    have h₃ : (A ++ u :: v :: w :: B).toArray[A.length + 1 + 1]? = some w := by
      rw [List.getElem?_toArray, List.getElem?_append_right (by omega), Nat.add_assoc,
        Nat.add_sub_cancel_left]
      rfl
    simp only [UnitHeap.reConstructStep, Nat.add_sub_cancel, h₁, h₂, h₃, some_bind, hL', hL'',
      hread, hkv]
    rfl
  rw [hfetch]
  by_cases hsame : keyOf L₀ v = keyOf L₀ u
  · exact ⟨_, if_neg (not_not.mpr hsame), hL'size, hkey, hsame.symm, hHsize, hlinked, htail,
      hopen.same hsame⟩
  · obtain ⟨H₁, hclose, hH₁size, hH₁⟩ := hopen.close hu0 (by omega)
    obtain ⟨H₂, hnew, hH₂size, hH₂⟩ := hH₁.new (fresh_level hr hsame) hv0' (by omega)
    refine ⟨(L', H₂, keyOf L₀ v), ?_, hL'size, hkey, rfl, ?_, hlinked, htail, hH₂⟩
    · rw [if_pos hsame, hclose, some_bind, hnew, some_bind]
      rfl
    · exact (hH₂size.trans hH₁size).trans hHsize

theorem Laid.finish (h : Laid L₀ n u z A u [z] st) (hr : Ranked (keyOf L₀) (A ++ [u, z]))
    (hkeys : ∀ x ∈ A ++ [u, z], 0 ≤ keyOf L₀ x ∧ keyOf L₀ x < n) :
    (∃ H, UnitHeap.closeHeader st.2.1 st.2.2 (keyOf L₀ z) u z = some H ∧ H.size = n ∧
      Headed H (keyOf L₀) (A ++ [u, z])) ∧
      Segment (nextOf st.1) (prevOf st.1) (-1) (A ++ [u, z]) (-1) := by
  obtain ⟨L, H, key⟩ := st
  obtain rfl : key = keyOf L₀ u := h.reached
  have hHsize : H.size = n := h.header
  have hopen : Opened H (keyOf L₀) A u := h.opened
  have hassoc : A ++ [u, z] = A ++ [u] ++ [z] := by simp
  obtain ⟨hu0, hun⟩ := hkeys u (by simp)
  obtain ⟨hz0, hzn⟩ := hkeys z (by simp)
  constructor
  · rw [hassoc]
    by_cases hsame : keyOf L₀ z = keyOf L₀ u
    · obtain ⟨H', hclose, hH'size, hH'⟩ := (hopen.same hsame).close hz0 (by omega)
      rw [UnitHeap.closeHeader, if_pos hsame.symm, ← hsame]
      exact ⟨H', hclose, hH'size.trans hHsize, hH'⟩
    · obtain ⟨H₁, hclose, hH₁size, hH₁⟩ := hopen.close hu0 (by omega)
      obtain ⟨H₂, hnew, hH₂size, hH₂⟩ := hH₁.closed (fresh_level hr hsame) hz0 (by omega)
      refine ⟨H₂, ?_, (hH₂size.trans hH₁size).trans hHsize, hH₂⟩
      rw [UnitHeap.closeHeader, if_neg (Ne.symm hsame), hclose, some_bind, hnew]
  · rw [hassoc]
    refine Segment.append.mpr ⟨h.linked, ?_, ?_, trivial⟩
    · rw [lastOr_concat]
      exact h.tail.1
    · exact h.tail.2

theorem last_two {α : Type} {l : List α} (h : 2 ≤ l.length) : ∃ C y z, l = C ++ [y, z] := by
  rcases List.eq_nil_or_concat l with rfl | ⟨C', z, rfl⟩
  · cases h
  · rcases List.eq_nil_or_concat C' with rfl | ⟨C, y, rfl⟩
    · simp at h
    · exact ⟨C, y, z, by simp⟩

theorem layout_loop {T C T' : List Nat} {t s : Nat} (hCT : T = C ++ [y, z])
    (htT : T = t :: s :: T') (hd : T.Nodup) (hin : ∀ x ∈ T, x < L₀.size)
    (hr : Ranked (keyOf L₀) T) (hkeys : ∀ x ∈ T, 0 ≤ keyOf L₀ x ∧ keyOf L₀ x < n)
    (hstart : Laid L₀ n y z [] t (s :: T') st) :
    ∃ st' A u, forRange 1 (T.length - 1) (UnitHeap.reConstructStep T.toArray) st = some st' ∧
      T = A ++ [u, z] ∧ Laid L₀ n u z A u [z] st' := by
  have hlen : T.length = C.length + 2 := by rw [hCT, List.length_append]; rfl
  obtain ⟨st', hloop, A, u, B, hT, hi, hlaid⟩ := forRange_rule
    (fun i st => ∃ A u B, T = A ++ u :: B ∧ A.length + 1 = i ∧ Laid L₀ n y z A u B st)
    (by omega : 1 ≤ T.length - 1) ⟨[], t, s :: T', htT, rfl, hstart⟩
    (fun i st _ hi (hI : ∃ A u B, T = A ++ u :: B ∧ A.length + 1 = i ∧ Laid L₀ n y z A u B st) => by
      obtain ⟨A, u, B, hT, hA, hlaid⟩ := hI
      have hB : 2 ≤ B.length := by
        have hlen' := congrArg List.length hT
        rw [List.length_append, List.length_cons] at hlen'
        omega
      match B, hB with
      | v :: w :: B, _ =>
        have hzB : z ∈ w :: B := by
          have hlast := congrArg List.getLast? (hT.symm.trans hCT)
          exact List.mem_of_getLast? (by simpa using hlast)
        obtain ⟨st', hrun, hlaid'⟩ := hlaid.step (hT ▸ hd) (hT ▸ hin) (hT ▸ hr) (hT ▸ hkeys) hzB
        refine ⟨st', ?_, A ++ [u], v, w :: B, by rw [hT]; simp, by simp [hA], hlaid'⟩
        rw [hA, ← hT] at hrun
        exact hrun)
  have hlast := hT.symm.trans hCT
  have hB : B.length = 1 := by
    have hlen' := congrArg List.length hT
    rw [List.length_append, List.length_cons] at hlen'
    omega
  obtain ⟨b, rfl⟩ := List.length_eq_one_iff.mp hB
  have hCA : A.length = C.length := by
    have hlen' := congrArg List.length hlast
    simpa using hlen'
  obtain ⟨_, hub⟩ := List.append_inj hlast hCA
  obtain ⟨rfl, hb⟩ := List.cons.inj hub
  obtain ⟨rfl, _⟩ := List.cons.inj hb
  exact ⟨st', A, u, hloop, hT, hlaid⟩

/-- `ReConstruct` takes any keys from 0 on, whatever order `std::sort` leaves equal ones in. -/
theorem reConstruct_holds (std : StdSort) (h : UnitHeap) (hsize : h.LinkedList.size = h.heapsize)
    (hupdate : h.update.size = h.heapsize) (htwo : 2 ≤ h.heapsize)
    (hkey : ∀ v < h.heapsize, 0 ≤ keyOf h.LinkedList v) :
    ∃ h' l, h.reConstruct std = some h' ∧ l.Perm (List.range h.heapsize) ∧ Holds h' l ∧
      h'.update = h.update ∧ (∀ v, keyOf h'.LinkedList v = keyOf h.LinkedList v) ∧
      h'.heapsize = h.heapsize ∧ h.Header.size ≤ h'.Header.size ∧
      ∀ v < h.heapsize, keyOf h.LinkedList v < h'.Header.size := by
  obtain ⟨hperm, hr⟩ := std.falling (keyOf h.LinkedList) (List.range h.heapsize)
  have hsort : std.sort (fun a b => decide (h.LinkedList[b]!.key < h.LinkedList[a]!.key))
    (List.range h.heapsize) =
    std.sort (fun a b => decide (keyOf h.LinkedList b < keyOf h.LinkedList a))
      (List.range h.heapsize) := rfl
  generalize hTdef : std.sort (fun a b => decide (keyOf h.LinkedList b < keyOf h.LinkedList a))
    (List.range h.heapsize) = T at hperm hr
  have hlen : T.length = h.heapsize := by rw [hperm.length_eq, List.length_range]
  have hd : T.Nodup := hperm.nodup_iff.mpr List.nodup_range
  have hin (x : Nat) (hx : x ∈ T) : x < h.LinkedList.size := by
    rw [hsize]
    exact List.mem_range.mp (hperm.mem_iff.mp hx)
  obtain ⟨C, y, z, hCT⟩ := last_two (hlen.symm ▸ htwo)
  obtain ⟨t, s, T', htT⟩ : ∃ t s T', T = t :: s :: T' := by
    match T, hlen ▸ htwo with
    | t :: s :: T', _ => exact ⟨t, s, T', rfl⟩
  have ht : t ∈ T := htT ▸ List.mem_cons_self
  have hz : z ∈ T := by rw [hCT]; simp
  have hzrest : z ∈ s :: T' := by
    have hzlast : T.getLast? = some z := by rw [hCT]; simp
    rw [htT, List.getLast?_cons_cons] at hzlast
    exact List.mem_of_getLast? hzlast
  have htz : t ≠ z := fun he => (List.nodup_cons.mp (htT ▸ hd)).1 (he ▸ hzrest)
  have hmax (x : Nat) (hx : x ∈ T) : keyOf h.LinkedList x ≤ keyOf h.LinkedList t := by
    rw [htT] at hx hr
    exact hr.first hx
  generalize hn : (max (keyOf h.LinkedList t + 1) h.Header.size).toNat = n
  have hkeys (x : Nat) (hx : x ∈ T) : 0 ≤ keyOf h.LinkedList x ∧ keyOf h.LinkedList x < n := by
    have h0 := hkey x (hsize ▸ hin x hx)
    have hle := hmax x hx
    omega
  have hzlast : z < h.LinkedList.size := hin z hz
  have htlast : t < h.LinkedList.size := hin t ht
  have hz0 : (0 : Int) ≤ z := Int.natCast_nonneg z
  have ht0 : (0 : Int) ≤ t := Int.natCast_nonneg t
  let L₁ := onPrev (onNext h.LinkedList t s) t (-1)
  let L₂ := onPrev (onNext L₁ z (-1)) z y
  have hL₁ : setPrev (onNext h.LinkedList t s) t (-1) = some L₁ := setPrev_eq ht0 (by simp; omega)
  have hL₁' : setNext L₁ z (-1) = some (onNext L₁ z (-1)) := setNext_eq hz0 (by simp [L₁]; omega)
  have hL₂ : setPrev (onNext L₁ z (-1)) z y = some L₂ := setPrev_eq hz0 (by simp [L₁]; omega)
  have hL₂size : L₂.size = h.LinkedList.size := by simp [L₂, L₁]
  have hL₂key (x : Nat) : keyOf L₂ x = keyOf h.LinkedList x := by simp [L₂, L₁]
  have hempty : Headed (Array.replicate n ({} : HeadEnd)) (keyOf h.LinkedList) [] :=
    fun k hk => replicate_get n k _ (by simpa using hk)
  obtain ⟨H₀, hnew, hH₀size, hH₀⟩ := hempty.new (v := t) rfl (hkeys t ht).1
    (by rw [Array.size_replicate]; exact (hkeys t ht).2)
  have hstart : Laid h.LinkedList n y z [] t (s :: T') (L₂, H₀, keyOf h.LinkedList t) := by
    have hz' : (z : Int) < L₁.size := by simp [L₁]; omega
    have ht' : (t : Int) < h.LinkedList.size := Int.ofNat_lt.mpr htlast
    have htz' : (t : Int) ≠ z := fun he => htz (Int.ofNat_inj.mp he)
    refine ⟨hL₂size, hL₂key, rfl, by simpa using hH₀size, ⟨?_, ?_, trivial⟩, ⟨?_, ?_⟩, hH₀⟩
    · rw [prevOf_onPrev (by simpa using hz'), if_neg htz', prevOf_onNext,
        prevOf_onPrev (by simpa using ht'), if_pos rfl]
    · rw [nextOf_onPrev, nextOf_onNext hz', if_neg htz', nextOf_onPrev, nextOf_onNext ht', if_pos rfl]
      rfl
    · rw [prevOf_onPrev (by simpa using hz'), if_pos rfl]
    · rw [nextOf_onPrev, nextOf_onNext hz', if_pos rfl]
  obtain ⟨⟨L, H, key⟩, A, u, hloop, hT, hlaid⟩ := layout_loop hCT htT hd hin hr hkeys hstart
  obtain ⟨⟨H', hclose, hH'size, hH'⟩, hseg⟩ := hlaid.finish (hT ▸ hr) (hT ▸ hkeys)
  have hLsize : L.size = h.LinkedList.size := hlaid.size
  have hLkey (x : Nat) : keyOf L x = keyOf h.LinkedList x := hlaid.key x
  have huy : u = y := by
    have hlast := hT.symm.trans hCT
    have hlen' := congrArg List.length hlast
    rw [List.length_append, List.length_append] at hlen'
    exact (List.cons.inj (List.append_inj hlast (by simpa using hlen')).2).1
  have h₀ : T.toArray[0]? = some t := by rw [htT]; rfl
  have h₁ : T.toArray[1]? = some s := by rw [htT]; rfl
  have hsub : T.toArray.size = C.length + 2 := by rw [hCT]; simp
  have h₂ : T.toArray[T.toArray.size - 2]? = some y := by rw [hsub, hCT]; simp
  have h₃ : T.toArray[T.toArray.size - 1]? = some z := by
    rw [hsub, hCT, List.getElem?_toArray, List.getElem?_append_right (by omega)]
    simp
  have hread : readAt h.LinkedList t = some h.LinkedList[t]! := readAt_nat htlast
  have hlastread : readAt L z = some L[z]! := readAt_nat (by omega)
  have hlastkey : L[z]!.key = keyOf h.LinkedList z := hLkey z
  have hset : setNext h.LinkedList t s = some (onNext h.LinkedList t s) :=
    setNext_eq ht0 (Int.ofNat_lt.mpr htlast)
  have htkey : h.LinkedList[t]!.key = keyOf h.LinkedList t := rfl
  have hclose' : UnitHeap.closeHeader H key (keyOf h.LinkedList z) y z = some H' := huy ▸ hclose
  have hrun : h.reConstruct std = some { h with LinkedList := L, Header := H', top := t } := by
    simp only [UnitHeap.reConstruct, hsort, hTdef, h₀, h₁, h₂, h₃, some_bind, hread, hset, hL₁,
      hL₁', hL₂, htkey, hn, hnew]
    rw [List.size_toArray, hloop]
    simp only [some_bind, hlastread, hlastkey, hclose']
    rfl
  refine ⟨_, T, hrun, hperm, ⟨hLsize.trans hsize, hupdate, hd, fun x hx => ?_, ?_, ?_, fun x hx => ?_,
    fun k hk => ?_, ?_⟩, rfl, hLkey, rfl, ?_, fun v hv => ?_⟩
  · exact (hin x hx).trans_eq hLsize.symm
  · rw [hT]
    exact hseg
  · exact hr.imp fun {a b} hab => by rw [hLkey, hLkey]; exact hab
  · rw [hLkey]
    change _ ∧ _ < (H'.size : Int)
    rw [hH'size]
    exact hkeys x hx
  · have hlevel : level (keyOf L) k T = level (keyOf h.LinkedList) k T :=
      List.filter_congr fun x _ => by rw [hLkey]
    rw [hlevel, hT]
    exact hH' k hk
  · rw [htT]
    rfl
  · change _ ≤ H'.size
    omega
  · change _ < (H'.size : Int)
    rw [hH'size]
    exact (hkeys v (hperm.mem_iff.mpr (List.mem_range.mpr hv))).2

end Layout

end GraphReorder.Gorder
