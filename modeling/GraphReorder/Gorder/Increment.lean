import GraphReorder.Gorder.Heap

/-! `DeleteElement` and `IncrementKey` on the list that the queue stands for. -/
namespace GraphReorder.Gorder
open Library

section Operations
variable {h : UnitHeap} {l : List Nat} {v : Nat}

theorem erase_middle {A B : List Nat} (hd : (A ++ v :: B).Nodup) :
    v ∉ A ∧ (A ++ v :: B).erase v = A ++ B := by
  have hv : v ∉ A := fun hv => (List.nodup_append.mp hd).2.2 v hv v List.mem_cons_self rfl
  rw [List.erase_append_right _ hv, List.erase_cons_head]
  exact ⟨hv, rfl⟩

structure Kept (h h' : UnitHeap) : Prop where
  update : h'.update = h.update
  key : ∀ u, keyOf h'.LinkedList u = keyOf h.LinkedList u
  size : h'.LinkedList.size = h.LinkedList.size
  header : h'.Header.size = h.Header.size
  heapsize : h'.heapsize = h.heapsize

theorem Holds.deleteElement (hh : Holds h l) (hv : v ∈ l) :
    ∃ h', h.deleteElement v = some h' ∧ Holds h' (l.erase v) ∧ Kept h h' := by
  obtain ⟨A, B, rfl⟩ := List.append_of_mem hv
  have hd := hh.nodup
  have hin := hh.inside
  obtain ⟨hvA, herase⟩ := erase_middle hd
  obtain ⟨hprev, hnext⟩ := hh.linked.middle
  have hA (u : Nat) (hu : u ∈ A) : u < h.LinkedList.size := hin u (List.mem_append_left _ hu)
  have hB (u : Nat) (hu : u ∈ B) : u < h.LinkedList.size :=
    hin u (List.mem_append_right _ (List.mem_cons_of_mem v hu))
  have hvs := hin v hv
  have hv0 : (0 : Int) ≤ v := Int.natCast_nonneg v
  have hvs' : (v : Int) < h.LinkedList.size := Int.ofNat_lt.mpr hvs
  have hlast := lastOr_lt hA
  have hfirst := firstOr_lt hB
  obtain ⟨hk0, hk⟩ := hh.keys v hv
  obtain ⟨H, hleave, hHsize, hH⟩ := hh.headed.leave hd hh.ranked hk0 hk
  let L := unlinked h.LinkedList (lastOr (-1) A) (firstOr (-1) B)
  have hLsize : L.size = h.LinkedList.size := size_unlinked ..
  have htop : dropTop L h.top v = some (firstOr (-1) (A ++ B)) := by
    rw [hh.top, dropTop]
    cases A with
    | nil =>
      have hself : nextOf L v = firstOr (-1) B := by
        rw [nextOf_unlinked hvA hA, hnext]
      have hat : firstOr (-1) ([] ++ v :: B) = (v : Int) := rfl
      rw [hat, if_pos rfl, readAt_nat (hLsize ▸ hvs), some_bind]
      exact congrArg some hself
    | cons u A =>
      have hne : ((u : Nat) : Int) ≠ v := fun he => by
        rw [Int.ofNat_inj.mp he] at hvA
        exact hvA List.mem_cons_self
      exact if_neg hne
  have hrun : h.deleteElement v = some { h with
      LinkedList := onNext (onPrev L v (-1)) v (-1), Header := H, top := firstOr (-1) (A ++ B) } := by
    have hp : h.LinkedList[v]!.prev = lastOr (-1) A := hprev
    have hn : h.LinkedList[v]!.next = firstOr (-1) B := hnext
    have hback : linkBack (onNext h.LinkedList (lastOr (-1) A) (firstOr (-1) B)) (firstOr (-1) B)
        (lastOr (-1) A) = some L := linkBack_eq (by simpa using hfirst)
    have hclear : setPrev L v (-1) = some (onPrev L v (-1)) := setPrev_eq hv0 (by omega)
    have hclear' : setNext (onPrev L v (-1)) v (-1) = some (onNext (onPrev L v (-1)) v (-1)) :=
      setNext_eq hv0 (by simp; omega)
    have hleave' : leaveHeader h.Header h.LinkedList[v]!.key v (lastOr (-1) A) (firstOr (-1) B) =
      some H := hleave
    simp only [UnitHeap.deleteElement, readAt_nat hvs, some_bind, hp, hn, linkOn_eq hlast, hback,
      hleave', htop, hclear, hclear']
    rfl
  have hkey (u : Nat) : keyOf (onNext (onPrev L v (-1)) v (-1)) u = keyOf h.LinkedList u := by
    rw [keyOf_onNext, keyOf_onPrev]
    exact keyOf_unlinked ..
  have hsub (u : Nat) (hu : u ∈ A ++ B) : u ∈ A ++ v :: B := by
    rw [← herase] at hu
    exact List.mem_of_mem_erase hu
  refine ⟨_, hrun, ?_, rfl, hkey, by simp [hLsize], hHsize, rfl⟩
  rw [herase]
  constructor
  · exact (by simp [hLsize] : _ = h.LinkedList.size).trans hh.size
  · exact hh.updates
  · rw [← herase]
    exact hd.erase v
  · intro u hu
    simpa [hLsize] using hin u (hsub u hu)
  · have hvAB : v ∉ A ++ B := herase ▸ hd.not_mem_erase
    exact linked_outside hvAB (hLsize ▸ hvs) (linked_unlinked hd hin hh.linked)
  · rw [← herase]
    exact ((hh.ranked.erase v).imp fun huw => by rwa [hkey, hkey])
  · intro u hu
    rw [hkey]
    change _ ∧ _ < (H.size : Int)
    rw [hHsize]
    exact hh.keys u (hsub u hu)
  · have hkeys : keyOf (onNext (onPrev L v (-1)) v (-1)) = keyOf h.LinkedList := funext hkey
    change Headed H (keyOf (onNext (onPrev L v (-1)) v (-1))) (A ++ B)
    rw [hkeys]
    exact hH
  · rfl

theorem Headed.resize {H : Array HeadEnd} {key : Nat → Int} (hH : Headed H key l)
    (hkeys : ∀ u ∈ l, key u < H.size) (size : Nat) : Headed (resizeHeader H size) key l := by
  intro j hj
  rw [resizeHeader, Array.size_append, Array.size_replicate] at hj
  by_cases hjH : j < H.size
  · have hget : (resizeHeader H size)[j]! = H[j]! := by
      simp [resizeHeader, getElem!_def, Array.getElem?_append_left hjH]
    rw [hget, hH j hjH]
  · have hget : (resizeHeader H size)[j]! = ({} : HeadEnd) := by
      have hlt : j - H.size < size - H.size := by omega
      simp [resizeHeader, getElem!_def, Array.getElem?_append_right (Nat.le_of_not_lt hjH), hlt]
    rw [hget, level_eq_nil fun u hu => by have := hkeys u hu; omega]
    rfl

theorem Headed.grow {H : Array HeadEnd} {key : Nat → Int} (hH : Headed H key l)
    (hkeys : ∀ u ∈ l, key u < H.size) (k : Int) : Headed (growHeader H k) key l := by
  unfold growHeader
  split_ifs
  · exact hH.resize hkeys _
  · exact hH

theorem size_growHeader {H : Array HeadEnd} {k : Int} (h0 : 0 < k) (hk : k < H.size) :
    H.size ≤ (growHeader H k).size ∧ k + 1 < (growHeader H k).size := by
  unfold growHeader
  split_ifs
  · rw [resizeHeader, Array.size_append, Array.size_replicate]
    omega
  · omega

theorem raiseTop_spec {L : Array ListElement} {key : Nat → Int} {a g B : List Nat}
    (hin : ∀ u ∈ a ++ g ++ v :: B, u < L.size) (hd : (a ++ g ++ v :: B).Nodup)
    (hkey : ∀ u, keyOf L u = if u = v then key v + 1 else key u)
    (ha : ∀ u ∈ a, key v < key u) (hg : ∀ u ∈ g, key u = key v) :
    raiseTop L (firstOr (-1) (a ++ g ++ v :: B)) (key v + 1) v = some (firstOr (v : Int) a) := by
  have hne (u : Nat) (hu : u ∈ a ++ g) : u ≠ v := fun he =>
    (List.nodup_append.mp hd).2.2 u hu v List.mem_cons_self he
  have hread (u : Nat) (hu : u ∈ a ++ g ++ v :: B) :
      raiseTop L u (key v + 1) v = some (if keyOf L u < key v + 1 then (v : Int) else u) := by
    rw [raiseTop, readAt_nat (hin u hu), some_bind]
    rfl
  cases a with
  | nil =>
    cases g with
    | nil =>
      refine (hread v (by simp)).trans ?_
      rw [hkey, if_pos rfl, if_neg (lt_irrefl _)]
      rfl
    | cons w g =>
      refine (hread w (by simp)).trans ?_
      rw [hkey, if_neg (hne w (by simp)), hg w List.mem_cons_self, if_pos (by omega)]
      rfl
  | cons x a =>
    refine (hread x (by simp)).trans ?_
    have hx := ha x List.mem_cons_self
    rw [hkey, if_neg (hne x (by simp)), if_neg (by omega)]
    rfl

/-- `IncrementKey` lets a vertex queue up behind those of the next key. -/
theorem Holds.incrementKey (hh : Holds h l) (hv : v ∈ l)
    (hroom : keyOf h.LinkedList v + 1 < h.Header.size) :
    ∃ h', h.incrementKey v = some h' ∧
      Holds h' (requeue (keyOf h.LinkedList) (keyOf h.LinkedList v + 1) v l) ∧
      h'.update = h.update ∧ h'.LinkedList.size = h.LinkedList.size ∧
      h'.heapsize = h.heapsize ∧ h.Header.size ≤ h'.Header.size ∧
      keyOf h.LinkedList v + 2 < h'.Header.size ∧
      ∀ u, keyOf h'.LinkedList u =
        if u = v then keyOf h.LinkedList v + 1 else keyOf h.LinkedList u := by
  obtain ⟨A, B, rfl⟩ := List.append_of_mem hv
  have hd := hh.nodup
  have hin := hh.inside
  have hvs := hin v hv
  have hv0 : (0 : Int) ≤ v := Int.natCast_nonneg v
  obtain ⟨hk0, hk⟩ := hh.keys v hv
  obtain ⟨hprev, hnext⟩ := hh.linked.middle
  obtain ⟨hvA, herase⟩ := erase_middle hd
  obtain ⟨hA, _⟩ := hh.ranked.around
  obtain ⟨k, hkv⟩ : ∃ k : Nat, keyOf h.LinkedList v = k := ⟨_, (Int.toNat_of_nonneg hk0).symm⟩
  have hsucc := requeue_succ hd hh.ranked
  have ha (u : Nat) (hu : u ∈ A.filter (keyOf h.LinkedList v < keyOf h.LinkedList ·)) :=
    of_decide_eq_true (List.mem_filter.mp hu).2
  have hg (u : Nat) (hu : u ∈ level (keyOf h.LinkedList) (keyOf h.LinkedList v) A) :=
    (mem_level.mp hu).2
  have hhead : (h.Header[k]!).first =
      firstOr (v : Int) (level (keyOf h.LinkedList) (keyOf h.LinkedList v) A) := by
    rw [hh.headed k (by omega), ends, level_append, firstOr_append, ← hkv, level, level,
      List.filter_cons, if_pos (decide_eq_true rfl)]
    rfl
  generalize A.filter (keyOf h.LinkedList v < keyOf h.LinkedList ·) = a at hA hsucc ha
  generalize level (keyOf h.LinkedList) (keyOf h.LinkedList v) A = g at hA hsucc hg hhead
  obtain ⟨H₁, hleave, hH₁size, hH₁⟩ := hh.headed.leave hd hh.ranked hk0 hk
  obtain ⟨L₁, hmove, hL₁size, hL₁key, hL₁⟩ := moveBefore_spec (hA ▸ hd) (hA ▸ hin) (hA ▸ hh.linked)
  rw [← hA] at hmove
  have hkey (u : Nat) : keyOf (onKey L₁ v (keyOf h.LinkedList v + 1)) u =
      if u = v then keyOf h.LinkedList v + 1 else keyOf h.LinkedList u := by
    rw [keyOf_onKey hv0 (by omega), hL₁key]
    simp only [Int.ofNat_inj]
  have hc : keyOf h.LinkedList v + 1 = ((k + 1 : Nat) : Int) := by omega
  have hkey' (u : Nat) : keyOf (onKey L₁ v (keyOf h.LinkedList v + 1)) u =
      if u = v then ((k + 1 : Nat) : Int) else keyOf h.LinkedList u := by rw [hkey, hc]
  obtain ⟨H₂, hjoin, hH₂size, hH₂⟩ := Headed.join (herase ▸ hH₁) hd (by omega) hkey'
  rw [← hc] at hjoin hH₂
  have hnew := hh.ranked.requeue hd hkey
  have hset : setKey L₁ v (keyOf h.LinkedList v + 1) =
      some (onKey L₁ v (keyOf h.LinkedList v + 1)) := setKey_eq hv0 (by omega)
  have hlinked : Segment (nextOf (onKey L₁ v (keyOf h.LinkedList v + 1)))
      (prevOf (onKey L₁ v (keyOf h.LinkedList v + 1))) (-1) (a ++ v :: (g ++ B)) (-1) :=
    hL₁.congr (fun _ _ => nextOf_onKey _) fun _ _ => prevOf_onKey _
  have hLsize : (onKey L₁ v (keyOf h.LinkedList v + 1)).size = h.LinkedList.size := by
    rw [size_onKey, hL₁size]
  generalize onKey L₁ v (keyOf h.LinkedList v + 1) = L at hkey hH₂ hnew hset hlinked hLsize
  have htop : raiseTop L h.top (keyOf h.LinkedList v + 1) v = some (firstOr (v : Int) a) := by
    rw [hh.top, hA]
    refine raiseTop_spec (fun u hu => ?_) (hA ▸ hd) hkey ha hg
    rw [hLsize]
    exact hin u (hA ▸ hu)
  have hrun : h.incrementKey v = some { h with
      LinkedList := L, Header := growHeader H₂ (keyOf h.LinkedList v + 1)
      top := firstOr (v : Int) a } := by
    have he : h.LinkedList[v]!.key = keyOf h.LinkedList v := rfl
    have hp : h.LinkedList[v]!.prev = lastOr (-1) A := hprev
    have hn : h.LinkedList[v]!.next = firstOr (-1) B := hnext
    have hhead' : readAt h.Header (keyOf h.LinkedList v) = some h.Header[k]! := by
      rw [hkv]
      exact readAt_nat (by omega)
    simp only [UnitHeap.incrementKey, readAt_nat hvs, some_bind, he, hp, hn, hhead', hhead, hmove,
      hset, hleave, hjoin, htop]
    rfl
  obtain ⟨hgrow, hroom'⟩ := size_growHeader (H := H₂) (k := keyOf h.LinkedList v + 1) (by omega)
    (by omega)
  have hmem (u : Nat) : u ∈ requeue (keyOf h.LinkedList) (keyOf h.LinkedList v + 1) v
    (A ++ v :: B) ↔ u ∈ A ++ v :: B := mem_requeue hv
  have hkeys (u : Nat) (hu : u ∈ requeue (keyOf h.LinkedList) (keyOf h.LinkedList v + 1) v
      (A ++ v :: B)) : 0 ≤ keyOf L u ∧ keyOf L u < H₂.size := by
    rw [hkey, hH₂size, hH₁size]
    split_ifs
    · omega
    · exact hh.keys u ((hmem u).mp hu)
  refine ⟨_, hrun, ⟨hLsize.trans hh.size, hh.updates, ?_, ?_, ?_, hnew, ?_,
    hH₂.grow (fun u hu => (hkeys u hu).2) _, ?_⟩, rfl, hLsize, rfl, ?_, ?_, hkey⟩
  · exact (requeue_perm _ _ hv).nodup_iff.mpr hd
  · intro u hu
    rw [hLsize]
    exact hin u ((hmem u).mp hu)
  · rw [hsucc]
    exact hlinked
  · intro u hu
    obtain ⟨h1, h2⟩ := hkeys u hu
    exact ⟨h1, h2.trans_le (Int.ofNat_le.mpr hgrow)⟩
  · rw [hsucc, firstOr_append]
    rfl
  · change h.Header.size ≤ (growHeader H₂ _).size
    omega
  · change _ < ((growHeader H₂ _).size : Int)
    omega

end Operations

end GraphReorder.Gorder
