import GraphReorder.Gorder.Increment
import Mathlib.Algebra.Order.BigOperators.Group.List
import Mathlib.Algebra.Order.Ring.Nat
import Mathlib.Data.Finset.Card

/-! `DecreaseTop` and `ExtractMax`: a pending decrease is worked off by halves, and only where it
matters. -/
namespace GraphReorder.Gorder
open Library

section Operations
variable {h : UnitHeap} {l : List Nat} {v : Nat}

theorem Holds.length_le (hh : Holds h l) : l.length ≤ h.heapsize := by
  have hsub : l.toFinset ⊆ Finset.range h.heapsize := fun u hu =>
    Finset.mem_range.mpr (hh.size ▸ hh.inside u (List.mem_toFinset.mp hu))
  rw [← List.toFinset_card_of_nodup hh.nodup, ← Finset.card_range h.heapsize]
  exact Finset.card_le_card hsub

theorem Holds.tailNext (hh : Holds h l) {u : Nat} (hu : u ∈ l) :
    ∃ x ∈ l, (h.Header[(keyOf h.LinkedList u).toNat]!).second = x ∧
      keyOf h.LinkedList x = keyOf h.LinkedList u ∧
      nextOf h.LinkedList x = firstOr (-1) (l.filter (keyOf h.LinkedList · < keyOf h.LinkedList u)) ∧
      h.tailNext (keyOf h.LinkedList u) =
        some (firstOr (-1) (l.filter (keyOf h.LinkedList · < keyOf h.LinkedList u))) := by
  obtain ⟨h0, hlt⟩ := hh.keys u hu
  generalize hp : keyOf h.LinkedList u = p at h0 hlt
  have hne : level (keyOf h.LinkedList) p l ≠ [] := List.ne_nil_of_mem (mem_level.mpr ⟨hu, hp⟩)
  obtain ⟨x, hx, hlast⟩ := lastOr_mem (-1) hne
  obtain ⟨hxl, hxp⟩ := mem_level.mp hx
  have hsecond : (h.Header[p.toNat]!).second = x := by
    have hnat : ((p.toNat : Nat) : Int) = p := Int.toNat_of_nonneg h0
    rw [hh.headed p.toNat (by omega), ends, hnat]
    exact hlast
  have hsplit := hh.ranked.split p
  have hnext : nextOf h.LinkedList x = firstOr (-1) (l.filter (keyOf h.LinkedList · < p)) := by
    have hlinked := hh.linked
    rw [← hsplit, Segment.append, Segment.append] at hlinked
    exact hlinked.2.1.next_last hne ((lastOr_eq_of_ne_nil _ _ hne).trans hlast)
  refine ⟨x, hxl, hsecond, hxp, hnext, ?_⟩
  rw [UnitHeap.tailNext, readAt_eq h0 hlt, some_bind, hsecond, readAt_nat (hh.inside x hxl), some_bind]
  exact congrArg some hnext

theorem Holds.search (hh : Holds h l) (hv : v ∈ l) {newkey tmp : Int}
    (hnew : newkey ≤ keyOf h.LinkedList v)
    (htmp : h.tailNext (keyOf h.LinkedList v) = some tmp) :
    ∃ st, loop (UnitHeap.searchStep newkey h) (h.heapsize + 1) (keyOf h.LinkedList v, tmp) =
        some st ∧
      ∃ u ∈ l, st.1 = keyOf h.LinkedList u ∧ newkey ≤ keyOf h.LinkedList u ∧
        ∀ w ∈ l, keyOf h.LinkedList w < keyOf h.LinkedList u → keyOf h.LinkedList w < newkey := by
  obtain ⟨_, _, _, _, _, htail⟩ := hh.tailNext hv
  rw [htmp] at htail
  refine loop_rule (fun st => ∃ u ∈ l, st.1 = keyOf h.LinkedList u ∧
      newkey ≤ keyOf h.LinkedList u ∧
      st.2 = firstOr (-1) (l.filter (keyOf h.LinkedList · < keyOf h.LinkedList u))) _
    (fun st => (l.filter (keyOf h.LinkedList · < st.1)).length) ?_
    ⟨v, hv, rfl, hnew, Option.some.inj htail⟩ ?_
  · intro st hI
    obtain ⟨p, tmp⟩ := st
    obtain ⟨u, hu, hp, hle, htmp⟩ := hI
    simp only at hp htmp
    generalize hrest : l.filter (keyOf h.LinkedList · < keyOf h.LinkedList u) = rest at htmp
    cases rest with
    | nil =>
      -- nothing behind the stretch
      refine .inr ⟨(p, tmp), ?_, u, hu, hp, hle, fun w hw hwu => ?_⟩
      · have hneg : ¬ 0 ≤ tmp := by
          rw [htmp, firstOr]
          decide
        simp only [UnitHeap.searchStep, if_neg hneg]
        rfl
      · have hmem : w ∈ l.filter (keyOf h.LinkedList · < keyOf h.LinkedList u) :=
          List.mem_filter.mpr ⟨hw, decide_eq_true hwu⟩
        rw [hrest] at hmem
        exact absurd hmem List.not_mem_nil
    | cons x rest =>
      have hx : x ∈ l.filter (keyOf h.LinkedList · < keyOf h.LinkedList u) :=
        hrest ▸ List.mem_cons_self
      obtain ⟨hxl, hxu⟩ := List.mem_filter.mp hx
      have hxu := of_decide_eq_true hxu
      have htmp : tmp = x := htmp
      have hread : readAt h.LinkedList tmp = some h.LinkedList[x]! := by
        rw [htmp]
        exact readAt_nat (hh.inside x hxl)
      have hkx : h.LinkedList[x]!.key = keyOf h.LinkedList x := rfl
      have h0 : 0 ≤ tmp := by omega
      by_cases hxn : newkey ≤ keyOf h.LinkedList x
      · -- on to the stretch behind
        obtain ⟨_, _, _, _, _, htail⟩ := hh.tailNext hxl
        refine .inl ⟨(keyOf h.LinkedList x, _), ?_, ⟨x, hxl, rfl, hxn, rfl⟩, ?_⟩
        · simp only [UnitHeap.searchStep, if_pos h0, hread, some_bind, hkx, if_pos hxn, htail]
          rfl
        · have hsub : l.filter (keyOf h.LinkedList · < keyOf h.LinkedList x) =
              (l.filter (keyOf h.LinkedList · < p)).filter
                (keyOf h.LinkedList · < keyOf h.LinkedList x) := by
            rw [List.filter_filter]
            refine List.filter_congr fun w _ => ?_
            rw [hp, ← Bool.decide_and]
            exact decide_eq_decide.mpr ⟨fun hw => ⟨hw, hw.trans hxu⟩, fun hw => hw.1⟩
          change (l.filter (keyOf h.LinkedList · < keyOf h.LinkedList x)).length < _
          rw [hsub]
          refine List.length_filter_lt_length_iff_exists.mpr ⟨x, ?_, ?_⟩
          · rw [hp]
            exact hx
          · simp
      · refine .inr ⟨(p, tmp), ?_, u, hu, hp, hle, fun w hw hwu => ?_⟩
        · simp only [UnitHeap.searchStep, if_pos h0, hread, some_bind, hkx, if_neg hxn]
          rfl
        · have hw' : w ∈ x :: rest := hrest ▸ List.mem_filter.mpr ⟨hw, decide_eq_true hwu⟩
          have hranked : Ranked (keyOf h.LinkedList) (x :: rest) :=
            hrest ▸ hh.ranked.sublist List.filter_sublist
          have := hranked.first hw'
          omega
  · have hle : (l.filter (keyOf h.LinkedList · < keyOf h.LinkedList v)).length ≤ l.length :=
      List.length_filter_le _ _
    exact Nat.lt_succ_of_le (hle.trans hh.length_le)

/-- Rounded towards zero, half of a pending decrease is less than it. -/
theorem newkey_lt {u : Int} (hu : u < 0) (k : Int) :
    k + u ≤ k + u - u.tdiv 2 ∧ k + u - u.tdiv 2 < k ∧ u ≤ u.tdiv 2 ∧ u.tdiv 2 ≤ 0 ∧
      (u.tdiv 2).natAbs < u.natAbs := by
  have h : u.tdiv 2 = -(-u / 2) := by
    rw [← Int.neg_neg u, Int.neg_tdiv, Int.tdiv_eq_ediv_of_nonneg (by omega), Int.neg_neg]
  omega

theorem Holds.search_top {t w : Nat} {rest : List Nat} (hh : Holds h (t :: w :: rest))
    {newkey tmp : Int} (hnew : newkey < keyOf h.LinkedList t) (hw : newkey < keyOf h.LinkedList w)
    (htmp : h.tailNext (keyOf h.LinkedList t) = some tmp) :
    ∃ st, loop (UnitHeap.searchStep newkey h) (h.heapsize + 1) (keyOf h.LinkedList t, tmp) =
        some st ∧
      ∃ x ∈ w :: rest, readAt h.Header st.1 = some h.Header[st.1.toNat]! ∧
        (h.Header[st.1.toNat]!).second = x ∧ x < h.LinkedList.size ∧
        lastOr (-1) ((w :: rest).filter (newkey ≤ keyOf h.LinkedList ·)) = x ∧
        nextOf h.LinkedList x =
          firstOr (-1) ((w :: rest).filter (keyOf h.LinkedList · < newkey)) := by
  obtain ⟨st, hrun, u, hu, hst, hle, hbelow⟩ := hh.search List.mem_cons_self hnew.le htmp
  obtain ⟨x, hx, hsecond, hxu, hnext, _⟩ := hh.tailNext hu
  obtain ⟨h0, hlt⟩ := hh.keys u hu
  have hunder : (t :: w :: rest).filter (keyOf h.LinkedList · < keyOf h.LinkedList u) =
      (w :: rest).filter (keyOf h.LinkedList · < newkey) := by
    have ht : ¬ keyOf h.LinkedList t < keyOf h.LinkedList u := fun ht => by
      have := hbelow t List.mem_cons_self ht
      omega
    rw [List.filter_cons, if_neg (by simpa using ht)]
    refine List.filter_congr fun y hy => decide_eq_decide.mpr ⟨?_, fun hy' => by omega⟩
    exact hbelow y (List.mem_cons_of_mem t hy)
  rw [hunder] at hnext
  have hranked := hh.ranked.tail
  have hparts := hranked.parts newkey
  have hlinked : Segment (nextOf h.LinkedList) (prevOf h.LinkedList) t (w :: rest) (-1) :=
    hh.linked.2.2
  have hd : (w :: rest).Nodup := (List.nodup_cons.mp hh.nodup).2
  have hxt : x ≠ t := fun he => by
    have hat : nextOf h.LinkedList t = (w : Int) := hh.linked.2.1
    rw [he, hat] at hnext
    refine ne_firstOr (l := (w :: rest).filter (keyOf h.LinkedList · < newkey)) (fun hmem => ?_)
      (by decide) hnext
    have := of_decide_eq_true (List.mem_filter.mp hmem).2
    omega
  have hx' : x ∈ w :: rest := (List.mem_cons.mp hx).resolve_left hxt
  rw [← hparts] at hlinked hd
  have hxup : x ∈ (w :: rest).filter (newkey ≤ keyOf h.LinkedList ·) :=
    List.mem_filter.mpr ⟨hx', decide_eq_true (by omega)⟩
  have hlast := hlinked.last_of_next hd (by decide) hxup hnext
  refine ⟨st, hrun, x, hx', ?_, hst ▸ hsecond, hh.inside x hx, ?_, hnext⟩
  · rw [hst]
    exact readAt_eq h0 hlt
  · exact (lastOr_eq_of_ne_nil _ _ (List.ne_nil_of_mem hxup)).trans hlast

def lowered (L : Array ListElement) (t : Nat) (next psecond tailnext : Int) : Array ListElement :=
  onPrev (onNext (onNext (onPrev (onPrev L next (-1)) t psecond) t tailnext) psecond t) tailnext t

theorem linked_lowered {L : Array ListElement} {t w : Nat} {rest up under : List Nat}
    (hsplit : up ++ under = w :: rest) (hd : (t :: w :: rest).Nodup)
    (hin : ∀ u ∈ t :: w :: rest, u < L.size)
    (h : Segment (nextOf L) (prevOf L) (-1) (t :: w :: rest) (-1)) :
    Segment (nextOf (lowered L t w (lastOr (-1) up) (firstOr (-1) under)))
      (prevOf (lowered L t w (lastOr (-1) up) (firstOr (-1) under))) (-1) (up ++ t :: under)
      (-1) := by
  have hmem {u : Nat} (hu : u ∈ up ++ under) : u < L.size :=
    hin u (List.mem_cons_of_mem t (hsplit ▸ hu))
  have hup := lastOr_lt fun u hu => hmem (List.mem_append_left under hu)
  have hunder := firstOr_lt fun u hu => hmem (List.mem_append_right up hu)
  have ht : (t : Int) < L.size := Int.ofNat_lt.mpr (hin t List.mem_cons_self)
  have hdrop : unlinked L (lastOr (-1) []) (firstOr (-1) (w :: rest)) = onPrev L w (-1) := rfl
  have hrest := linked_unlinked (A := []) hd hin h
  rw [hdrop, List.nil_append, ← hsplit] at hrest
  have hd' : (up ++ t :: under).Nodup :=
    List.perm_middle.nodup_iff.mpr (hsplit.symm ▸ hd)
  refine linked_insert hd' hrest (fun u => ?_) fun u => ?_
  · rw [lowered, nextOf_onPrev, nextOf_onNext (by simpa using hup),
      nextOf_onNext (by simpa using ht), nextOf_onPrev]
  · rw [lowered, prevOf_onPrev (by simpa using hunder), prevOf_onNext, prevOf_onNext,
      prevOf_onPrev (by simpa using ht)]

@[simp] theorem keyOf_lowered (L : Array ListElement) (t : Nat) (next psecond tailnext : Int)
    (u : Nat) : keyOf (lowered L t next psecond tailnext) u = keyOf L u := by simp [lowered]

@[simp] theorem size_lowered (L : Array ListElement) (t : Nat) (next psecond tailnext : Int) :
    (lowered L t next psecond tailnext).size = L.size := by simp [lowered]

theorem Headed.leave_top {H : Array HeadEnd} {key : Nat → Int} {t : Nat} {rest : List Nat}
    (hH : Headed H key (t :: rest)) (hd : (t :: rest).Nodup) (hr : Ranked key (t :: rest))
    (h0 : 0 ≤ key t) (hk : key t < H.size) :
    ∃ e H', readAt H (key t) = some e ∧
      writeAt H (key t) (if e.first = e.second then ⟨-1, -1⟩
        else { e with first := firstOr (-1) rest }) = some H' ∧
      H'.size = H.size ∧ Headed H' key rest := by
  obtain ⟨H', hrun, hsize, hH'⟩ := Headed.leave (A := []) hH hd hr h0 hk
  have hread : readAt H (key t) = some H[(key t).toNat]! := readAt_eq h0 hk
  have hnat : (((key t).toNat : Nat) : Int) = key t := Int.toNat_of_nonneg h0
  have hfirst : (H[(key t).toNat]!).first = t := by
    rw [hH (key t).toNat (by omega), hnat, ends, level, List.filter_cons,
      if_pos (decide_eq_true rfl)]
    rfl
  refine ⟨_, H', hread, ?_, hsize, hH'⟩
  rw [leaveHeader, hread, some_bind] at hrun
  rw [← hrun]
  split_ifs <;> rfl

def halved (h : UnitHeap) (t : Nat) : Int :=
  keyOf h.LinkedList t + h.update[t]! - h.update[t]!.tdiv 2

/-- Only a queue of one element leads `DecreaseTop` outside the array. It does no harm where what is
read there is not above any key. -/
def ReadsBefore (before : Option Int) (count : Nat) : Prop :=
  count = 1 → ∃ k, before = some k ∧ k ≤ 0

theorem Holds.nextKey_spec {t w : Nat} {rest : List Nat} (hh : Holds h (t :: w :: rest))
    (before : Option Int) : UnitHeap.nextKey before h.LinkedList w = some (keyOf h.LinkedList w) := by
  have hne : ((w : Nat) : Int) ≠ -1 := by omega
  rw [UnitHeap.nextKey, if_neg hne, readAt_nat (hh.inside w (by simp)), some_bind]
  rfl

/-- The top vertex is overtaken: it queues up with half of its pending decrease worked off. -/
theorem Holds.decreaseTop_moves {t w : Nat} {rest : List Nat}
    (hh : Holds h (t :: w :: rest)) (before : Option Int) (h0 : 0 ≤ halved h t)
    (hlt : halved h t < keyOf h.LinkedList t)
    (hover : halved h t < keyOf h.LinkedList w) :
    ∃ h', h.decreaseTop before = some h' ∧ h'.top = w ∧
      Holds h' (requeue (keyOf h.LinkedList) (halved h t) t (t :: w :: rest)) ∧
      h'.update = h.update.setIfInBounds t (h.update[t]!.tdiv 2) ∧
      h'.Header.size = h.Header.size ∧ h'.heapsize = h.heapsize ∧
      ∀ u, keyOf h'.LinkedList u = if u = t then halved h t else keyOf h.LinkedList u := by
  have hd := hh.nodup
  have hin := hh.inside
  have htl : t ∈ t :: w :: rest := List.mem_cons_self
  have hts := hin t htl
  have hws := hin w (by simp)
  have htu : t < h.update.size := by rw [hh.updates, ← hh.size]; exact hts
  have ht0 : (0 : Int) ≤ t := Int.natCast_nonneg t
  have ht : h.top = t := hh.top
  obtain ⟨hk0, hk⟩ := hh.keys t htl
  obtain ⟨_, _, _, _, _, htail⟩ := hh.tailNext htl
  obtain ⟨st, hsearch, x, hx, hpread, hsecond, hxs, hlast, hxnext⟩ :=
    hh.search_top hlt hover htail
  have hsplit := hh.ranked.tail.parts (halved h t)
  have hlinked := linked_lowered hsplit hd hin hh.linked
  rw [hlast] at hlinked
  have hunder : firstOr (-1) ((w :: rest).filter (keyOf h.LinkedList · < halved h t)) <
      h.LinkedList.size :=
    firstOr_lt fun u hu => hin u (List.mem_cons_of_mem t (List.mem_filter.mp hu).1)
  generalize hn : firstOr (-1) ((w :: rest).filter (keyOf h.LinkedList · < halved h t)) = tailnext
    at hlinked hxnext hunder
  obtain ⟨e, H₁, hread, hwrite, hH₁size, hH₁⟩ := hh.headed.leave_top hd hh.ranked hk0 hk
  let L := onKey (lowered h.LinkedList t w x tailnext) t (halved h t)
  have hLsize : L.size = h.LinkedList.size := by simp [L]
  have hkey (u : Nat) : keyOf L u = if u = t then halved h t else keyOf h.LinkedList u := by
    rw [keyOf_onKey ht0 (by simpa using hts), keyOf_lowered]
    simp only [Int.ofNat_inj]
  have hc : halved h t = ((halved h t).toNat : Int) := (Int.toNat_of_nonneg h0).symm
  have hkey' (u : Nat) : keyOf L u =
      if u = t then ((halved h t).toNat : Int) else keyOf h.LinkedList u := by rw [hkey, ← hc]
  have herase : (t :: w :: rest).erase t = w :: rest := List.erase_cons_head t (w :: rest)
  obtain ⟨H₂, hjoin, hH₂size, hH₂⟩ := Headed.join (herase.symm ▸ hH₁) hd (by omega) hkey'
  rw [← hc] at hjoin hH₂
  have hrun : h.decreaseTop before = some { h with
      update := h.update.setIfInBounds t (h.update[t]!.tdiv 2)
      LinkedList := L, Header := H₂, top := w } := by
    have hnext : h.LinkedList[t]!.next = w := hh.linked.2.1
    have hke : h.LinkedList[t]!.key = keyOf h.LinkedList t := rfl
    have hnew : keyOf h.LinkedList t + h.update[t]! - h.update[t]!.tdiv 2 = halved h t := rfl
    have hkw : UnitHeap.nextKey before h.LinkedList w = some (keyOf h.LinkedList w) :=
      hh.nextKey_spec before
    have hdrop : setPrev h.LinkedList w (-1) = some (onPrev h.LinkedList w (-1)) :=
      setPrev_eq (Int.natCast_nonneg w) (by omega)
    have hxread : (onPrev h.LinkedList w (-1))[x]!.next = tailnext :=
      (nextOf_onPrev x).trans hxnext
    have hback : setPrev (onPrev h.LinkedList w (-1)) t x =
        some (onPrev (onPrev h.LinkedList w (-1)) t x) := setPrev_eq ht0 (by simp; omega)
    have hon : setNext (onPrev (onPrev h.LinkedList w (-1)) t x) t tailnext =
        some (onNext (onPrev (onPrev h.LinkedList w (-1)) t x) t tailnext) :=
      setNext_eq ht0 (by simp; omega)
    have hon' : setNext (onNext (onPrev (onPrev h.LinkedList w (-1)) t x) t tailnext) x t =
        some (onNext (onNext (onPrev (onPrev h.LinkedList w (-1)) t x) t tailnext) x t) :=
      setNext_eq (Int.natCast_nonneg x) (by simp; omega)
    have hback' : linkBack (onNext (onNext (onPrev (onPrev h.LinkedList w (-1)) t x) t tailnext) x t)
        tailnext t = some (lowered h.LinkedList t w x tailnext) :=
      linkBack_eq (by simp; omega)
    have hset : setKey (lowered h.LinkedList t w x tailnext) t (halved h t) = some L :=
      setKey_eq ht0 (by simp; omega)
    simp only [UnitHeap.decreaseTop, ht, readAt_nat hts, readAt_nat htu, some_bind, hnext, hke, hnew,
      hkw, if_pos hover, htail, hsearch, hdrop, hpread, hsecond,
      readAt_nat (show x < (onPrev h.LinkedList w (-1)).size by simpa using hxs), hxread, hback, hon,
      hon', hback', hread, hset, writeAt_nat htu]
    have hwrite' : writeAt h.Header (keyOf h.LinkedList t) (if e.first = e.second then ⟨-1, -1⟩
        else { e with first := (w : Int) }) = some H₁ := hwrite
    rw [hwrite', some_bind, hjoin]
    rfl
  have hmem (u : Nat) : u ∈ requeue (keyOf h.LinkedList) (halved h t) t (t :: w :: rest) ↔
    u ∈ t :: w :: rest := mem_requeue htl
  refine ⟨_, hrun, rfl, ⟨hLsize.trans hh.size, ?_, ?_, ?_, ?_, hh.ranked.requeue hd hkey, ?_, hH₂,
    ?_⟩, rfl, hH₂size.trans hH₁size, rfl, hkey⟩
  · simpa using hh.updates
  · exact (requeue_perm _ _ htl).nodup_iff.mpr hd
  · intro u hu
    rw [hLsize]
    exact hin u ((hmem u).mp hu)
  · refine Segment.congr ?_ (fun _ _ => nextOf_onKey _) fun _ _ => prevOf_onKey _
    rw [requeue, herase]
    exact hlinked
  · intro u hu
    rw [hkey]
    change _ ∧ _ < (H₂.size : Int)
    rw [hH₂size, hH₁size]
    split_ifs
    · omega
    · exact hh.keys u ((hmem u).mp hu)
  · rw [requeue, herase, List.filter_cons, if_pos (decide_eq_true hover.le)]
    rfl

/-- The top vertex stays when no other one overtakes it. -/
theorem Holds.decreaseTop_stays {before : Option Int} {t : Nat} {rest : List Nat}
    (hh : Holds h (t :: rest)) (h0 : 0 ≤ halved h t)
    (hbefore : ReadsBefore before (t :: rest).length)
    (hstay : ∀ w ∈ rest, keyOf h.LinkedList w ≤ halved h t) : h.decreaseTop before = some h := by
  have hts := hh.inside t List.mem_cons_self
  have htu : t < h.update.size := by rw [hh.updates, ← hh.size]; exact hts
  have ht : h.top = t := hh.top
  have hnext : h.LinkedList[t]!.next = firstOr (-1) rest := hh.linked.2.1
  have hnew : h.LinkedList[t]!.key + h.update[t]! - h.update[t]!.tdiv 2 = halved h t := rfl
  simp only [UnitHeap.decreaseTop, ht, readAt_nat hts, readAt_nat htu, some_bind, hnext, hnew]
  cases rest with
  | nil =>
    obtain ⟨k, hk, hk0⟩ := hbefore rfl
    have hkey : UnitHeap.nextKey before h.LinkedList (firstOr (-1) []) = some k := hk
    rw [hkey, some_bind, if_neg (by omega)]
    rfl
  | cons w rest =>
    have hkey : UnitHeap.nextKey before h.LinkedList (firstOr (-1) (w :: rest)) =
        some (keyOf h.LinkedList w) := hh.nextKey_spec before
    rw [hkey, some_bind, if_neg (Int.not_lt.mpr (hstay w List.mem_cons_self))]
    rfl

/-- Where the read outside the array is a fault, a queue of one element comes to it. -/
theorem Holds.decreaseTop_alone {t : Nat} (hh : Holds h [t]) : h.decreaseTop none = none := by
  have hts := hh.inside t List.mem_cons_self
  have htu : t < h.update.size := by rw [hh.updates, ← hh.size]; exact hts
  have ht : h.top = t := hh.top
  have hnext : h.LinkedList[t]!.next = -1 := hh.linked.2.1
  have hkey : UnitHeap.nextKey none h.LinkedList (-1) = none := rfl
  simp only [UnitHeap.decreaseTop, ht, readAt_nat hts, readAt_nat htu, some_bind, hnext, hkey]
  rfl

/-- What a vertex is worth: its key with the pending change. -/
def worth (h : UnitHeap) (u : Nat) : Int := keyOf h.LinkedList u + h.update[u]!

def Sound (h : UnitHeap) (l : List Nat) : Prop := ∀ u ∈ l, h.update[u]! ≤ 0 ∧ 0 ≤ worth h u

structure Settled (h : UnitHeap) (l : List Nat) (h' : UnitHeap) : Prop where
  update_le : ∀ u ∈ l, h'.update[u]! ≤ 0
  worth : ∀ u ∈ l, worth h' u = worth h u
  key_le : ∀ u ∈ l, keyOf h'.LinkedList u ≤ keyOf h.LinkedList u
  others : ∀ u, u ∉ l → h'.update[u]! = h.update[u]!
  header : h'.Header.size = h.Header.size
  heapsize : h'.heapsize = h.heapsize

theorem Settled.refl (hs : Sound h l) : Settled h l h where
  update_le u hu := (hs u hu).1
  worth _ _ := rfl
  key_le _ _ := le_rfl
  others _ _ := rfl
  header := rfl
  heapsize := rfl

theorem Settled.sound {h' : UnitHeap} (hs : Sound h l) (ht : Settled h l h') : Sound h' l :=
  fun u hu => ⟨ht.update_le u hu, by rw [ht.worth u hu]; exact (hs u hu).2⟩

theorem Settled.trans {h' h'' : UnitHeap} (h₁ : Settled h l h') (h₂ : Settled h' l h'') :
    Settled h l h'' where
  update_le := h₂.update_le
  worth u hu := (h₂.worth u hu).trans (h₁.worth u hu)
  key_le u hu := (h₂.key_le u hu).trans (h₁.key_le u hu)
  others u hu := (h₂.others u hu).trans (h₁.others u hu)
  header := h₂.header.trans h₁.header
  heapsize := h₂.heapsize.trans h₁.heapsize

theorem Settled.perm {l' : List Nat} {h' : UnitHeap} (hp : l.Perm l') (ht : Settled h l h') :
    Settled h l' h' where
  update_le u hu := ht.update_le u (hp.mem_iff.mpr hu)
  worth u hu := ht.worth u (hp.mem_iff.mpr hu)
  key_le u hu := ht.key_le u (hp.mem_iff.mpr hu)
  others u hu := ht.others u fun hl => hu (hp.mem_iff.mp hl)
  header := ht.header
  heapsize := ht.heapsize

theorem Holds.settleStep {before : Option Int} {t : Nat} {rest : List Nat}
    (hh : Holds h (t :: rest)) (hs : Sound h (t :: rest))
    (hbefore : ReadsBefore before (t :: rest).length) :
    (∃ h', UnitHeap.settleStep before h = some (.inl h') ∧
      (∃ l', l'.Perm (t :: rest) ∧ Holds h' l') ∧ Settled h (t :: rest) h' ∧
      h'.pending < h.pending) ∨
    UnitHeap.settleStep before h = some (.inr h) ∧
      ∀ w ∈ rest, keyOf h.LinkedList w ≤ halved h t := by
  have htl : t ∈ t :: rest := List.mem_cons_self
  have hts : t < h.heapsize := hh.size ▸ hh.inside t htl
  have htu : t < h.update.size := hh.updates.symm ▸ hts
  have ht : h.top = t := hh.top
  obtain ⟨hu0, hw0⟩ := hs t htl
  have hread : readAt h.update (t : Int) = some h.update[t]! := readAt_nat htu
  by_cases hu : h.update[t]! < 0
  · obtain ⟨hle, hlt, hge, hle0, habs⟩ := newkey_lt hu (keyOf h.LinkedList t)
    have h0 : 0 ≤ halved h t := hw0.trans hle
    by_cases hstay : ∀ w ∈ rest, keyOf h.LinkedList w ≤ halved h t
    · refine .inr ⟨?_, hstay⟩
      simp only [UnitHeap.settleStep, ht, hread, some_bind, if_pos hu,
        hh.decreaseTop_stays h0 hbefore hstay, if_true]
      rfl
    · left
      cases rest with
      | nil => exact absurd (fun w hw => absurd hw List.not_mem_nil) hstay
      | cons w rest =>
        have hover : halved h t < keyOf h.LinkedList w := by
          by_contra hno
          exact hstay fun x hx => (hh.ranked.tail.first hx).trans (Int.not_lt.mp hno)
        obtain ⟨h', hrun, htop, hh', hup, hheader, hsize, hkey⟩ :=
          hh.decreaseTop_moves before h0 hlt hover
        have hput (u : Nat) : h'.update[u]! =
            if u = t then h.update[t]!.tdiv 2 else h.update[u]! := by rw [hup, put_get htu]
        have hne : h'.top ≠ t := by
          rw [htop]
          exact fun he => (List.nodup_cons.mp hh.nodup).1 (Int.ofNat_inj.mp he ▸ List.mem_cons_self)
        refine ⟨h', ?_, ⟨_, requeue_perm _ _ htl, hh'⟩, ⟨?_, ?_, ?_, ?_, hheader, hsize⟩, ?_⟩
        · simp only [UnitHeap.settleStep, ht, hread, some_bind, if_pos hu, hrun, if_neg hne]
          rfl
        · intro u hul
          rw [hput]
          split_ifs
          · exact hle0
          · exact (hs u hul).1
        · intro u _
          rw [worth, worth, hkey, hput]
          by_cases hut : u = t
          · rw [if_pos hut, if_pos hut, hut, halved]
            omega
          · rw [if_neg hut, if_neg hut]
        · intro u _
          rw [hkey]
          by_cases hut : u = t
          · rw [if_pos hut, hut]
            exact hlt.le
          · rw [if_neg hut]
        · intro u hul
          have hut : u ≠ t := fun he => hul (he ▸ htl)
          rw [hput, if_neg hut]
        · rw [UnitHeap.pending, UnitHeap.pending, hsize]
          refine List.sum_lt_sum _ _ (fun u _ => ?_) ⟨t, List.mem_range.mpr hts, ?_⟩
          · rw [hput]
            split_ifs with hut
            · rw [hut]
              exact habs.le
            · exact le_rfl
          · rw [hput, if_pos rfl]
            exact habs
  · refine .inr ⟨?_, fun w hw => ?_⟩
    · simp only [UnitHeap.settleStep, ht, hread, some_bind, if_neg hu, if_true]
      rfl
    · have hzero : h.update[t]! = 0 := by omega
      have hhalf : halved h t = keyOf h.LinkedList t := by
        rw [halved, hzero, Int.zero_tdiv]
        omega
      rw [hhalf]
      exact hh.ranked.first (List.mem_cons_of_mem t hw)

/-- The vertex that `ExtractMax` takes out, and what is left. No other one is worth more than it
together with half of the decrease that is still pending on it. -/
structure Extracted (h : UnitHeap) (l : List Nat) (v : Nat) (h' : UnitHeap) (rest : List Nat) :
    Prop where
  perm : (v :: rest).Perm l
  holds : Holds h' rest
  settled : Settled h l h'
  greatest : ∀ w ∈ rest, keyOf h'.LinkedList w ≤ halved h' v

/-- `ExtractMax` ends, with a vertex that is worth as much as any other one up to half of its
pending decrease. -/
theorem Holds.extractMax {before : Option Int} (hh : Holds h l) (hne : l ≠ []) (hs : Sound h l)
    (hbefore : ReadsBefore before l.length) :
    ∃ (v : Nat) (h' : UnitHeap) (rest : List Nat),
      h.extractMax before = some ((v : Int), h') ∧ Extracted h l v h' rest := by
  obtain ⟨h₁, hrun, l', hp, hh₁, hset, t, rest, hl', hgreat⟩ := loop_rule
    (fun h₁ => ∃ l', l'.Perm l ∧ Holds h₁ l' ∧ Settled h l h₁)
    (fun h₁ => ∃ l', l'.Perm l ∧ Holds h₁ l' ∧ Settled h l h₁ ∧ ∃ t rest, l' = t :: rest ∧
      ∀ w ∈ rest, keyOf h₁.LinkedList w ≤ halved h₁ t)
    UnitHeap.pending (fun h₁ (hI : ∃ l', l'.Perm l ∧ Holds h₁ l' ∧ Settled h l h₁) => by
      obtain ⟨l', hp, hh₁, hset⟩ := hI
      cases l' with
      | nil => exact absurd hp.symm.eq_nil hne
      | cons t rest =>
        have hs₁ : Sound h₁ (t :: rest) := fun u hu => hset.sound hs u (hp.mem_iff.mp hu)
        cases hh₁.settleStep hs₁ (hp.length_eq ▸ hbefore) with
        | inl hmove =>
          obtain ⟨h₂, hrun, ⟨l'', hp', hh₂⟩, hset', hless⟩ := hmove
          exact .inl ⟨h₂, hrun, ⟨l'', hp'.trans hp, hh₂, hset.trans (hset'.perm hp)⟩, hless⟩
        | inr hstay =>
          exact .inr ⟨h₁, hstay.1, t :: rest, hp, hh₁, hset, t, rest, rfl, hstay.2⟩)
    ⟨l, .refl l, hh, .refl hs⟩ (Nat.lt_succ_self _)
  subst hl'
  obtain ⟨h₂, hdel, hh₂, hkept⟩ := hh₁.deleteElement List.mem_cons_self
  rw [List.erase_cons_head] at hh₂
  have htop : h₁.top = t := hh₁.top
  have hworth (u : Nat) : worth h₂ u = worth h₁ u := by
    rw [worth, worth, hkept.key, hkept.update]
  refine ⟨t, h₂, rest, ?_, hp, hh₂, ⟨?_, ?_, ?_, ?_, ?_, ?_⟩, fun w hw => ?_⟩
  · simp only [UnitHeap.extractMax, hrun, some_bind, htop, hdel]
    rfl
  · intro u hu
    rw [hkept.update]
    exact hset.update_le u hu
  · intro u hu
    rw [hworth]
    exact hset.worth u hu
  · intro u hu
    rw [hkept.key]
    exact hset.key_le u hu
  · intro u hu
    rw [hkept.update]
    exact hset.others u hu
  · exact hkept.header.trans hset.header
  · exact hkept.heapsize.trans hset.heapsize
  · rw [halved, hkept.key, hkept.key, hkept.update]
    exact hgreat w hw

end Operations

end GraphReorder.Gorder
