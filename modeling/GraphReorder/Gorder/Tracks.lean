import GraphReorder.Gorder.ExtractMax
import GraphReorder.Gorder.Increment
import GraphReorder.Gorder.Greedy

/-! The queue under `GorderGreedy`: every vertex has a score. That of a vertex in the queue is its
key with what is pending; a vertex that has left it keeps a pending change no loop takes to zero. -/
namespace GraphReorder.Gorder
open Library

section Updates
variable {h : UnitHeap} {l : List Nat}

theorem Holds.withUpdate (hh : Holds h l) (update : Array Int) (hs : update.size = h.update.size) :
    Holds { h with update := update } l :=
  ⟨hh.size, hs.trans hh.updates, hh.nodup, hh.inside, hh.linked, hh.ranked, hh.keys, hh.headed,
    hh.top⟩

theorem mark_eq {v : Nat} (hv : v < h.update.size) :
    mark v h = some { h with update := h.update.setIfInBounds v halfMax } := by
  rw [mark, writeAt_nat hv]
  rfl

theorem int_eq {x : Int} (hlow : -2147483648 ≤ x) (hhigh : x ≤ 2147483647) : int x = some x :=
  if_pos ⟨hlow, hhigh⟩

theorem Holds.remove {v : Nat} (hh : Holds h l) (hv : v ∈ l) :
    ∃ h₁ h', mark v h = some h₁ ∧ h₁.deleteElement v = some h' ∧ Holds h' (l.erase v) ∧
      (∀ u, keyOf h'.LinkedList u = keyOf h.LinkedList u) ∧
      (∀ u, h'.update[u]! = if u = v then halfMax else h.update[u]!) ∧
      h'.Header.size = h.Header.size ∧ h'.heapsize = h.heapsize := by
  have hvs : v < h.update.size := by
    rw [hh.updates, ← hh.size]
    exact hh.inside v hv
  obtain ⟨h', hdel, hh', hkept⟩ :=
    (hh.withUpdate (h.update.setIfInBounds v halfMax) (by simp)).deleteElement hv
  refine ⟨_, h', mark_eq hvs, hdel, hh', hkept.key, fun u => ?_, hkept.header, hkept.heapsize⟩
  rw [hkept.update]
  exact put_get hvs _ u

end Updates

structure Tracks (n : Nat) (cap : Int) (h : UnitHeap) (l : List Nat) (score : Nat → Int) :
    Prop where
  holds : Holds h l
  heapsize : h.heapsize = n
  room : ∀ v ∈ l, keyOf h.LinkedList v + 1 < h.Header.size
  low : ∀ v ∈ l, keyOf h.LinkedList v ≤ cap
  live : ∀ v ∈ l, h.update[v]! ≤ 0 ∧ keyOf h.LinkedList v + h.update[v]! = score v
  gone : ∀ v < n, v ∉ l → ∃ m, 0 ≤ m ∧ m ≤ cap ∧ h.update[v]! = halfMax + score v - m

namespace Tracks
variable {n : Nat} {cap : Int} {h : UnitHeap} {l : List Nat} {score : Nat → Int} {v : Nat}

theorem updates (ht : Tracks n cap h l score) : h.update.size = n :=
  ht.holds.updates.trans ht.heapsize

theorem congr {score' : Nat → Int} (ht : Tracks n cap h l score)
    (hs : ∀ v < n, score' v = score v) : Tracks n cap h l score' where
  holds := ht.holds
  heapsize := ht.heapsize
  room := ht.room
  low := ht.low
  live v hv := by
    have hlt : v < n := ht.heapsize ▸ ht.holds.size ▸ ht.holds.inside v hv
    rw [hs v hlt]
    exact ht.live v hv
  gone v hv hvl := by
    rw [hs v hv]
    exact ht.gone v hv hvl

theorem shift (ht : Tracks n cap h l score) (hv : v < n) {d : Int}
    (hd : v ∈ l → h.update[v]! + d ≤ 0) {score' : Nat → Int}
    (hs : ∀ u, score' u = if u = v then score v + d else score u) :
    Tracks n cap { h with update := h.update.setIfInBounds v (h.update[v]! + d) } l score' := by
  have hvs : v < h.update.size := ht.updates.symm ▸ hv
  have hput (u : Nat) : (h.update.setIfInBounds v (h.update[v]! + d))[u]! =
    if u = v then h.update[v]! + d else h.update[u]! := put_get hvs _ u
  refine ⟨ht.holds.withUpdate _ (by simp), ht.heapsize, ht.room, ht.low, fun u hu => ?_,
    fun u hu hul => ?_⟩
  · obtain ⟨hle, heq⟩ := ht.live u hu
    change (h.update.setIfInBounds v _)[u]! ≤ 0 ∧ _ + (h.update.setIfInBounds v _)[u]! = _
    rw [hput, hs]
    by_cases huv : u = v
    · subst huv
      rw [if_pos rfl, if_pos rfl]
      exact ⟨hd hu, by simp only; omega⟩
    · rw [if_neg huv, if_neg huv]
      exact ⟨hle, heq⟩
  · obtain ⟨m, hm0, hm, heq⟩ := ht.gone u hu hul
    refine ⟨m, hm0, hm, ?_⟩
    change (h.update.setIfInBounds v _)[u]! = _
    rw [hput, hs]
    by_cases huv : u = v
    · subst huv
      rw [if_pos rfl, if_pos rfl]
      omega
    · rw [if_neg huv, if_neg huv]
      exact heq

theorem bump (ht : Tracks n cap h l score) (hv : v < n) (h0 : 0 ≤ score v) (hlt : score v < cap)
    (hcap : cap < halfMax) {score' : Nat → Int}
    (hs : ∀ u, score' u = if u = v then score v + 1 else score u) :
    ∃ h' l', bump v h = some h' ∧ l'.Perm l ∧ Tracks n cap h' l' score' ∧
      ∀ u, keyOf h'.LinkedList u ≤ max (keyOf h.LinkedList u) (score' u) := by
  have hvs : v < h.update.size := ht.updates.symm ▸ hv
  have hhalf : halfMax = 1073741823 := rfl
  simp only [Gorder.bump, readAt_nat hvs, some_bind]
  by_cases hup : h.update[v]! = 0
  · rw [if_pos hup]
    have hvl : v ∈ l := by
      by_contra hvl
      obtain ⟨m, hm0, hm, heq⟩ := ht.gone v hv hvl
      omega
    obtain ⟨_, hkey⟩ := ht.live v hvl
    obtain ⟨h', hrun, hh', hup', hsize, hheap, hheader, hroom, hkey'⟩ :=
      ht.holds.incrementKey hvl (ht.room v hvl)
    refine ⟨h', _, hrun, requeue_perm _ _ hvl, ⟨hh', hheap.trans ht.heapsize, fun u hu => ?_,
      fun u hu => ?_, fun u hu => ?_, fun u hu hul => ?_⟩, fun u => ?_⟩
    · have hul := (mem_requeue hvl).mp hu
      have := ht.room u hul
      rw [hkey']
      split_ifs
      · omega
      · omega
    · have hul := (mem_requeue hvl).mp hu
      have := ht.low u hul
      rw [hkey']
      split_ifs
      · omega
      · exact this
    · obtain ⟨hle, heq⟩ := ht.live u ((mem_requeue hvl).mp hu)
      rw [hup', hkey', hs]
      by_cases huv : u = v
      · rw [if_pos huv, if_pos huv, huv]
        omega
      · rw [if_neg huv, if_neg huv]
        exact ⟨hle, heq⟩
    · obtain ⟨m, hm0, hm, heq⟩ := ht.gone u hu fun hul' => hul ((mem_requeue hvl).mpr hul')
      have huv : u ≠ v := fun he => hul ((mem_requeue hvl).mpr (he ▸ hvl))
      refine ⟨m, hm0, hm, ?_⟩
      rw [hup', hs, if_neg huv]
      exact heq
    · rw [hkey', hs]
      split_ifs with huv
      · rw [huv]
        omega
      · exact le_max_left _ _
  · rw [if_neg hup]
    have hrange : -2147483648 ≤ h.update[v]! + 1 ∧ h.update[v]! + 1 ≤ 2147483647 := by
      by_cases hvl : v ∈ l
      · obtain ⟨hle, heq⟩ := ht.live v hvl
        have := ht.low v hvl
        omega
      · obtain ⟨m, hm0, hm, heq⟩ := ht.gone v hv hvl
        omega
    refine ⟨_, l, ?_, .refl l, ht.shift hv (fun hvl => ?_) hs, fun u => le_max_left _ _⟩
    · rw [int_eq hrange.1 hrange.2, some_bind, writeAt_nat hvs]
      rfl
    · have := (ht.live v hvl).1
      omega

theorem drop (ht : Tracks n cap h l score) (hv : v < n) (h0 : 0 < score v) (hle : score v ≤ cap)
    (hcap : cap < halfMax) {score' : Nat → Int}
    (hs : ∀ u, score' u = if u = v then score v - 1 else score u) :
    ∃ h', drop v h = some h' ∧ Tracks n cap h' l score' ∧ h'.LinkedList = h.LinkedList := by
  have hvs : v < h.update.size := ht.updates.symm ▸ hv
  have hhalf : halfMax = 1073741823 := rfl
  have hrange : -2147483648 ≤ h.update[v]! - 1 ∧ h.update[v]! - 1 ≤ 2147483647 := by
    by_cases hvl : v ∈ l
    · obtain ⟨hle, heq⟩ := ht.live v hvl
      have := ht.low v hvl
      omega
    · obtain ⟨m, hm0, hm, heq⟩ := ht.gone v hv hvl
      omega
  refine ⟨_, ?_, ht.shift hv (d := -1) (fun hvl => ?_) hs, rfl⟩
  · rw [Gorder.drop, readAt_nat hvs, some_bind, int_eq hrange.1 hrange.2, some_bind,
      writeAt_nat hvs]
    rfl
  · have := (ht.live v hvl).1
    omega

theorem bumpAll (es : List Nat) (ht : Tracks n cap h l score) (hes : ∀ v ∈ es, v < n)
    (h0 : ∀ v < n, 0 ≤ score v) (hle : ∀ v < n, score v + es.count v ≤ cap)
    (hcap : cap < halfMax) :
    ∃ h' l', es.foldlM (fun h v => Gorder.bump v h) h = some h' ∧ l'.Perm l ∧
      Tracks n cap h' l' fun v => score v + es.count v := by
  induction es generalizing h l score with
  | nil => exact ⟨h, l, rfl, .refl l, ht.congr fun v _ => by simp⟩
  | cons e es ih =>
    have he := hes e List.mem_cons_self
    have hle' := hle e he
    rw [List.count_cons_self] at hle'
    obtain ⟨h₁, l₁, hrun, hp, ht₁, _⟩ := ht.bump he (h0 e he) (by omega) hcap fun _ => rfl
    obtain ⟨h', l', hrest, hp', ht'⟩ := ih ht₁ (fun v hv => hes v (List.mem_cons_of_mem e hv))
      (fun v hv => by
        have := h0 v hv
        have := h0 e he
        split_ifs <;> omega)
      (fun v hv => by
        have := hle v hv
        by_cases hve : v = e
        · rw [if_pos hve, hve]
          omega
        · rw [if_neg hve]
          rwa [List.count_cons_of_ne (Ne.symm hve)] at this)
    refine ⟨h', l', ?_, hp'.trans hp, ht'.congr fun v _ => ?_⟩
    · rw [List.foldlM_cons, hrun]
      exact hrest
    · by_cases hve : v = e
      · rw [if_pos hve, hve, List.count_cons_self]
        omega
      · rw [if_neg hve, List.count_cons_of_ne (Ne.symm hve)]

theorem dropAll (es : List Nat) (ht : Tracks n cap h l score) (hes : ∀ v ∈ es, v < n)
    (h0 : ∀ v < n, (es.count v : Int) ≤ score v) (hle : ∀ v < n, score v ≤ cap)
    (hcap : cap < halfMax) :
    ∃ h', es.foldlM (fun h v => Gorder.drop v h) h = some h' ∧
      Tracks n cap h' l fun v => score v - es.count v := by
  induction es generalizing h score with
  | nil => exact ⟨h, rfl, ht.congr fun v _ => by simp⟩
  | cons e es ih =>
    have he := hes e List.mem_cons_self
    have h0' := h0 e he
    rw [List.count_cons_self] at h0'
    obtain ⟨h₁, hrun, ht₁, _⟩ := ht.drop he (by omega) (hle e he) hcap fun _ => rfl
    obtain ⟨h', hrest, ht'⟩ := ih ht₁ (fun v hv => hes v (List.mem_cons_of_mem e hv))
      (fun v hv => by
        have := h0 v hv
        by_cases hve : v = e
        · rw [if_pos hve, hve]
          omega
        · rw [if_neg hve]
          rwa [List.count_cons_of_ne (Ne.symm hve)] at this)
      (fun v hv => by
        have := hle v hv
        have := hle e he
        split_ifs <;> omega)
    refine ⟨h', ?_, ht'.congr fun v _ => ?_⟩
    · rw [List.foldlM_cons, hrun]
      exact hrest
    · by_cases hve : v = e
      · rw [if_pos hve, hve, List.count_cons_self]
        omega
      · rw [if_neg hve, List.count_cons_of_ne (Ne.symm hve)]

theorem place (ht : Tracks n cap h l score) {before : Option Int}
    (hbefore : ReadsBefore before l.length) (hne : l ≠ [])
    (h0 : ∀ v < n, 0 ≤ score v) (hle : ∀ v < n, score v ≤ cap) :
    ∃ (v : Nat) (h₁ h' : UnitHeap) (rest : List Nat),
      h.extractMax before = some ((v : Int), h₁) ∧ mark v h₁ = some h' ∧ (v :: rest).Perm l ∧
      Tracks n cap h' rest score ∧
      (∀ u ∈ rest, keyOf h'.LinkedList u ≤ keyOf h.LinkedList u) ∧
      ∃ k ≤ keyOf h.LinkedList v, score v ≤ k ∧
        ∀ u ∈ rest, score u ≤ score v + (k - score v) / 2 := by
  have hlt {u : Nat} (hu : u ∈ l) : u < n := ht.heapsize ▸ ht.holds.size ▸ ht.holds.inside u hu
  have hsound : Sound h l := fun u hu => by
    obtain ⟨hup, heq⟩ := ht.live u hu
    exact ⟨hup, by rw [worth, heq]; exact h0 u (hlt hu)⟩
  obtain ⟨v, h₁, rest, hrun, hex⟩ := ht.holds.extractMax hne hsound hbefore
  have hset := hex.settled
  have hvl : v ∈ l := hex.perm.mem_iff.mp List.mem_cons_self
  have hrest {u : Nat} (hu : u ∈ rest) : u ∈ l := hex.perm.mem_iff.mp (List.mem_cons_of_mem v hu)
  have hdv : v ∉ rest := (List.nodup_cons.mp (hex.perm.nodup_iff.mpr ht.holds.nodup)).1
  have hworth {u : Nat} (hu : u ∈ l) : keyOf h₁.LinkedList u + h₁.update[u]! = score u :=
    (hset.worth u hu).trans (ht.live u hu).2
  have hupd : h₁.update.size = n := (hex.holds.updates.trans hset.heapsize).trans ht.heapsize
  have hvs : v < h₁.update.size := hupd ▸ hlt hvl
  have hput (u : Nat) : (h₁.update.setIfInBounds v halfMax)[u]! =
    if u = v then halfMax else h₁.update[u]! := put_get hvs _ u
  refine ⟨v, h₁, _, rest, hrun, mark_eq hvs, hex.perm, ⟨hex.holds.withUpdate _ (by simp),
    hset.heapsize.trans ht.heapsize, fun u hu => ?_, fun u hu => ?_, fun u hu => ?_,
    fun u hu hul => ?_⟩, fun u hu => hset.key_le u (hrest hu), keyOf h₁.LinkedList v,
    hset.key_le v hvl, ?_, fun u hu => ?_⟩
  · have := hset.key_le u (hrest hu)
    have := ht.room u (hrest hu)
    change keyOf h₁.LinkedList u + 1 < (h₁.Header.size : Int)
    rw [hset.header]
    omega
  · exact (hset.key_le u (hrest hu)).trans (ht.low u (hrest hu))
  · have huv : u ≠ v := fun he => hdv (he ▸ hu)
    change (h₁.update.setIfInBounds v halfMax)[u]! ≤ 0 ∧
      keyOf h₁.LinkedList u + (h₁.update.setIfInBounds v halfMax)[u]! = score u
    rw [hput, if_neg huv]
    exact ⟨hset.update_le u (hrest hu), hworth (hrest hu)⟩
  · change ∃ m, 0 ≤ m ∧ m ≤ cap ∧ (h₁.update.setIfInBounds v halfMax)[u]! = _
    rw [hput]
    by_cases huv : u = v
    · rw [if_pos huv, huv]
      exact ⟨score v, h0 v (hlt hvl), hle v (hlt hvl), by omega⟩
    · rw [if_neg huv]
      have hul' : u ∉ l := fun hul' => by
        cases List.mem_cons.mp (hex.perm.mem_iff.mpr hul') with
        | inl he => exact huv he
        | inr hu' => exact hul hu'
      rw [hset.others u hul']
      exact ht.gone u hu hul'
  · have := hworth hvl
    have := hset.update_le v hvl
    omega
  · have hv := hworth hvl
    have hu' := hworth (hrest hu)
    have := hset.update_le v hvl
    have := hset.update_le u (hrest hu)
    have hg := hex.greatest u hu
    rw [halved] at hg
    have htdiv : (h₁.update[v]!).tdiv 2 = -(-h₁.update[v]! / 2) := by
      rw [← Int.neg_neg (h₁.update[v]!), Int.neg_tdiv, Int.neg_neg,
        Int.tdiv_eq_ediv_of_nonneg (by omega)]
    omega

end Tracks

end GraphReorder.Gorder
