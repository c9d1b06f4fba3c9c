import Mathlib.Order.Interval.Finset.Nat
import GraphReorder.Library.Dict
import GraphReorder.Br
import GraphReorder.Weights

/-! `br.py`, without `-m`: what it writes with `-w`, next to what the program it calls writes. -/
namespace GraphReorder.BrPy
open Library

def newOrder (newNodeMap : Array Nat) : List Int := newNodeMap.toList.map ofWord

/-- `mapping[node] = nodeMap; node += 1`, for every line. -/
def readOrder (order : List Int) : Dict Nat Int :=
  (order.foldl (fun (st : Dict Nat Int × Nat) nodeMap => (st.1.set st.2 nodeMap, st.2 + 1))
    (Dict.empty, 0)).1

/-- Write `mapping[s]` and `mapping[d]` for every record; a missing key ends the program. -/
def relabel (mapping : Dict Nat Int) (weighted : Bool) (el : List Record) : Option (List Line) :=
  el.mapM fun r => do
    some ⟨← mapping.get? r.src, ← mapping.get? r.dst,
      if weighted then some r.weight else none⟩

/-- `-w`: the order comes from a run on the edges alone. -/
def weightedMode (el : List Record) : Option (List Line) := do
  let (newNodeMap, _) ← Br.main 64 532480 (recordFile false el)
  relabel (readOrder (newOrder newNodeMap)) true el

def unweightedMode (el : List Record) : Option (List Line) := do
  let (_, lines) ← Br.main 64 532480 (recordFile false el)
  some lines

def eraseWeight (l : Line) : Line := { l with w := none }

def Agrees (el : List Record) (lines : List Line) : Prop :=
  ∃ out, weightedMode el = some out ∧ (out.map eraseWeight).Perm lines

section Relabel
variable {mapping : Dict Nat Int} {el : List Record}

theorem relabel_of_keys {f : Nat → Int} (weighted : Bool)
    (h : ∀ v ∈ ids el, mapping.get? v = some (f v)) :
    relabel mapping weighted el = some (el.map fun r =>
      ⟨f r.src, f r.dst, if weighted then some r.weight else none⟩) := by
  refine mapM_of_forall fun r hr => ?_
  rw [h r.src (src_mem_ids hr), h r.dst (dst_mem_ids hr)]
  rfl

theorem keys_of_relabel {weighted : Bool} {out : List Line}
    (h : relabel mapping weighted el = some out) :
    out.length = el.length ∧ ∀ v ∈ ids el, ∃ x, mapping.get? v = some x := by
  obtain ⟨hlen, hread⟩ := forall_of_mapM h
  refine ⟨hlen, fun v hv => ?_⟩
  obtain ⟨r, hr, hrv⟩ := mem_ids.mp hv
  obtain ⟨line, hline⟩ := hread r hr
  obtain ⟨x, hx, hrest⟩ := Option.bind_eq_some_iff.mp hline
  obtain ⟨y, hy, _⟩ := Option.bind_eq_some_iff.mp hrest
  cases hrv with
  | inl hsrc => exact ⟨x, by rw [← hsrc]; exact hx⟩
  | inr hdst => exact ⟨y, by rw [← hdst]; exact hy⟩

end Relabel

theorem readOrder_get (order : List Int) (i : Nat) : (readOrder order).get? i = order[i]? := by
  have hstate : (order.foldl (fun (st : Dict Nat Int × Nat) nodeMap =>
      (st.1.set st.2 nodeMap, st.2 + 1)) (Dict.empty, 0)).2 = order.length := by
    induction order using List.reverseRecOn with
    | nil => rfl
    | append_singleton l x ih => simp [List.foldl_append, ih]
  induction order using List.reverseRecOn with
  | nil => rfl
  | append_singleton l x ih =>
    have hstate' : (l.foldl (fun (st : Dict Nat Int × Nat) nodeMap =>
        (st.1.set st.2 nodeMap, st.2 + 1)) (Dict.empty, 0)).2 = l.length := by
      simpa [List.foldl_append] using hstate
    have hread : (readOrder (l ++ [x])).get? i =
        if i = l.length then some x else (readOrder l).get? i := by
      rw [readOrder, List.foldl_append, ← hstate']
      exact Dict.get?_set ..
    rw [hread]
    by_cases hi : i = l.length
    · simp [hi]
    · rw [if_neg hi, ih hstate']
      by_cases hlt : i < l.length
      · rw [List.getElem?_append_left hlt]
      · rw [List.getElem?_eq_none (by omega), List.getElem?_eq_none (by simp; omega)]

theorem newOrder_read {newNodeMap : Array Nat} {n i : Nat} (hs : newNodeMap.size = n) :
    (readOrder (newOrder newNodeMap)).get? i =
      if i < n then some (ofWord newNodeMap[i]!) else none := by
  rw [readOrder_get, newOrder]
  by_cases hi : i < n
  · simp [hs, hi]
  · simp [hs, hi]

/-- When the ids that occur are the first `n` numbers, renumbering changes nothing. -/
theorem rank_eq {el : List Record} {n v : Nat} (h : ids el = Finset.range n) (hv : v ≤ n) :
    rank el v = v := by
  rw [rank, Nat.count_eq_card_filter_range, Finset.filter_true_of_mem, Finset.card_range]
  intro w hw
  rw [h, Finset.mem_range]
  exact (Finset.mem_range.mp hw).trans_le hv

section Agreement
variable {el : List Record} {lines : List Line}

theorem proper_eq (h : ∀ r ∈ el, r.src ≠ r.dst) : proper el = el :=
  List.filter_eq_self.mpr fun r hr => bne_iff_ne.mpr (h r hr)

def path (k : Nat) : List Record := (List.range 65).map fun i => ⟨i + k, i + 1 + k, 1⟩

theorem mem_path {k : Nat} {r : Record} : r ∈ path k ↔ ∃ i < 65, r = ⟨i + k, i + 1 + k, 1⟩ := by
  simp only [path, List.mem_map, List.mem_range]
  constructor
  · intro h
    obtain ⟨i, hi, he⟩ := h
    exact ⟨i, hi, he.symm⟩
  · intro h
    obtain ⟨i, hi, he⟩ := h
    exact ⟨i, hi, he.symm⟩

theorem path_proper (k : Nat) : ∀ r ∈ path k, r.src ≠ r.dst := by
  intro r hr
  obtain ⟨i, _, rfl⟩ := mem_path.mp hr
  change i + k ≠ i + 1 + k
  omega

theorem ids_path (k : Nat) : ids (path k) = Finset.Ico k (k + 66) := by
  ext v
  rw [mem_ids, Finset.mem_Ico]
  constructor
  · intro h
    obtain ⟨r, hr, hv⟩ := h
    obtain ⟨i, hi, rfl⟩ := mem_path.mp hr
    change i + k = v ∨ i + 1 + k = v at hv
    omega
  · intro h
    by_cases hlast : v = k + 65
    · exact ⟨⟨64 + k, 64 + 1 + k, 1⟩, mem_path.mpr ⟨64, by omega, rfl⟩, .inr (by simp; omega)⟩
    · exact ⟨⟨v - k + k, v - k + 1 + k, 1⟩, mem_path.mpr ⟨v - k, by omega, rfl⟩, .inl (by simp; omega)⟩

theorem path_small {k N : Nat} (hk : k < 2 ^ 30) (hN : 2 ^ 30 + 65 ≤ N) :
    ∀ r ∈ path k, r.src < N ∧ r.dst < N := by
  intro r hr
  obtain ⟨i, hi, rfl⟩ := mem_path.mp hr
  change i + k < N ∧ i + 1 + k < N
  omega

theorem path_completes {k : Nat} (hk : k < 2 ^ 30) :
    ∃ lines, unweightedMode (path k) = some lines := by
  have hproper := proper_eq (path_proper k)
  have hcard : (ids (proper (path k))).card = 66 := by
    rw [hproper, ids_path, Nat.card_Ico]
    omega
  obtain ⟨newNodeMap, lines, hrun⟩ := Br.main_total (c := 64) (path_small hk (by decide))
    (by simp [path]) (by decide) (by omega) (by omega)
    ⟨⟨0 + k, 0 + 1 + k, 1⟩, by rw [hproper]; exact mem_path.mpr ⟨0, by omega, rfl⟩, by
      rw [hproper, rank_least fun w hw => ?_]
      · decide
      · rw [ids_path, Finset.mem_Ico] at hw
        simpa using hw.1⟩ 532480
  exact ⟨lines, by rw [unweightedMode, hrun]; rfl⟩

theorem main_of_unweightedMode (h : unweightedMode el = some lines) :
    ∃ newNodeMap, Br.main 64 532480 (recordFile false el) = some (newNodeMap, lines) := by
  obtain ⟨⟨newNodeMap, lines'⟩, hmain, hlines⟩ := Option.bind_eq_some_iff.mp h
  cases hlines
  exact ⟨newNodeMap, hmain⟩

/-- Shifted by one, the last vertex of the path has no line in `new_order.el`. -/
theorem shifted_path_disagrees : ∃ lines, unweightedMode (path 1) = some lines ∧
    ¬ Agrees (path 1) lines := by
  have hsmall : 1 < 2 ^ 30 := by decide
  obtain ⟨lines, hrun⟩ := path_completes hsmall
  refine ⟨lines, hrun, fun hagrees => ?_⟩
  obtain ⟨newNodeMap, hmain⟩ := main_of_unweightedMode hrun
  obtain ⟨newNodeId, ho, _⟩ := Br.main_some (path_small (by decide) (by decide)) (by simp [path]) (by decide)
    (by decide) hmain
  rw [proper_eq (path_proper 1), ids_path, Nat.card_Ico] at ho
  obtain ⟨out, hout, _⟩ := hagrees
  rw [weightedMode, hmain, some_bind] at hout
  obtain ⟨_, hkeys⟩ := keys_of_relabel hout
  obtain ⟨x, hx⟩ := hkeys 66 (by rw [ids_path]; decide)
  rw [newOrder_read ho.sizeMap] at hx
  cases hx

/-- The two modes of `br.py` agree exactly when there is no edge from a vertex to itself and the
ids that occur are the first natural numbers. -/
theorem modes_agree_iff (hel : ∀ r ∈ el, r.src < 2 ^ 31 ∧ r.dst < 2 ^ 31)
    (hm : el.length < 2 ^ 32) (hrun : unweightedMode el = some lines) :
    Agrees el lines ↔
      (∀ r ∈ el, r.src ≠ r.dst) ∧ ids el = Finset.range (ids el).card := by
  obtain ⟨newNodeMap, hmain⟩ := main_of_unweightedMode hrun
  obtain ⟨newNodeId, ho, hperm⟩ := Br.main_some hel hm (by decide) (by decide) hmain
  have hweighted : weightedMode el = relabel (readOrder (newOrder newNodeMap)) true el := by
    rw [weightedMode, hmain]
    rfl
  have hfind (i : Nat) := newOrder_read (i := i) ho.sizeMap
  rw [Agrees, hweighted]
  constructor
  · intro h
    obtain ⟨out, hout, hsame⟩ := h
    obtain ⟨hlen, hkeys⟩ := keys_of_relabel hout
    have hcount := (hsame.trans hperm).length_eq
    rw [List.length_map, hlen, List.length_map, compact, List.length_map] at hcount
    have hall : proper el = el := List.filter_sublist.eq_of_length hcount.symm
    have hsub : ids el ⊆ Finset.range (ids el).card := by
      intro v hv
      obtain ⟨x, hx⟩ := hkeys v hv
      rw [hfind, hall] at hx
      by_contra hge
      rw [if_neg fun hlt => hge (Finset.mem_range.mpr hlt)] at hx
      cases hx
    refine ⟨fun r hr => ?_, Finset.eq_of_subset_of_card_le hsub (Finset.card_range _).le⟩
    rw [← hall] at hr
    exact bne_iff_ne.mp (List.mem_filter.mp hr).2
  · intro h
    obtain ⟨hloops, hids⟩ := h
    rw [proper_eq hloops] at hperm hfind
    have hlt (v : Nat) (hv : v ∈ ids el) : v < (ids el).card := by
      rw [hids] at hv
      exact Finset.mem_range.mp hv
    refine ⟨_, relabel_of_keys (f := fun v => ofWord newNodeMap[v]!) true fun v hv => by
      rw [hfind, if_pos (hlt v hv)], ?_⟩
    rw [List.map_map]
    rw [compact, List.map_map] at hperm
    refine List.Perm.trans (List.Perm.of_eq (List.map_congr_left fun r hr => ?_)) hperm.symm
    have hs := hlt r.src (src_mem_ids hr)
    have hd := hlt r.dst (dst_mem_ids hr)
    simp only [Function.comp_apply, Record.rename, rank_eq hids hs.le, rank_eq hids hd.le, eraseWeight]

theorem modes_agree_path : ∃ lines, unweightedMode (path 0) = some lines ∧
    Agrees (path 0) lines := by
  have hsmall : 0 < 2 ^ 30 := by decide
  obtain ⟨lines, hrun⟩ := path_completes hsmall
  refine ⟨lines, hrun, (modes_agree_iff (path_small (by decide) (by decide)) (by simp [path]) hrun).mpr
    ⟨path_proper 0, ?_⟩⟩
  rw [ids_path, Nat.card_Ico, Finset.range_eq_Ico]

end Agreement

end GraphReorder.BrPy
