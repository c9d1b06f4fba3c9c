import GraphReorder.ReadCsr

/-! The side table of the weights: a key determines its endpoints, and the last record between
two endpoints decides their weight. -/
namespace GraphReorder
open Library

theorem gt_notMem_toDigits (n : Nat) : '>' ∉ Nat.toDigits 10 n := by
  intro h
  have hd := Nat.isDigit_of_mem_toDigits (by decide) (by decide) h
  exact absurd hd (by decide)

theorem toDigits_injective : Function.Injective (Nat.toDigits 10) := by
  intro a b h
  have hv := congrArg (fun l => Nat.ofDigitChars 10 l 0) h
  simpa using hv

theorem getMapKey_injective {a b c d : Nat} (h : getMapKey a b = getMapKey c d) :
    a = c ∧ b = d := by
  obtain ⟨hs, _, hd⟩ := (List.append_cons_inj_of_notMem (gt_notMem_toDigits a)
    (gt_notMem_toDigits b)).mp h
  exact ⟨toDigits_injective hs, toDigits_injective hd⟩

theorem find?_weightTable {L : List Record} (table : Table Key Nat) {r : Record} (hr : r ∈ L) :
    ∃ r' ∈ L, r'.src = r.src ∧ r'.dst = r.dst ∧
      (weightTable true L table).find? (getMapKey r.src r.dst) = some (toWord r'.weight) := by
  induction L using List.reverseRecOn with
  | nil => cases hr
  | append_singleton L e ih =>
    rw [weightTable_concat, if_pos rfl, Table.find?_assign]
    by_cases hk : getMapKey r.src r.dst = getMapKey e.src e.dst
    · obtain ⟨hs, hd⟩ := getMapKey_injective hk
      exact ⟨e, by simp, hs.symm, hd.symm, if_pos hk⟩
    · rw [if_neg hk]
      cases List.mem_append.mp hr with
      | inl hr =>
        obtain ⟨r', hr', hs, hd, hw⟩ := ih hr
        exact ⟨r', by simp [hr'], hs, hd, hw⟩
      | inr hr =>
        obtain rfl := List.mem_singleton.mp hr
        exact absurd rfl hk

def lastWeight (L : List Record) (a b : Nat) : Nat :=
  match L.reverse.find? fun r => r.src = a ∧ r.dst = b with
  | some r => toWord r.weight
  | none => 0

theorem lastWeight_concat (L : List Record) (r : Record) (a b : Nat) :
    lastWeight (L ++ [r]) a b =
      if r.src = a ∧ r.dst = b then toWord r.weight else lastWeight L a b := by
  unfold lastWeight
  rw [List.reverse_concat]
  by_cases h : r.src = a ∧ r.dst = b
  · rw [List.find?_cons_of_pos (by simpa using h), if_pos h]
  · rw [List.find?_cons_of_neg (by simpa using h), if_neg h]

theorem weightTable_lastWeight (L : List Record) (a b : Nat) :
    ((weightTable true L Table.empty).find? (getMapKey a b)).getD default = lastWeight L a b := by
  induction L using List.reverseRecOn with
  | nil => rfl
  | append_singleton L e ih =>
    rw [weightTable_concat, if_pos rfl, Table.find?_assign, lastWeight_concat]
    by_cases hk : e.src = a ∧ e.dst = b
    · rw [if_pos hk, if_pos (by rw [hk.1, hk.2]), Option.getD_some]
    · have hne : getMapKey a b ≠ getMapKey e.src e.dst := fun he =>
        hk ⟨(getMapKey_injective he).1.symm, (getMapKey_injective he).2.symm⟩
      rw [if_neg hk, if_neg hne, ih]

/-- What `write_edge_list` can have written, and made of the table, after some of its lines. -/
inductive Writing (flags : Flags) (mapToNode : Array Nat) (weights : Table Key Nat) :
    List Line × Table Key Nat → Prop where
  | start : Writing flags mapToNode weights ([], weights)
  | edge {i e : Nat} {out out' : List Line × Table Key Nat}
      (before : Writing flags mapToNode weights out)
      (step : writeEdge flags mapToNode i e out = some out') :
      Writing flags mapToNode weights out'

theorem writeEdge_table {flags : Flags} {mapToNode : Array Nat} {i e : Nat}
    {out out' : List Line × Table Key Nat} (h : writeEdge flags mapToNode i e out = some out') :
    ∃ k, out'.2 = (out.2.access k).2 := by
  obtain ⟨s, _, h⟩ := Option.bind_eq_some_iff.mp h
  obtain ⟨d, _, h⟩ := Option.bind_eq_some_iff.mp h
  cases h
  exact ⟨getMapKey s d, rfl⟩

theorem Writing.reads {flags : Flags} {mapToNode : Array Nat} {weights : Table Key Nat}
    {out : List Line × Table Key Nat} (h : Writing flags mapToNode weights out) (k : Key) :
    (out.2.access k).1 = (weights.find? k).getD default := by
  rw [Table.access_fst]
  induction h with
  | start => rfl
  | edge before step ih =>
    obtain ⟨k', htable⟩ := writeEdge_table step
    rw [htable, Table.find?_access, ih]

theorem writeEdgeList_writing {flags : Flags} {G : Graph} {nodeMap : Array Nat} {lines : List Line}
    (h : writeEdgeList flags G nodeMap = some lines) :
    ∃ mapToNode out, Writing flags mapToNode G.weights out ∧ out.1 = lines := by
  obtain ⟨mapToNode, _, h⟩ := Option.bind_eq_some_iff.mp h
  obtain ⟨out, hrows, h⟩ := Option.bind_eq_some_iff.mp h
  obtain ⟨first, _, h⟩ := Option.bind_eq_some_iff.mp h
  obtain ⟨out', hlast, h⟩ := Option.bind_eq_some_iff.mp h
  cases h
  have hedge (i j : Nat) (out out' : List Line × Table Key Nat)
      (ho : Writing flags mapToNode G.weights out)
      (hw : (do writeEdge flags mapToNode i (← G.EI[j]?) out) = some out') :
      Writing flags mapToNode G.weights out' := by
    obtain ⟨e, _, hw⟩ := Option.bind_eq_some_iff.mp hw
    exact ho.edge hw
  have hout : Writing flags mapToNode G.weights out := by
    apply forRange_keeps (Writing flags mapToNode G.weights) hrows .start
    intro i c c' hc hrow
    obtain ⟨start, _, hrow⟩ := Option.bind_eq_some_iff.mp hrow
    obtain ⟨stop, _, hrow⟩ := Option.bind_eq_some_iff.mp hrow
    exact forRange_keeps _ hrow hc (hedge i)
  exact ⟨mapToNode, out', forRange_keeps _ hlast hout (hedge (usub G.numVertex 1)), rfl⟩

/-- The table that `filter` makes is one of pairs of compacted ids: no two pairs share an entry,
and looking up a pair, at any time of the writing, gives the weight of the last record. -/
theorem filter_weights {L : List Record} {numVertex : Nat}
    (hN : ∀ r ∈ L, r.src < numVertex ∧ r.dst < numVertex) :
    ∃ G, filter true (edgesOf true L) { Graph.unread with numEdges := L.length } numVertex L.length =
        some (edgesOf true (compact L), G) ∧
      (∀ a b c d, getMapKey a b = getMapKey c d → a = c ∧ b = d) ∧
      ∀ flags mapToNode out, Writing flags mapToNode G.weights out →
        ∀ a b, (out.2.access (getMapKey a b)).1 = lastWeight (compact L) a b := by
  obtain ⟨G, hfilter, hG, _⟩ := filter_spec true hN { Graph.unread with numEdges := L.length }
  refine ⟨G, hfilter, fun a b c d => getMapKey_injective, fun flags mapToNode out hout a b => ?_⟩
  have htable : G.weights = weightTable true (compact L) Table.empty := by
    rw [hG]
    rfl
  rw [hout.reads, htable, weightTable_lastWeight]

theorem filter_weights_parallel :
    ∃ G, filter true (edgesOf true [⟨7, 3, 4⟩, ⟨7, 3, 9⟩])
        { Graph.unread with numEdges := 2 } 8 2 =
        some (edgesOf true (compact [⟨7, 3, 4⟩, ⟨7, 3, 9⟩]), G) ∧
      (∀ a b c d, getMapKey a b = getMapKey c d → a = c ∧ b = d) ∧
      ∀ flags mapToNode out, Writing flags mapToNode G.weights out →
        ∀ a b, (out.2.access (getMapKey a b)).1 =
          lastWeight (compact [⟨7, 3, 4⟩, ⟨7, 3, 9⟩]) a b :=
  filter_weights (L := [⟨7, 3, 4⟩, ⟨7, 3, 9⟩]) (by decide)

section Rank
variable {L : List Record}

theorem rank_injective {v w : Nat} (hv : v ∈ ids L) (hw : w ∈ ids L) (h : rank L v = rank L w) :
    v = w :=
  Nat.count_injective hv hw h

theorem rank_bijOn (L : List Record) :
    Set.BijOn (rank L) (ids L) (Set.Iio (ids L).card) := by
  have hmaps : Set.MapsTo (rank L) (ids L) (Set.Iio (ids L).card) := fun v hv => rank_lt hv
  have hinj : Set.InjOn (rank L) (ids L) := fun v hv w hw h => rank_injective hv hw h
  refine ⟨hmaps, hinj, ?_⟩
  have hmaps' : ∀ v ∈ ids L, rank L v ∈ Finset.range (ids L).card := fun v hv =>
    Finset.mem_range.mpr (rank_lt hv)
  intro k hk
  obtain ⟨v, hv, he⟩ := Finset.surj_on_of_inj_on_of_card_le (fun v _ => rank L v) hmaps'
    (fun v w hv hw h => rank_injective hv hw h) (Finset.card_range _).le k (Finset.mem_range.mpr hk)
  exact ⟨v, hv, he.symm⟩

theorem rank_least {v : Nat} (h : ∀ w ∈ ids L, v ≤ w) : rank L v = 0 := by
  rw [rank, Nat.count_eq_card_filter_range, Finset.card_eq_zero, Finset.filter_eq_empty_iff]
  intro w hw hmem
  have hle := h w hmem
  have hlt := Finset.mem_range.mp hw
  omega

end Rank

end GraphReorder
