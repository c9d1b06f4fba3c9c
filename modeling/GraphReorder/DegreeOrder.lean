import GraphReorder.Degree

/-! The order of the new ids that `degree.py` gives: by the length of the lists, for the vertices
that have one. -/
namespace GraphReorder.Degree
open Library

section Order
variable {args : Args} {el : List Record}

def InOrder (ascending : Bool) (du dv : Nat) : Prop := if ascending then du ≤ dv else dv ≤ du

theorem sorted_inOrder {α : Type} (key : α → Nat) (ascending : Bool) (items : List α) :
    (sorted key (!ascending) items).Pairwise fun a b => InOrder ascending (key a) (key b) := by
  have h := sorted_pairwise key (!ascending) items
  cases ascending with
  | false => exact h
  | true => exact h

def Ranked (args : Args) (el : List Record) (v : Nat) : Prop :=
  v ∈ ids el ∧ (args.maintain = true → v ≠ 0)

/-- Every vertex has a number, and the numbers follow the degrees. -/
def OrdersByDegree (args : Args) (el : List Record) (mapping : Dict Nat Int) : Prop :=
  ∃ number : Nat → Int, (∀ v ∈ ids el, mapping.get? v = some (number v)) ∧
    ∀ u v, Ranked args el u → Ranked args el v → number u < number v →
      InOrder args.ascending (degree args.indegree el u) (degree args.indegree el v)

theorem ordered_pairwise (args : Args) (el : List Record) :
    ((ordered args el).map Prod.fst).Pairwise fun u v =>
      InOrder args.ascending (degree args.indegree el u) (degree args.indegree el v) := by
  have hlength (item : Nat × List Nat) (hitem : item ∈ ordered args el) :
      item.2.length = degree args.indegree el item.1 := by
    have hmem := (sorted_perm _ _ _).mem_iff.mp hitem
    rw [← length_edgesByNode, Dict.get?_of_mem hmem]
    rfl
  rw [List.pairwise_map]
  refine (sorted_inOrder _ _ _).imp_of_mem fun {a b} ha hb hab => ?_
  rwa [← hlength a ha, ← hlength b hb]

/-- Two phases with one counter: `front` was sorted, `back` are the vertices without a list. -/
structure Phases (args : Args) (el : List Record) (front back : List Nat) (s : Naming) : Prop where
  counted : ∀ v ∈ front ++ back, s.mapping.get? v =
    some (newId (if args.maintain then 1 else 0) (front ++ back) v : Int)
  named : ∀ v ∈ ids el, ∃ i, s.mapping.get? v = some i
  sorted : front.Pairwise fun u v =>
    InOrder args.ascending (degree args.indegree el u) (degree args.indegree el v)
  front_pos : ∀ v ∈ front, 0 < degree args.indegree el v
  back_zero : ∀ v ∈ back, degree args.indegree el v = 0
  ranked : ∀ v, Ranked args el v → v ∈ front ++ back

theorem numbering_phases (args : Args) (el : List Record) :
    ∃ back, Phases args el (countedOf args.maintain ((ordered args el).map Prod.fst)) back
      (numbering args el).1 := by
  obtain ⟨back, s, hrun, hs, hknown⟩ := numbering_spec args el
  have hlisted (v : Nat) : v ∈ (ordered args el).map Prod.fst ↔ 0 < degree args.indegree el v :=
    (mem_ordered v).trans degree_pos.symm
  rw [hrun]
  refine ⟨back, ?_, ?_, ?_, ?_, ?_, ?_⟩
  · intro v hv
    exact (hs.look v).trans (if_pos (.inl hv))
  · intro v hv
    exact ⟨_, (hs.look v).trans (if_pos ((hknown v).mpr hv))⟩
  · exact (ordered_pairwise args el).filter _
  · intro v hv
    exact (hlisted v).mp (List.mem_of_mem_filter hv)
  · intro v hv
    -- whoever has a list was numbered, or kept, by the first loop
    apply Nat.eq_zero_of_not_pos
    intro hpos
    cases (known_countedOf args.maintain (mem_ordered 0).symm v).mpr ((hlisted v).mpr hpos) with
    | inl hfront => exact List.disjoint_of_nodup_append hs.nodup hfront hv
    | inr hzero =>
      apply hs.zero hzero.1
      rw [← hzero.2]
      exact List.mem_append_right _ hv
  · intro v hv
    cases (hknown v).mpr hv.1 with
    | inl hmem => exact hmem
    | inr hzero => exact absurd hzero.2 (hv.2 (Bool.and_eq_true_iff.mp hzero.1).1)

section Phases
variable {front back : List Nat} {s : Naming}

theorem Phases.not_front (h : Phases args el front back s) {v : Nat} (hv : v ∈ back) :
    v ∉ front := fun hfront => (h.front_pos v hfront).ne' (h.back_zero v hv)

/-- The numbers follow the degrees, unless the order is ascending and some vertices have a list
while others have none. -/
theorem Phases.inOrder (h : Phases args el front back s)
    (hcond : args.ascending = true → ∀ u v, Ranked args el u → Ranked args el v →
      0 < degree args.indegree el u → 0 < degree args.indegree el v)
    {u v : Nat} (hu : Ranked args el u) (hv : Ranked args el v)
    (hlt : (front ++ back).idxOf u < (front ++ back).idxOf v) :
    InOrder args.ascending (degree args.indegree el u) (degree args.indegree el v) := by
  cases List.mem_append.mp (h.ranked v hv) with
  | inl hvf =>
    cases List.mem_append.mp (h.ranked u hu) with
    | inl huf =>
      rw [List.idxOf_append_of_mem huf, List.idxOf_append_of_mem hvf] at hlt
      exact rel_of_idxOf_lt h.sorted huf hvf hlt
    | inr hub =>
      have hle := length_le_idxOf_back back (h.not_front hub)
      exact absurd (hlt.trans (idxOf_front hvf)) (Nat.not_lt.mpr hle)
  | inr hvb =>
    have hzero := h.back_zero v hvb
    rw [InOrder, hzero]
    cases hdir : args.ascending with
    | false => exact Nat.zero_le _
    | true =>
      have hno : ¬ 0 < degree args.indegree el u := fun hpos =>
        (hcond hdir u v hu hv hpos).ne' hzero
      exact Nat.not_lt.mp hno

theorem Phases.number_lt_iff (h : Phases args el front back s) {number : Nat → Int}
    (hall : ∀ v ∈ ids el, s.mapping.get? v = some (number v)) {u v : Nat}
    (hu : Ranked args el u) (hv : Ranked args el v) :
    number u < number v ↔ (front ++ back).idxOf u < (front ++ back).idxOf v := by
  have hmu := h.ranked u hu
  have hmv := h.ranked v hv
  rw [← newId_lt_iff hmu hmv, ← Option.some.inj ((h.counted u hmu).symm.trans (hall u hu.1)),
    ← Option.some.inj ((h.counted v hmv).symm.trans (hall v hv.1)), Int.ofNat_lt]

theorem Phases.front_first (h : Phases args el front back s) {u v : Nat} (hu : Ranked args el u)
    (hpos : 0 < degree args.indegree el u) (hzero : degree args.indegree el v = 0) :
    (front ++ back).idxOf u < (front ++ back).idxOf v := by
  have hvf : v ∉ front := fun hvf => (h.front_pos v hvf).ne' hzero
  cases List.mem_append.mp (h.ranked u hu) with
  | inl huf => exact (idxOf_front huf).trans_le (length_le_idxOf_back back hvf)
  | inr hub => exact absurd (h.back_zero u hub) hpos.ne'

end Phases

/-- `degree.py` orders by degree in the default direction always, and with `-a` when the vertices
either all have a degree or all have none. -/
theorem ordersByDegree_iff (args : Args) (el : List Record) :
    OrdersByDegree args el (numbering args el).1.mapping ↔
      (args.ascending = true → ∀ u v, Ranked args el u → Ranked args el v →
        0 < degree args.indegree el u → 0 < degree args.indegree el v) := by
  obtain ⟨back, h⟩ := numbering_phases args el
  constructor
  · intro horders hdir u v hu hv hpos
    obtain ⟨number, hall, horder⟩ := horders
    apply Nat.pos_of_ne_zero
    intro hzero
    have hfirst := h.front_first hu hpos hzero
    have hle := horder u v hu hv ((h.number_lt_iff hall hu hv).mpr hfirst)
    rw [InOrder, if_pos hdir, hzero] at hle
    exact absurd hpos (Nat.not_lt.mpr hle)
  · intro hcond
    have hget (v : Nat) (hv : v ∈ ids el) : (numbering args el).1.mapping.get? v =
        some (((numbering args el).1.mapping.get? v).getD 0) := by
      obtain ⟨i, hi⟩ := h.named v hv
      rw [hi]
      rfl
    refine ⟨_, hget, fun u v hu hv hlt => ?_⟩
    exact h.inOrder hcond hu hv ((h.number_lt_iff hget hu hv).mp hlt)

/-- With `-a`, the vertex 0 of the single edge `0 1` comes first, and has the larger degree. -/
theorem ascending_leftover_last : ¬ OrdersByDegree ⟨⟨false, false, false⟩, true⟩ [⟨0, 1, 0⟩]
    (numbering ⟨⟨false, false, false⟩, true⟩ [⟨0, 1, 0⟩]).1.mapping := by
  intro h
  obtain ⟨number, hall, horder⟩ := h
  have h0 : (0 : Int) = number 0 := Option.some.inj (hall 0 (by decide))
  have h1 : (1 : Int) = number 1 := Option.some.inj (hall 1 (by decide))
  have hlt : number 0 < number 1 := by
    rw [← h0, ← h1]
    exact Int.one_pos
  have hle := horder 0 1 ⟨by decide, fun hm => absurd hm Bool.false_ne_true⟩
    ⟨by decide, fun hm => absurd hm Bool.false_ne_true⟩ hlt
  exact absurd hle (Nat.not_succ_le_zero 0)

end Order

end GraphReorder.Degree
