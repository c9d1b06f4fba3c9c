import GraphReorder.DegreeOrder
import GraphReorder.Hub

/-! The order of the new ids that `hub.py` gives: the hubs first, with `-s` in the order of their
degrees. -/
namespace GraphReorder.Hub
open Library

section Order
variable {args : Args} {order : SetOrder} {el : List Record}

theorem mem_hubs (hne : el ≠ []) {v : Nat} :
    v ∈ hubs args el ↔ el.length ≤ degree args.indegree el v * (ids el).card := by
  have hlen : 0 < el.length := List.length_pos_of_ne_nil hne
  rw [hubs, vertices_eq, mem_hubNodes, LongEnough, ← length_edgesByNode]
  constructor
  · intro h
    obtain ⟨_, edges, hget, _, hle⟩ := h
    rw [hget]
    exact hle
  · intro hle
    have hpos : 0 < degree args.indegree el v := by
      rw [← length_edgesByNode]
      apply Nat.pos_of_ne_zero
      intro hzero
      rw [hzero, Nat.zero_mul] at hle
      omega
    obtain ⟨r, hr, hkey⟩ := degree_pos.mp hpos
    obtain ⟨edges, hedges⟩ := Dict.mem_keys.mp (mem_keys_edgesByNode.mpr ⟨r, hr, hkey⟩)
    rw [← length_edgesByNode, hedges] at hpos
    rw [hedges] at hle
    exact ⟨by rw [← hkey]; exact key_mem_ids hr, edges, hedges, List.ne_nil_of_length_pos hpos, hle⟩

def Free (args : Args) (v : Nat) : Prop := args.maintain = true → v ≠ 0

theorem mem_countedOf {maintain : Bool} {l : List Nat} {v : Nat} :
    v ∈ countedOf maintain l ↔ v ∈ l ∧ (maintain = true → v ≠ 0) := by
  rw [countedOf, List.mem_filter]
  cases maintain <;> simp

theorem countedOf_append (maintain : Bool) (l l' : List Nat) :
    countedOf maintain (l ++ l') = countedOf maintain l ++ countedOf maintain l' :=
  List.filter_append l l'

structure Separates (args : Args) (el : List Record) (hub_nodes : Finset Nat)
    (number : Nat → Nat) : Prop where
  members : ∀ v, v ∈ hub_nodes ↔ el.length ≤ degree args.indegree el v * (ids el).card
  interval : ∃ size, Set.BijOn number { v | v ∈ hub_nodes ∧ Free args v }
    (Set.Ico (if args.maintain then 1 else 0) ((if args.maintain then 1 else 0) + size))
  first : ∀ u ∈ hub_nodes, ∀ v ∈ ids el, v ∉ hub_nodes → Free args u → Free args v →
    number u < number v
  injective : Set.InjOn number (ids el)
  sorted : args.sort = true → ∀ u ∈ hub_nodes, ∀ v ∈ hub_nodes, Free args u → Free args v →
    number u < number v →
    Degree.InOrder args.ascending (degree args.indegree el u) (degree args.indegree el v)

theorem newId_bijOn {start : Nat} {front back : List Nat} (h : front.Nodup) :
    Set.BijOn (newId start (front ++ back)) { v | v ∈ front }
      (Set.Ico start (start + front.length)) := by
  have hat {v : Nat} (hv : v ∈ front) :
      newId start (front ++ back) v = start + front.idxOf v := by
    rw [newId, if_pos (List.mem_append_left back hv), List.idxOf_append_of_mem hv]
  refine ⟨fun v hv => ?_, fun v hv w hw he => ?_, fun k hk => ?_⟩
  · have hlt := List.idxOf_lt_length_of_mem hv
    rw [hat hv, Set.mem_Ico]
    omega
  · rw [hat hv, hat hw] at he
    exact (List.idxOf_inj hv).mp (by omega)
  · rw [Set.mem_Ico] at hk
    have hi : k - start < front.length := by omega
    refine ⟨front[k - start], List.getElem_mem hi, ?_⟩
    rw [hat (List.getElem_mem hi), h.idxOf_getElem]
    omega

theorem hubList_pairwise (args : Args) (order : SetOrder) (el : List Record)
    (hub_nodes : Finset Nat) (hs : args.sort = true) :
    (hubList args order (edgesByNode args.indegree el) hub_nodes).Pairwise fun u v =>
      Degree.InOrder args.ascending (degree args.indegree el u) (degree args.indegree el v) := by
  rw [hubList, if_pos hs]
  refine (Degree.sorted_inOrder _ _ _).imp fun {u v} huv => ?_
  rwa [length_edgesByNode, length_edgesByNode] at huv

/-- The counter runs through `front`, the hubs, and then `back`, the other vertices. -/
structure Parts (args : Args) (el : List Record) (front back : List Nat) (s : Naming) : Prop where
  numbered : Numbered (if args.maintain then 1 else 0) (args.maintain && decide (0 ∈ ids el))
    (front ++ back) s
  known : ∀ v, Known (args.maintain && decide (0 ∈ ids el)) (front ++ back) v ↔ v ∈ ids el
  mem_front : ∀ v, v ∈ front ↔ v ∈ hubs args el ∧ Free args v
  mem_back : ∀ v, v ∈ back ↔ v ∈ ids el \ hubs args el ∧ Free args v
  sorted : args.sort = true → front.Pairwise fun u v =>
    Degree.InOrder args.ascending (degree args.indegree el u) (degree args.indegree el v)

theorem numbering_parts (args : Args) (order : SetOrder) (el : List Record) :
    ∃ front back, Parts args el front back (numbering args order el) := by
  obtain ⟨hs, hknown⟩ := numbering_spec args order el
  rw [countedOf_append] at hs hknown
  refine ⟨_, _, hs, hknown, fun v => ?_, fun v => ?_, fun hsort => ?_⟩
  · rw [mem_countedOf, (hubList_perm _ _ _ _).mem_iff, order.mem_list, Free]
  · rw [mem_countedOf, order.mem_list, Free]
  · exact (hubList_pairwise args order el (hubs args el) hsort).filter _

section Parts
variable {front back : List Nat} {s : Naming}

theorem Parts.injective (h : Parts args el front back s) :
    Set.InjOn (newId (if args.maintain then 1 else 0) (front ++ back)) (ids el) := by
  have hinj := h.numbered.injOn fun hk => by
    rw [(Bool.and_eq_true_iff.mp hk).1, if_pos rfl]
    exact Nat.one_pos
  have hset : { v | Known (args.maintain && decide (0 ∈ ids el)) (front ++ back) v } =
      (ids el : Set Nat) := Set.ext h.known
  rwa [hset] at hinj

theorem Parts.interval (h : Parts args el front back s) :
    Set.BijOn (newId (if args.maintain then 1 else 0) (front ++ back))
      { v | v ∈ hubs args el ∧ Free args v }
      (Set.Ico (if args.maintain then 1 else 0)
        ((if args.maintain then 1 else 0) + front.length)) := by
  have hset : { v | v ∈ front } = { v | v ∈ hubs args el ∧ Free args v } := Set.ext h.mem_front
  rw [← hset]
  exact newId_bijOn (List.Nodup.of_append_left h.numbered.nodup)

theorem Parts.first (h : Parts args el front back s) {u v : Nat} (hu : u ∈ front)
    (hv : v ∈ back) :
    newId (if args.maintain then 1 else 0) (front ++ back) u <
      newId (if args.maintain then 1 else 0) (front ++ back) v := by
  have hnot : v ∉ front := fun hf => List.disjoint_of_nodup_append h.numbered.nodup hf hv
  apply (newId_lt_iff (List.mem_append_left _ hu) (List.mem_append_right _ hv)).mpr
  exact (idxOf_front hu).trans_le (length_le_idxOf_back back hnot)

theorem Parts.inOrder (h : Parts args el front back s) (hsort : args.sort = true) {u v : Nat}
    (hu : u ∈ front) (hv : v ∈ front)
    (hlt : newId (if args.maintain then 1 else 0) (front ++ back) u <
      newId (if args.maintain then 1 else 0) (front ++ back) v) :
    Degree.InOrder args.ascending (degree args.indegree el u) (degree args.indegree el v) := by
  rw [newId_lt_iff (List.mem_append_left _ hu) (List.mem_append_left _ hv),
    List.idxOf_append_of_mem hu, List.idxOf_append_of_mem hv] at hlt
  exact rel_of_idxOf_lt (h.sorted hsort) hu hv hlt

end Parts

/-- `hub.py` separates the hubs from the rest, in whatever order Python runs through its sets. -/
theorem numbering_separates (args : Args) (order : SetOrder) (hne : el ≠ []) :
    ∃ number : Nat → Nat,
      (∀ v ∈ ids el, (numbering args order el).mapping.get? v = some (number v : Int)) ∧
      Separates args el (hubs args el) number := by
  obtain ⟨front, back, h⟩ := numbering_parts args order el
  refine ⟨_, fun v hv => (h.numbered.look v).trans (if_pos ((h.known v).mpr hv)), ?_⟩
  constructor
  · exact fun v => mem_hubs hne
  · exact ⟨front.length, h.interval⟩
  · intro u hu v hv hvh huf hvf
    exact h.first ((h.mem_front u).mpr ⟨hu, huf⟩)
      ((h.mem_back v).mpr ⟨Finset.mem_sdiff.mpr ⟨hv, hvh⟩, hvf⟩)
  · exact h.injective
  · intro hsort u hu v hv huf hvf hlt
    exact h.inOrder hsort ((h.mem_front u).mpr ⟨hu, huf⟩) ((h.mem_front v).mpr ⟨hv, hvf⟩) hlt

def twoHubs : List Record := [⟨0, 1, 0⟩, ⟨1, 0, 0⟩, ⟨1, 2, 0⟩]

def maintainSort : Args := ⟨⟨⟨true, false, false⟩, false⟩, true⟩

theorem numbering_separates_twoHubs :
    ∃ number : Nat → Nat,
      (∀ v ∈ ids twoHubs,
        (numbering maintainSort .increasing twoHubs).mapping.get? v = some (number v : Int)) ∧
      Separates maintainSort twoHubs (hubs maintainSort twoHubs) number :=
  numbering_separates maintainSort .increasing (List.cons_ne_nil _ _)

/-- With `-m -s` the hub 0 of degree 1 keeps its id, before the hub 1 of degree 2. -/
theorem kept_hub_unsorted :
    ¬ ∃ number : Nat → Nat,
      (∀ v ∈ ids twoHubs,
        (numbering maintainSort .increasing twoHubs).mapping.get? v = some (number v : Int)) ∧
      ∀ u ∈ hubs maintainSort twoHubs, ∀ v ∈ hubs maintainSort twoHubs, number u < number v →
        Degree.InOrder false (degree false twoHubs u) (degree false twoHubs v) := by
  intro hsorted
  obtain ⟨number, hall, horder⟩ := hsorted
  obtain ⟨front, back, h⟩ := numbering_parts maintainSort .increasing twoHubs
  have hnumber (v : Nat) (hv : v ∈ ids twoHubs) : newId 1 (front ++ back) v = number v := by
    have hlook := (h.numbered.look v).symm.trans (hall v hv)
    rw [if_pos ((h.known v).mpr hv)] at hlook
    exact Int.ofNat_inj.mp (Option.some.inj hlook)
  have hne : twoHubs ≠ [] := List.cons_ne_nil _ _
  have hhub0 : 0 ∈ hubs maintainSort twoHubs := (mem_hubs hne).mpr (by decide)
  have hhub1 : 1 ∈ hubs maintainSort twoHubs := (mem_hubs hne).mpr (by decide)
  have hfront : 1 ∈ front := (h.mem_front 1).mpr ⟨hhub1, fun _ => Nat.one_ne_zero⟩
  have hzero := hnumber 0 (by decide)
  have hone := hnumber 1 (by decide)
  rw [newId, if_neg (h.numbered.zero (by decide))] at hzero
  rw [newId, if_pos (List.mem_append_left _ hfront)] at hone
  have hle := horder 0 hhub0 1 hhub1 (by omega)
  exact absurd hle (Nat.not_succ_le_self 1)

end Order

end GraphReorder.Hub
