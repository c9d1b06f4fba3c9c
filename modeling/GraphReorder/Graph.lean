import GraphReorder.Library.Scatter
import GraphReorder.Library.Table

/-! The `graph` structure of the reordering programs and its row view. -/
namespace GraphReorder
open Library

abbrev Key : Type := List Char

/-- `struct graph`: rows of `EI` delimited by `VI`, and the two side tables. -/
structure Graph where
  numVertex : Nat
  numEdges : Nat
  VI : Array Nat
  EI : Array Nat
  filtered_to_original : Table Nat Nat := Table.empty
  weights : Table Key Nat := Table.empty

namespace Graph

/-- `(v == numVertex-1) ? numEdges : VI[v+1]`. -/
def rowEnd (G : Graph) (v : Nat) : Option Nat :=
  if v = usub G.numVertex 1 then some G.numEdges else G.VI[v + 1]?

def stop (G : Graph) (v : Nat) : Nat :=
  if v + 1 = G.numVertex then G.numEdges else G.VI[v + 1]!

def row (G : Graph) (v : Nat) : List Nat := slice G.EI G.VI[v]! (G.stop v)

def edges (G : Graph) : List (Nat × Nat) :=
  (List.range G.numVertex).flatMap fun v => (G.row v).map fun x => (v, x)

/-- A well-formed CSR graph with entries below `bound`, in 32-bit words. -/
structure Csr (G : Graph) (bound : Nat) : Prop where
  pos : 1 ≤ G.numVertex
  room : G.numVertex ≤ G.VI.size
  zero : G.VI[0]! = 0
  mono : ∀ v, v + 1 < G.numVertex → G.VI[v]! ≤ G.VI[v + 1]!
  last : G.VI[G.numVertex - 1]! ≤ G.numEdges
  cells : G.numEdges ≤ G.EI.size
  entries : ∀ j < G.numEdges, G.EI[j]! < bound
  vertexWord : G.numVertex < 2 ^ 32
  edgeWord : G.numEdges < 2 ^ 32

instance (G : Graph) (bound : Nat) : Decidable (G.Csr bound) :=
  decidable_of_iff (1 ≤ G.numVertex ∧ G.numVertex ≤ G.VI.size ∧ G.VI[0]! = 0 ∧
      (∀ v < G.numVertex - 1, G.VI[v]! ≤ G.VI[v + 1]!) ∧ G.VI[G.numVertex - 1]! ≤ G.numEdges ∧
      G.numEdges ≤ G.EI.size ∧ (∀ j < G.numEdges, G.EI[j]! < bound) ∧ G.numVertex < 2 ^ 32 ∧
      G.numEdges < 2 ^ 32)
    ⟨fun h => ⟨h.1, h.2.1, h.2.2.1, fun v hv => h.2.2.2.1 v (by omega), h.2.2.2.2.1, h.2.2.2.2.2.1,
      h.2.2.2.2.2.2.1, h.2.2.2.2.2.2.2.1, h.2.2.2.2.2.2.2.2⟩,
    fun h => ⟨h.pos, h.room, h.zero, fun v hv => h.mono v (by omega), h.last, h.cells, h.entries,
      h.vertexWord, h.edgeWord⟩⟩

namespace Csr
variable {G : Graph} {bound v : Nat}

theorem start_le_last (h : G.Csr bound) (hv : v < G.numVertex) :
    G.VI[v]! ≤ G.VI[G.numVertex - 1]! := by
  obtain ⟨d, hd⟩ : ∃ d, G.numVertex - 1 = v + d := ⟨G.numVertex - 1 - v, by omega⟩
  rw [hd]
  have hlt : v + d < G.numVertex := by omega
  clear hd
  induction d with
  | zero => exact le_rfl
  | succ d ih => exact (ih (by omega)).trans (h.mono (v + d) hlt)

theorem read_start (h : G.Csr bound) (hv : v < G.numVertex) : G.VI[v]? = some G.VI[v]! :=
  read_eq (by have := h.room; omega)

theorem rowEnd_eq (h : G.Csr bound) (hv : v < G.numVertex) : G.rowEnd v = some (G.stop v) := by
  have hp := h.pos
  have hr := h.room
  simp only [rowEnd, stop, usub_of_le hp]
  by_cases hl : v + 1 = G.numVertex
  · rw [if_pos (by omega), if_pos hl]
  · rw [if_neg (by omega), if_neg hl, read_eq (by omega)]

theorem start_le_stop (h : G.Csr bound) (hv : v < G.numVertex) : G.VI[v]! ≤ G.stop v := by
  unfold stop
  split_ifs with hl
  · exact (h.start_le_last hv).trans h.last
  · exact h.mono v (by omega)

theorem stop_le (h : G.Csr bound) (hv : v < G.numVertex) : G.stop v ≤ G.numEdges := by
  unfold stop
  split_ifs with hl
  · exact le_rfl
  · exact (h.start_le_last (by omega)).trans h.last

theorem stop_mono (h : G.Csr bound) {w : Nat} (hvw : v ≤ w) (hw : w < G.numVertex) :
    G.stop v ≤ G.stop w := by
  induction w, hvw using Nat.le_induction with
  | base => exact le_rfl
  | succ w _ ih =>
    have hs : G.stop w = G.VI[w + 1]! := by rw [stop, if_neg (by omega)]
    exact ((ih (by omega)).trans_eq hs).trans (h.start_le_stop hw)

theorem stop_lt_size (h : G.Csr bound) (hv : v < G.numVertex) {j : Nat} (hj : j < G.stop v) :
    j < G.EI.size := by
  have h1 := h.stop_le hv
  have h2 := h.cells
  omega

theorem row_lt (h : G.Csr bound) (hv : v < G.numVertex) {x : Nat} (hx : x ∈ G.row v) :
    x < bound := by
  obtain ⟨j, _, hj, rfl⟩ := mem_slice.mp hx
  exact h.entries j (by have := h.stop_le hv; omega)

theorem row_length (v : Nat) : (G.row v).length = G.stop v - G.VI[v]! := slice_length ..

theorem rows_between (h : G.Csr bound) {w : Nat} (hvw : v ≤ w) (hw : w < G.numVertex) :
    (List.range' v (w + 1 - v)).flatMap G.row = slice G.EI G.VI[v]! (G.stop w) := by
  induction w, hvw using Nat.le_induction with
  | base => simp [row]
  | succ w hvw ih =>
    have hs : G.stop w = G.VI[w + 1]! := by rw [stop, if_neg (by omega)]
    have hlen : w + 1 + 1 - v = w + 1 - v + 1 := by omega
    have hend : v + (w + 1 - v) = w + 1 := by omega
    have hle : G.VI[v]! ≤ G.VI[w + 1]! := by
      rw [← hs]
      exact (h.start_le_stop (by omega)).trans (h.stop_mono hvw (by omega))
    rw [hlen, List.range'_concat, List.flatMap_append, ih (by omega), hs, Nat.one_mul, hend,
      List.flatMap_singleton]
    exact slice_append _ hle (h.start_le_stop hw)

theorem rows_flat (h : G.Csr bound) {k : Nat} (hk : k < G.numVertex) :
    (List.range (k + 1)).flatMap G.row = slice G.EI 0 (G.stop k) := by
  have hrows := h.rows_between (Nat.zero_le k) hk
  rw [h.zero] at hrows
  rw [List.range_eq_range']
  exact hrows

theorem flat (h : G.Csr bound) :
    (List.range G.numVertex).flatMap G.row = slice G.EI 0 G.numEdges := by
  have hp := h.pos
  have hf := h.rows_flat (k := G.numVertex - 1) (by omega)
  have hn : G.numVertex - 1 + 1 = G.numVertex := by omega
  rw [hn] at hf
  rw [hf, stop, if_pos hn]

theorem edges_snd (h : G.Csr bound) : G.edges.map Prod.snd = slice G.EI 0 G.numEdges := by
  rw [← h.flat, edges, List.map_flatMap]
  simp [Function.comp_def]

theorem edges_length (h : G.Csr bound) : G.edges.length = G.numEdges := by
  have hl := congrArg List.length h.edges_snd
  simpa [slice_length] using hl

end Csr

theorem mem_edges {G : Graph} {e : Nat × Nat} :
    e ∈ G.edges ↔ e.1 < G.numVertex ∧ e.2 ∈ G.row e.1 := by
  obtain ⟨v, x⟩ := e
  simp only [edges, List.mem_flatMap, List.mem_range, List.mem_map, Prod.mk.injEq]
  constructor
  · rintro ⟨w, hw, y, hy, rfl, rfl⟩
    exact ⟨hw, hy⟩
  · rintro ⟨hv, hx⟩
    exact ⟨v, hv, x, hx, rfl, rfl⟩

theorem group_flatMap (n : Nat) (f : Nat → List Nat) {v : Nat} (hv : v < n) :
    group ((List.range n).flatMap fun w => (f w).map fun x => (w, x)) v = f v := by
  have hone (w : Nat) : group ((f w).map fun x => (w, x)) v = if w = v then f v else [] := by
    simp only [group, List.filterMap_map, Function.comp_def]
    by_cases h : w = v <;> simp [h]
  induction n with
  | zero => omega
  | succ n ih =>
    rw [List.range_succ, List.flatMap_append, group_append, List.flatMap_singleton, hone]
    by_cases h : n = v
    · subst h
      have hnil : group ((List.range n).flatMap fun w => (f w).map fun x => (w, x)) n = [] := by
        simp only [group, List.filterMap_eq_nil_iff, List.mem_flatMap, List.mem_range,
          List.mem_map]
        rintro e ⟨w, hw, x, _, rfl⟩
        simp [Nat.ne_of_lt hw]
      rw [hnil, if_pos rfl, List.nil_append]
    · rw [ih (by omega), if_neg h, List.append_nil]

theorem group_edges (G : Graph) {v : Nat} (hv : v < G.numVertex) :
    group G.edges v = G.row v :=
  group_flatMap G.numVertex G.row hv

theorem group_edges_of_le (G : Graph) {v : Nat} (hv : G.numVertex ≤ v) : group G.edges v = [] := by
  refine List.eq_nil_iff_forall_not_mem.mpr fun x hx => ?_
  have hlt := (mem_edges.mp (mem_group.mp hx)).1
  exact absurd hlt (Nat.not_lt.mpr hv)

section Walk
variable {G : Graph} {bound : Nat} {β : Type}

def front (G : Graph) (k : Nat) : List (Nat × Nat) :=
  (List.range k).flatMap fun v => (G.row v).map fun x => (v, x)

theorem front_succ (G : Graph) (k : Nat) :
    G.front (k + 1) = G.front k ++ (G.row k).map fun x => (k, x) := by
  simp [front, List.range_succ]

theorem front_prefix (G : Graph) {k n : Nat} (h : k ≤ n) :
    ∃ rest, G.front n = G.front k ++ rest := by
  induction n with
  | zero =>
    obtain rfl : k = 0 := by omega
    exact ⟨[], (List.append_nil _).symm⟩
  | succ n ih =>
    by_cases hk : k ≤ n
    · obtain ⟨rest, hrest⟩ := ih hk
      exact ⟨rest ++ (G.row n).map fun x => (n, x), by
        rw [front_succ, hrest, List.append_assoc]⟩
    · obtain rfl : k = n + 1 := by omega
      exact ⟨[], (List.append_nil _).symm⟩

theorem forRow_rule (h : G.Csr bound) (I : List (Nat × Nat) → β → Prop) {v : Nat}
    (hv : v < G.numVertex) {body : Nat → β → Option β} {b : β} (h0 : I (G.front v) b)
    (hstep : ∀ done j rest b, G.edges = done ++ (v, G.EI[j]!) :: rest → j < G.EI.size →
      I done b → ∃ b', body j b = some b' ∧ I (done ++ [(v, G.EI[j]!)]) b') :
    ∃ b', forRange G.VI[v]! (G.stop v) body b = some b' ∧ I (G.front (v + 1)) b' := by
  have hle := h.start_le_stop hv
  obtain ⟨b', hrun, hI⟩ := forRange_rule
    (fun j b => I (G.front v ++ (slice G.EI G.VI[v]! j).map fun x => (v, x)) b) hle
    (by simpa [slice_empty] using h0) fun j b hl hj hI => by
      obtain ⟨rest, hrest⟩ := G.front_prefix (Nat.succ_le_of_lt hv)
      have hrow : G.row v = slice G.EI G.VI[v]! j ++ G.EI[j]! :: slice G.EI (j + 1) (G.stop v) := by
        rw [← slice_cons _ hj, slice_append _ hl (by omega), row]
      have hedges : G.edges = (G.front v ++ (slice G.EI G.VI[v]! j).map fun x => (v, x)) ++
          (v, G.EI[j]!) :: (((slice G.EI (j + 1) (G.stop v)).map fun x => (v, x)) ++ rest) := by
        change G.front G.numVertex = _
        rw [hrest, front_succ, hrow]
        simp
      obtain ⟨b', hb', h'⟩ := hstep _ j _ b hedges (h.stop_lt_size hv hj) hI
      refine ⟨b', hb', ?_⟩
      rw [slice_succ _ hl, List.map_append, ← List.append_assoc]
      exact h'
  refine ⟨b', hrun, ?_⟩
  rw [front_succ]
  exact hI

theorem forRows_rule (h : G.Csr bound) (I : List (Nat × Nat) → β → Prop)
    {body : Nat → Nat → β → Option β} {b : β} (h0 : I [] b)
    (hstep : ∀ done v j rest b, v < G.numVertex → G.edges = done ++ (v, G.EI[j]!) :: rest →
      j < G.EI.size → I done b → ∃ b', body v j b = some b' ∧ I (done ++ [(v, G.EI[j]!)]) b')
    {n : Nat} (hn : n ≤ G.numVertex) :
    ∃ b', forRange 0 n (fun v b => do
        forRange (← G.VI[v]?) (← G.rowEnd v) (body v) b) b = some b' ∧ I (G.front n) b' := by
  refine forRange_rule (fun v b => I (G.front v) b) (Nat.zero_le n) h0 fun v b _ hv hI => ?_
  have hv' : v < G.numVertex := by omega
  simp only [h.read_start hv', h.rowEnd_eq hv', Option.bind_eq_bind, Option.bind_some]
  exact forRow_rule h I hv' hI fun done j rest b => hstep done v j rest b hv'

theorem forAllRows_rule (h : G.Csr bound) (I : List (Nat × Nat) → β → Prop)
    (body : Nat → Nat → β → Option β) {b : β} (h0 : I [] b)
    (hstep : ∀ done v j rest b, v < G.numVertex → G.edges = done ++ (v, G.EI[j]!) :: rest →
      j < G.EI.size → I done b → ∃ b', body v j b = some b' ∧ I (done ++ [(v, G.EI[j]!)]) b') :
    ∃ b₁ b₂, forRange 0 (G.numVertex - 1) (fun v b => do
        forRange (← G.VI[v]?) (← G.VI[v + 1]?) (body v) b) b = some b₁ ∧
      forRange G.VI[G.numVertex - 1]! G.numEdges (body (G.numVertex - 1)) b₁ = some b₂ ∧
      I G.edges b₂ := by
  have hpos := h.pos
  have hroom := h.room
  obtain ⟨b₁, hrows, hI⟩ : ∃ b₁, forRange 0 (G.numVertex - 1) (fun v b => do
      forRange (← G.VI[v]?) (← G.VI[v + 1]?) (body v) b) b = some b₁ ∧
      I (G.front (G.numVertex - 1)) b₁ := by
    refine forRange_rule (fun v b => I (G.front v) b) (Nat.zero_le _) h0 fun v b _ hv hI => ?_
    have hstop : G.VI[v + 1]? = some (G.stop v) := by
      rw [read_eq (by omega), stop, if_neg (by omega)]
    rw [h.read_start (by omega), hstop]
    exact forRow_rule h I (by omega) hI fun done j rest b => hstep done v j rest b (by omega)
  have hlt : G.numVertex - 1 < G.numVertex := by omega
  have hstop : G.stop (G.numVertex - 1) = G.numEdges := by rw [stop, if_pos (by omega)]
  obtain ⟨b₂, hlast, hI'⟩ := forRow_rule h I hlt hI fun done j rest b =>
    hstep done (G.numVertex - 1) j rest b hlt
  rw [hstop] at hlast
  rw [Nat.sub_add_cancel hpos] at hI'
  exact ⟨b₁, b₂, hrows, hlast, hI'⟩

end Walk

section Build
variable {G : Graph} {es : List (Nat × Nat)} {fill : Array Nat}

/-- A counting sort of pairs makes a CSR graph: row `v` lists the values of key `v`. -/
theorem stop_of_offsets (ho : Offsets G.numVertex G.VI es) (hes : es.length = G.numEdges)
    (hkeys : ∀ e ∈ es, e.1 < G.numVertex) {v : Nat} (hv : v < G.numVertex) :
    G.stop v = below es (v + 1) := by
  unfold stop
  split_ifs with hl
  · rw [hl, below_all hkeys, hes]
  · exact ho.2 (v + 1) (by omega)

theorem row_of_scattered (ho : Offsets G.numVertex G.VI es) (hes : es.length = G.numEdges)
    (hkeys : ∀ e ∈ es, e.1 < G.numVertex)
    (hs : Scattered G.numVertex G.VI G.numEdges es (G.EI, fill)) {v : Nat}
    (hv : v < G.numVertex) : G.row v = group es v := by
  rw [row, stop_of_offsets ho hes hkeys hv, ho.2 v hv]
  exact hs.bucket ho hv

theorem csr_of_scattered {bound : Nat} (hpos : 1 ≤ G.numVertex)
    (ho : Offsets G.numVertex G.VI es) (hes : es.length = G.numEdges)
    (hkeys : ∀ e ∈ es, e.1 < G.numVertex) (hvalues : ∀ e ∈ es, e.2 < bound)
    (hs : Scattered G.numVertex G.VI G.numEdges es (G.EI, fill))
    (hn : G.numVertex < 2 ^ 32) (hm : G.numEdges < 2 ^ 32) : G.Csr bound where
  pos := hpos
  room := ho.1
  zero := by rw [ho.2 0 hpos, below_zero]
  mono v hv := by
    rw [ho.2 v (by omega), ho.2 (v + 1) hv]
    exact below_mono es (Nat.le_succ v)
  last := by
    rw [ho.2 _ (by omega), ← hes]
    exact below_le_length es _
  cells := hs.size.ge
  entries j hj := by
    -- the cell `j` lies in the bucket of some key
    obtain ⟨k, hk, hlo, hhi⟩ := below_bucket (n := G.numVertex) (j := j)
      (by rw [below_all hkeys, hes]; exact hj)
    have hmem : G.EI[j]! ∈ group es k := by
      rw [← hs.bucket ho hk]
      exact mem_slice.mpr ⟨j, hlo, hhi, rfl⟩
    exact hvalues (k, G.EI[j]!) (mem_group.mp hmem)
  vertexWord := hn
  edgeWord := hm

/-- The rows hold exactly the pairs that were distributed. -/
theorem edges_perm (hkeys : ∀ e ∈ es, e.1 < G.numVertex)
    (hrows : ∀ v < G.numVertex, G.row v = group es v) : G.edges.Perm es := by
  refine perm_of_group fun v => ?_
  by_cases hv : v < G.numVertex
  · rw [group_edges G hv, hrows v hv]
  · rw [group_edges_of_le G (Nat.le_of_not_lt hv)]
    refine (List.eq_nil_iff_forall_not_mem.mpr fun x hx => ?_).symm
    exact hv (hkeys (v, x) (mem_group.mp hx))

end Build

section Laid
variable {G : Graph} {R : Nat → List Nat} {n : Nat}

def flat (R : Nat → List Nat) (k : Nat) : List Nat := (List.range k).flatMap R

theorem flat_succ (R : Nat → List Nat) (k : Nat) : flat R (k + 1) = flat R k ++ R k := by
  simp [flat, List.range_succ]

theorem flat_prefix (R : Nat → List Nat) {k n : Nat} (h : k ≤ n) :
    ∃ rest, flat R n = flat R k ++ rest := by
  induction n with
  | zero =>
    obtain rfl : k = 0 := by omega
    exact ⟨[], (List.append_nil _).symm⟩
  | succ n ih =>
    by_cases hk : k ≤ n
    · obtain ⟨rest, hrest⟩ := ih hk
      exact ⟨rest ++ R n, by rw [flat_succ, hrest, List.append_assoc]⟩
    · obtain rfl : k = n + 1 := by omega
      exact ⟨[], (List.append_nil _).symm⟩

theorem flat_length_mono (R : Nat → List Nat) {k n : Nat} (h : k ≤ n) :
    (flat R k).length ≤ (flat R n).length := by
  obtain ⟨rest, hrest⟩ := flat_prefix R h
  rw [hrest, List.length_append]
  exact Nat.le_add_right _ _

theorem flat_front {a : Array Nat} (h : slice a 0 (flat R n).length = flat R n) {k : Nat}
    (hk : k ≤ n) : slice a 0 (flat R k).length = flat R k := by
  obtain ⟨rest, hrest⟩ := flat_prefix R hk
  rw [← slice_append a (Nat.zero_le (flat R k).length) (flat_length_mono R hk), hrest] at h
  exact List.append_inj_left h (by rw [slice_length, Nat.sub_zero])

theorem flat_row {a : Array Nat} (h : slice a 0 (flat R n).length = flat R n) {k : Nat}
    (hk : k < n) : slice a (flat R k).length (flat R (k + 1)).length = R k := by
  have hs := flat_front h (Nat.succ_le_of_lt hk)
  rw [← slice_append a (Nat.zero_le (flat R k).length) (flat_length_mono R (Nat.le_succ k)),
    flat_front h hk.le, flat_succ] at hs
  rw [flat_succ]
  exact List.append_cancel_left hs

structure Laid (R : Nat → List Nat) (G : Graph) : Prop where
  room : G.numVertex ≤ G.VI.size
  cells : G.numEdges ≤ G.EI.size
  offsets : ∀ k < G.numVertex, G.VI[k]! = (flat R k).length
  total : G.numEdges = (flat R G.numVertex).length
  entries : slice G.EI 0 G.numEdges = flat R G.numVertex

namespace Laid

theorem stop_eq (h : Laid R G) {v : Nat} (hv : v < G.numVertex) :
    G.stop v = (flat R (v + 1)).length := by
  unfold stop
  split_ifs with hl
  · rw [h.total, hl]
  · exact h.offsets (v + 1) (by omega)

theorem row_eq (h : Laid R G) {v : Nat} (hv : v < G.numVertex) : G.row v = R v := by
  have he := h.entries
  rw [h.total] at he
  rw [row, h.offsets v hv, h.stop_eq hv]
  exact flat_row he hv

theorem csr (h : Laid R G) (hpos : 1 ≤ G.numVertex) {bound : Nat}
    (hR : ∀ v < G.numVertex, ∀ x ∈ R v, x < bound) (hn : G.numVertex < 2 ^ 32)
    (hm : G.numEdges < 2 ^ 32) : G.Csr bound where
  pos := hpos
  room := h.room
  zero := h.offsets 0 hpos
  mono v hv := by
    rw [h.offsets v (by omega), h.offsets (v + 1) hv]
    exact flat_length_mono R (Nat.le_succ v)
  last := by
    rw [h.offsets _ (by omega), h.total]
    exact flat_length_mono R (Nat.sub_le _ _)
  cells := h.cells
  entries j hj := by
    have hmem : G.EI[j]! ∈ flat R G.numVertex := by
      rw [← h.entries]
      exact mem_slice.mpr ⟨j, Nat.zero_le j, hj, rfl⟩
    obtain ⟨v, hv, hx⟩ := List.mem_flatMap.mp hmem
    exact hR v (List.mem_range.mp hv) _ hx
  vertexWord := hn
  edgeWord := hm

end Laid

end Laid

end Graph

end GraphReorder
