import GraphReorder.Reverse

/-! `createReverseCSR` with a record of the cells it writes: each is written once, and the rows
are those of the transpose. -/
namespace GraphReorder
open Library

def scatterLogged (base : Array Nat) (k x : Nat) (st : (Array Nat × Array Nat) × List Nat) :
    Option ((Array Nat × Array Nat) × List Nat) := do
  let cell := (← base[k]?) + (← st.1.2[k]?)
  let cells ← store st.1.1 cell x
  let fill ← incr st.1.2 k
  some ((cells, fill), st.2 ++ [cell])

/-- `createReverseCSR`, with the cells of `EI` in the order in which they are written. -/
def createReverseCSRLogged (G1 : Graph) (G2numVertex : Nat) : Option (Graph × List Nat) := do
  let VI ← forRange 0 G1.numEdges (fun i VI => do
    let e ← G1.EI[i]?
    if e < usub G2numVertex 1 then incr VI (e + 1) else some VI) (Array.replicate G2numVertex 0)
  let VI ← forRange 1 G2numVertex (fun i VI => do
    store VI i ((← VI[i]?) + (← VI[i - 1]?))) VI
  let ((EI, _), writes) ← forRange 0 G1.numVertex (fun i st => do
    forRange (← G1.VI[i]?) (← G1.rowEnd i) (fun j st => do
      scatterLogged VI (← G1.EI[j]?) i st) st)
    ((Array.replicate G1.numEdges 0, Array.replicate G2numVertex 0), [])
  some ({ G1 with numVertex := G2numVertex, VI, EI }, writes)

section Erase
variable {β γ : Type}

/-- A log that nothing reads does not change a loop. -/
theorem forRange_erase {body : Nat → β → Option β} {logged : Nat → β × γ → Option (β × γ)}
    (h : ∀ i st, (logged i st).map Prod.fst = body i st.1) (lo hi : Nat) (st : β × γ) :
    (forRange lo hi logged st).map Prod.fst = forRange lo hi body st.1 := by
  induction hn : hi - lo generalizing lo st with
  | zero =>
    rw [forRange_empty (by omega), forRange_empty (by omega)]
    rfl
  | succ n ih =>
    rw [forRange_step (by omega), forRange_step (by omega), ← h lo st]
    cases logged lo st with
    | none => rfl
    | some st' => exact ih (lo + 1) st' (by omega)

theorem scatterLogged_erase (base : Array Nat) (k x : Nat)
    (st : (Array Nat × Array Nat) × List Nat) :
    (scatterLogged base k x st).map Prod.fst = scatter base k x st.1 := by
  unfold scatterLogged scatter
  cases base[k]? with
  | none => rfl
  | some first =>
    cases st.1.2[k]? with
    | none => rfl
    | some filled =>
      simp only [some_bind]
      cases store st.1.1 (first + filled) x with
      | none => rfl
      | some cells =>
        cases incr st.1.2 k with
        | none => rfl
        | some fill => rfl

theorem createReverseCSRLogged_erase (G1 : Graph) (P : Nat) :
    (createReverseCSRLogged G1 P).map Prod.fst = createReverseCSR G1 P := by
  have hrow (VI : Array Nat) (i : Nat) (st : (Array Nat × Array Nat) × List Nat) :
      (do forRange (← G1.VI[i]?) (← G1.rowEnd i) (fun j st => do
        scatterLogged VI (← G1.EI[j]?) i st) st).map Prod.fst =
      (do forRange (← G1.VI[i]?) (← G1.rowEnd i) (fun j st => do
        scatter VI (← G1.EI[j]?) i st) st.1) := by
    cases G1.VI[i]? with
    | none => rfl
    | some lo =>
      cases G1.rowEnd i with
      | none => rfl
      | some hi =>
        refine forRange_erase (fun j st => ?_) lo hi st
        cases G1.EI[j]? with
        | none => rfl
        | some e => exact scatterLogged_erase VI e i st
  unfold createReverseCSRLogged createReverseCSR
  rw [Option.bind_eq_bind, Option.map_bind]
  refine Option.bind_congr fun counts _ => ?_
  rw [Function.comp_apply, Option.bind_eq_bind, Option.map_bind]
  refine Option.bind_congr fun VI _ => ?_
  rw [Function.comp_apply, Option.bind_eq_bind, Option.map_bind,
    ← forRange_erase (hrow VI) 0 G1.numVertex
      ((Array.replicate G1.numEdges 0, Array.replicate P 0), []), Option.bind_eq_bind]
  refine Eq.trans ?_ Option.bind_map.symm
  rfl

end Erase

section Logged
variable {base : Array Nat} {es done : List (Nat × Nat)} {n size : Nat}

def filled (n : Nat) (base : Array Nat) (done : List (Nat × Nat)) : List Nat :=
  (List.range n).flatMap fun k => List.range' base[k]! (group done k).length

theorem filled_nil (n : Nat) (base : Array Nat) : filled n base [] = [] := by
  simp [filled, group]

theorem filled_concat {k : Nat} (hk : k < n) (x : Nat) :
    (filled n base (done ++ [(k, x)])).Perm
      (filled n base done ++ [base[k]! + (group done k).length]) := by
  unfold filled
  induction n with
  | zero => exact absurd hk (Nat.not_lt_zero k)
  | succ n ih =>
    rw [List.range_succ, List.flatMap_append, List.flatMap_append, List.flatMap_singleton,
      List.flatMap_singleton, group_append, group_singleton]
    by_cases hkn : k = n
    · subst hkn
      have hsame : (List.range k).flatMap (fun j => List.range' base[j]!
          (group (done ++ [(k, x)]) j).length) =
          (List.range k).flatMap fun j => List.range' base[j]! (group done j).length := by
        refine List.flatMap_congr fun j hj => ?_
        have hlt := List.mem_range.mp hj
        rw [group_append, group_singleton, if_neg (by omega), List.append_nil]
      rw [hsame, if_pos rfl, List.length_append, List.length_singleton, List.append_assoc,
        List.range'_concat, Nat.one_mul]
    · rw [if_neg hkn, List.append_nil]
      have hperm := (ih (by omega)).append_right (List.range' base[n]! (group done n).length)
      refine hperm.trans ?_
      rw [List.append_assoc, List.append_assoc]
      exact List.perm_append_comm.append_left _

theorem filled_all (ho : Offsets n base es) : filled n base es = List.range (below es n) := by
  have hfront (m : Nat) (hm : m ≤ n) : filled m base es = List.range (below es m) := by
    induction m with
    | zero => rw [below_zero]; rfl
    | succ m ih =>
      have hstep : filled (m + 1) base es =
          filled m base es ++ List.range' base[m]! (group es m).length := by
        simp [filled, List.range_succ]
      rw [hstep, ih (by omega), ho.2 m (by omega), below_succ, List.range_eq_range',
        List.range_eq_range']
      simpa using List.range'_append_1 (s := 0) (m := below es m) (n := (group es m).length)
  exact hfront n le_rfl

structure Logged (n : Nat) (base : Array Nat) (size : Nat) (done : List (Nat × Nat))
    (st : (Array Nat × Array Nat) × List Nat) : Prop where
  scattered : Scattered n base size done st.1
  cells : st.2.Perm (filled n base done)

theorem logged_step {k x : Nat} {rest : List (Nat × Nat)}
    {st : (Array Nat × Array Nat) × List Nat} (ho : Offsets n base es)
    (hes : es = done ++ (k, x) :: rest) (hk : k < n) (hsize : es.length ≤ size)
    (h : Logged n base size done st) :
    ∃ st', scatterLogged base k x st = some st' ∧ Logged n base size (done ++ [(k, x)]) st' := by
  obtain ⟨st₁, hst, hs⟩ := scatter_step ho hes hk hsize h.scattered
  have hroom := h.scattered.room
  have hbase := ho.1
  have hb : base[k]? = some base[k]! := read_eq (by omega)
  have hf : st.1.2[k]? = some st.1.2[k]! := read_eq (by omega)
  refine ⟨(st₁, st.2 ++ [base[k]! + st.1.2[k]!]), ?_, hs, ?_⟩
  · simp only [scatter, hb, hf, some_bind] at hst
    obtain ⟨cells, hcells, hst⟩ := Option.bind_eq_some_iff.mp hst
    obtain ⟨fill, hfill, hst⟩ := Option.bind_eq_some_iff.mp hst
    cases hst
    simp only [scatterLogged, hb, hf, some_bind, hcells, hfill]
  · rw [h.scattered.fill k hk]
    exact (h.cells.append_right _).trans (filled_concat hk x).symm

end Logged

section Transpose
variable {G1 : Graph} {P : Nat}

theorem forRows_logged {VI : Array Nat} (h : G1.Csr P)
    (ho : Offsets P VI (G1.edges.map Prod.swap)) :
    ∃ st, forRange 0 G1.numVertex (fun i st => do
        forRange (← G1.VI[i]?) (← G1.rowEnd i) (fun j st => do
          scatterLogged VI (← G1.EI[j]?) i st) st)
        ((Array.replicate G1.numEdges 0, Array.replicate P 0), []) = some st ∧
      Logged P VI G1.numEdges (G1.edges.map Prod.swap) st := by
  have hlen : (G1.edges.map Prod.swap).length = G1.numEdges := by
    rw [List.length_map, h.edges_length]
  have hstart : Logged P VI G1.numEdges [] ((Array.replicate G1.numEdges 0, Array.replicate P 0), []) :=
    ⟨scattered_nil (by simp) (by simp) fun k hk => replicate_get P k 0 hk, by rw [filled_nil]⟩
  refine Graph.forRows_rule h (fun done st => Logged P VI G1.numEdges (done.map Prod.swap) st)
    hstart ?_ le_rfl
  intro done v j rest st _ hd hj hI
  have hsplit : G1.edges.map Prod.swap =
      done.map Prod.swap ++ (G1.EI[j]!, v) :: rest.map Prod.swap := by
    rw [hd]
    simp
  have hmem : (G1.EI[j]!, v) ∈ G1.edges.map Prod.swap := by
    rw [hsplit]
    simp
  obtain ⟨st', hst, hI'⟩ := logged_step ho hsplit (swap_edges_lt h hmem).1 hlen.le hI
  refine ⟨st', ?_, by simpa using hI'⟩
  rw [read_eq hj]
  exact hst

theorem group_swap_row (row : List Nat) (i v : Nat) :
    group ((row.map fun x => (i, x)).map Prod.swap) v = List.replicate (row.count v) i := by
  induction row with
  | nil => rfl
  | cons x row ih =>
    have hcons : ((x :: row).map fun x => (i, x)).map Prod.swap =
        [(x, i)] ++ (row.map fun x => (i, x)).map Prod.swap := rfl
    rw [hcons, group_append, ih, group_singleton, List.count_cons]
    by_cases hx : x = v
    · simp [hx, List.replicate_succ]
    · simp [hx]

theorem group_swap_edges (G : Graph) (v : Nat) : group (G.edges.map Prod.swap) v =
    (List.range G.numVertex).flatMap fun i => List.replicate ((G.row i).count v) i := by
  unfold Graph.edges
  generalize G.numVertex = n
  induction n with
  | zero => rfl
  | succ n ih =>
    rw [List.range_succ, List.flatMap_append, List.flatMap_append, List.map_append, group_append,
      ih, List.flatMap_singleton, List.flatMap_singleton, group_swap_row]

/-- `G2` is the transpose of `G1`, and `writes` are the cells that were written. -/
structure Transposed (P : Nat) (G1 G2 : Graph) (writes : List Nat) : Prop where
  numVertex : G2.numVertex = P
  numEdges : G2.numEdges = G1.numEdges
  cells : G2.EI.size = G1.numEdges
  once : writes.Perm (List.range G2.EI.size)
  rows : ∀ v < P, G2.row v =
    (List.range G1.numVertex).flatMap fun i => List.replicate ((G1.row i).count v) i

theorem createReverseCSR_some (h : G1.Csr P) (hP : 1 ≤ P) (hword : P < 2 ^ 32) :
    ∃ G2 writes, createReverseCSR G1 P = some G2 ∧
      createReverseCSRLogged G1 P = some (G2, writes) ∧ Transposed P G1 G2 writes := by
  obtain ⟨counts, VI, hcounts, hVI, _, ho⟩ := reverse_offsets h hP
  obtain ⟨⟨⟨EI, fill⟩, writes⟩, hEI, hw⟩ := forRows_logged h ho
  have hlogged : createReverseCSRLogged G1 P =
      some ({ G1 with numVertex := P, VI, EI }, writes) := by
    simp only [createReverseCSRLogged, hcounts, hVI, hEI, some_bind]
  have hplain := createReverseCSRLogged_erase G1 P
  rw [hlogged] at hplain
  obtain ⟨G2, hrun, hrev⟩ := createReverseCSR_spec h hP hword
  rw [hrun] at hplain
  obtain rfl := (Option.some.inj hplain).symm
  refine ⟨_, writes, hrun, hlogged, rfl, rfl, hrev.sizeEI, ?_, fun v hv => ?_⟩
  · have hkeys : ∀ e ∈ G1.edges.map Prod.swap, e.1 < P := fun e he => (swap_edges_lt h he).1
    rw [hrev.sizeEI, ← h.edges_length, ← List.length_map (f := Prod.swap), ← below_all hkeys,
      ← filled_all ho]
    exact hw.cells
  · rw [hrev.rows v hv, group_swap_edges]

theorem createReverseCSR_empty (hn : G1.numVertex = 0) (hm : G1.numEdges = 0) (hP : 1 ≤ P) :
    ∃ G2, createReverseCSR G1 P = some G2 ∧ createReverseCSRLogged G1 P = some (G2, []) ∧
      Transposed P G1 G2 [] := by
  have hshift : Shifted P (Array.replicate P 0) [] :=
    ⟨by simp, replicate_get P 0 0 hP, fun k hk => replicate_get P (k + 1) 0 hk⟩
  obtain ⟨VI, hVI, hsum⟩ := shifted_sum hP hshift
  have hzero (k : Nat) (hk : k < P) : VI[k]! = 0 := hsum.done k hk
  refine ⟨{ G1 with numVertex := P, VI, EI := Array.replicate G1.numEdges 0 }, ?_, ?_, rfl, rfl,
    by simp, by simp [hm], fun v hv => ?_⟩
  · simp only [createReverseCSR, hn, hm, forRange_empty le_rfl, pure, some_bind, hVI]
  · simp only [createReverseCSRLogged, hn, hm, forRange_empty le_rfl, pure, some_bind, hVI]
  · rw [hn]
    refine slice_empty _ ?_
    unfold Graph.stop
    split_ifs with hl
    · exact hm.trans_le (Nat.zero_le _)
    · change VI[v + 1]! ≤ VI[v]!
      have hlt : v + 1 < P := Nat.lt_of_le_of_ne hv hl
      rw [hzero v hv, hzero (v + 1) hlt]

/-- `createReverseCSR` makes the exact transpose, and writes each cell of `EI` once. -/
theorem createReverseCSR_transposed (h : G1.Csr P ∨ G1.numVertex = 0 ∧ G1.numEdges = 0)
    (hP : 1 ≤ P) (hword : P < 2 ^ 32) :
    ∃ G2 writes, createReverseCSR G1 P = some G2 ∧
      createReverseCSRLogged G1 P = some (G2, writes) ∧ Transposed P G1 G2 writes := by
  cases h with
  | inl h => exact createReverseCSR_some h hP hword
  | inr h =>
    obtain ⟨G2, hrun, hlogged, ht⟩ := createReverseCSR_empty h.1 h.2 hP
    exact ⟨G2, [], hrun, hlogged, ht⟩

def twoRows : Graph where
  numVertex := 2
  numEdges := 4
  VI := #[0, 3]
  EI := #[4, 1, 4, 4]

theorem createReverseCSR_transposed_twoRows : ∃ G2 writes,
    createReverseCSR twoRows 5 = some G2 ∧ Transposed 5 twoRows G2 writes := by
  have hcsr : twoRows.Csr 5 := by decide
  obtain ⟨G2, writes, hrun, _, ht⟩ :=
    createReverseCSR_transposed (.inl hcsr) (by decide) (by decide)
  exact ⟨G2, writes, hrun, ht⟩

end Transpose

end GraphReorder
