import Mathlib.Data.Prod.Basic
import GraphReorder.Graph

/-! `createReverseCSR`: the rows of `G2` list the children of each parent. -/
namespace GraphReorder
open Library

/-- As block reordering has it; pH has the same with `G2numVertex = G1->numVertex`. -/
def createReverseCSR (G1 : Graph) (G2numVertex : Nat) : Option Graph := do
  let VI ← forRange 0 G1.numEdges (fun i VI => do
    let e ← G1.EI[i]?
    if e < usub G2numVertex 1 then incr VI (e + 1) else some VI) (Array.replicate G2numVertex 0)
  let VI ← forRange 1 G2numVertex (fun i VI => do
    store VI i ((← VI[i]?) + (← VI[i - 1]?))) VI
  let (EI, _) ← forRange 0 G1.numVertex (fun i st => do
    forRange (← G1.VI[i]?) (← G1.rowEnd i) (fun j st => do
      scatter VI (← G1.EI[j]?) i st) st)
    (Array.replicate G1.numEdges 0, Array.replicate G2numVertex 0)
  some { G1 with numVertex := G2numVertex, VI, EI }

variable {G1 : Graph} {P : Nat} {es : List (Nat × Nat)}

structure Shifted (P : Nat) (VI : Array Nat) (es : List (Nat × Nat)) : Prop where
  size : VI.size = P
  zero : VI[0]! = 0
  count : ∀ k, k + 1 < P → VI[k + 1]! = (group es k).length

theorem shifted_step {VI : Array Nat} {e : Nat × Nat} (hP : 1 ≤ P) (h : Shifted P VI es) :
    ∃ VI', (if e.1 < usub P 1 then incr VI (e.1 + 1) else some VI) = some VI' ∧
      Shifted P VI' (es ++ [e]) := by
  rw [usub_of_le hP]
  have hgroup (k : Nat) : (group (es ++ [e]) k).length =
      (group es k).length + if e.1 = k then 1 else 0 := by
    rw [group_append, group_singleton, List.length_append]
    split_ifs <;> rfl
  by_cases hlt : e.1 < P - 1
  · have hsz : e.1 + 1 < VI.size := by rw [h.size]; omega
    refine ⟨_, by rw [if_pos hlt, incr_eq hsz], by simpa using h.size, ?_, fun k hk => ?_⟩
    · rw [put_get hsz, if_neg (by omega), h.zero]
    · rw [put_get hsz, hgroup]
      by_cases hke : k = e.1
      · rw [if_pos (by omega), if_pos hke.symm, h.count e.1 (by omega), hke]
      · rw [if_neg (by omega), if_neg (Ne.symm hke), h.count k hk, Nat.add_zero]
  · refine ⟨VI, if_neg hlt, h.size, h.zero, fun k hk => ?_⟩
    rw [hgroup, if_neg (by omega), h.count k hk, Nat.add_zero]

theorem shifted_run (hP : 1 ≤ P) (key : Nat → Option Nat)
    (hkey : ∀ done e rest, es = done ++ e :: rest → key done.length = some e.1) :
    ∃ VI, forRange 0 es.length (fun i VI => do
        let e ← key i
        if e < usub P 1 then incr VI (e + 1) else some VI) (Array.replicate P 0) = some VI ∧
      Shifted P VI es := by
  refine forRange_list es (fun done VI => Shifted P VI done) ⟨by simp, ?_, fun k hk => ?_⟩ ?_
  · exact replicate_get P 0 0 hP
  · rw [replicate_get P (k + 1) 0 hk]
    rfl
  · intro done e rest VI hd hI
    rw [hkey done e rest hd]
    exact shifted_step hP hI

/-- Half-way through adding up: offsets below `i`, counts from there on. -/
structure Summed (P i : Nat) (VI V : Array Nat) (es : List (Nat × Nat)) : Prop where
  size : V.size = P
  done : ∀ k < i, V[k]! = below es k
  rest : ∀ k, i ≤ k → k < P → V[k]! = VI[k]!

theorem shifted_sum {VI : Array Nat} (hP : 1 ≤ P) (h : Shifted P VI es) :
    ∃ VI', forRange 1 P (fun i VI => do store VI i ((← VI[i]?) + (← VI[i - 1]?))) VI = some VI' ∧
      Summed P P VI VI' es := by
  refine forRange_rule (fun i V => Summed P i VI V es) hP ⟨h.size, fun k hk => ?_, fun _ _ _ => rfl⟩
    fun i V hl hi hI => ?_
  · obtain rfl : k = 0 := by omega
    rw [h.zero, below_zero]
  · obtain ⟨hs, hlo, hhi⟩ := hI
    obtain ⟨j, rfl⟩ : ∃ j, i = j + 1 := ⟨i - 1, by omega⟩
    have h1 : j + 1 < V.size := by omega
    have h2 : j < V.size := by omega
    refine ⟨V.setIfInBounds (j + 1) (V[j + 1]! + V[j]!), ?_, by simpa using hs, ?_, ?_⟩
    · simp only [Nat.add_sub_cancel, read_eq h1, read_eq h2, store_eq h1, Option.bind_eq_bind,
        Option.bind_some]
    · intro k hk
      rw [put_get h1]
      split_ifs with hkj
      · rw [hkj, hhi (j + 1) le_rfl hi, h.count j hi, hlo j (by omega), below_succ, Nat.add_comm]
      · exact hlo k (by omega)
    · intro k hk hkP
      rw [put_get h1, if_neg (by omega)]
      exact hhi k (by omega) hkP

structure Reversed (P : Nat) (G1 G2 : Graph) : Prop where
  numVertex : G2.numVertex = P
  numEdges : G2.numEdges = G1.numEdges
  weights : G2.weights = G1.weights
  sizeVI : G2.VI.size = P
  sizeEI : G2.EI.size = G1.numEdges
  csr : G2.Csr G1.numVertex
  rows : ∀ p < P, G2.row p = group (G1.edges.map Prod.swap) p

theorem forRows_scatter {VI : Array Nat} (h : G1.Csr P) (hes : G1.edges.map Prod.swap = es)
    (hkeys : ∀ e ∈ es, e.1 < P) (ho : Offsets P VI es) :
    ∃ st, forRange 0 G1.numVertex (fun i st => do
        forRange (← G1.VI[i]?) (← G1.rowEnd i) (fun j st => do
          scatter VI (← G1.EI[j]?) i st) st)
        (Array.replicate G1.numEdges 0, Array.replicate P 0) = some st ∧
      Scattered P VI G1.numEdges es st := by
  have hlen : es.length = G1.numEdges := by rw [← hes, List.length_map, h.edges_length]
  subst hes
  refine Graph.forRows_rule h (fun done st => Scattered P VI G1.numEdges (done.map Prod.swap) st)
    (scattered_nil (by simp) (by simp) fun k hk => replicate_get P k 0 hk) ?_ le_rfl
  intro done v j rest st _ hd hj hI
  have hsplit : G1.edges.map Prod.swap =
      done.map Prod.swap ++ (G1.EI[j]!, v) :: rest.map Prod.swap := by
    rw [hd]
    simp
  have hmem : (G1.EI[j]!, v) ∈ G1.edges.map Prod.swap := by
    rw [hsplit]
    simp
  obtain ⟨st', hst, hI'⟩ := scatter_step ho hsplit (hkeys _ hmem) hlen.le hI
  refine ⟨st', ?_, by simpa using hI'⟩
  rw [read_eq hj]
  exact hst

theorem swap_edges_lt (h : G1.Csr P) {e : Nat × Nat} (he : e ∈ G1.edges.map Prod.swap) :
    e.1 < P ∧ e.2 < G1.numVertex := by
  obtain ⟨d, hd, rfl⟩ := List.mem_map.mp he
  obtain ⟨hv, hx⟩ := Graph.mem_edges.mp hd
  exact ⟨h.row_lt hv hx, hv⟩

theorem reverse_offsets (h : G1.Csr P) (hP : 1 ≤ P) :
    ∃ counts VI, forRange 0 G1.numEdges (fun i VI => do
        let e ← G1.EI[i]?
        if e < usub P 1 then incr VI (e + 1) else some VI) (Array.replicate P 0) = some counts ∧
      forRange 1 P (fun i VI => do store VI i ((← VI[i]?) + (← VI[i - 1]?))) counts = some VI ∧
      VI.size = P ∧ Offsets P VI (G1.edges.map Prod.swap) := by
  have hlen : (G1.edges.map Prod.swap).length = G1.numEdges := by
    rw [List.length_map, h.edges_length]
  have hkey : (G1.edges.map Prod.swap).map Prod.fst = slice G1.EI 0 G1.numEdges := by
    rw [List.map_map, ← h.edges_snd]
    rfl
  have hread (done : List (Nat × Nat)) (e : Nat × Nat) (rest : List (Nat × Nat))
      (hd : G1.edges.map Prod.swap = done ++ e :: rest) : G1.EI[done.length]? = some e.1 := by
    have hlt : done.length < G1.numEdges := by
      rw [← hlen, hd]
      simp
    have hget := congrArg (fun l => l[done.length]?) hkey
    have hcells := h.cells
    simp only [hd, List.map_append, List.map_cons, slice] at hget
    rw [read_eq (by omega)]
    simpa [hlt] using hget.symm
  obtain ⟨counts, hcounts, hshift⟩ := shifted_run hP (fun i => G1.EI[i]?) hread
  obtain ⟨VI, hVI, hsum⟩ := shifted_sum hP hshift
  rw [hlen] at hcounts
  exact ⟨counts, VI, hcounts, hVI, hsum.size, hsum.size.ge, hsum.done⟩

theorem createReverseCSR_spec (h : G1.Csr P) (hP : 1 ≤ P) (hword : P < 2 ^ 32) :
    ∃ G2, createReverseCSR G1 P = some G2 ∧ Reversed P G1 G2 := by
  obtain ⟨counts, VI, hcounts, hVI, hsize, ho⟩ := reverse_offsets h hP
  generalize hes : G1.edges.map Prod.swap = es at ho
  have hlen : es.length = G1.numEdges := by rw [← hes, List.length_map, h.edges_length]
  have hlt (e : Nat × Nat) (he : e ∈ es) : e.1 < P ∧ e.2 < G1.numVertex :=
    swap_edges_lt h (by rw [hes]; exact he)
  have hkeys (e : Nat × Nat) (he : e ∈ es) : e.1 < P := (hlt e he).1
  obtain ⟨⟨EI, fill⟩, hEI, hs⟩ := forRows_scatter h hes hkeys ho
  refine ⟨{ G1 with numVertex := P, VI, EI }, ?_, rfl, rfl, rfl, hsize, hs.size, ?_, ?_⟩
  · simp only [createReverseCSR, hcounts, hVI, hEI, some_bind]
  · exact @Graph.csr_of_scattered { G1 with numVertex := P, VI, EI } es fill _ hP ho hlen
      hkeys (fun e he => (hlt e he).2) hs hword h.edgeWord
  · intro p hp
    rw [hes]
    exact @Graph.row_of_scattered { G1 with numVertex := P, VI, EI } es fill ho hlen hkeys
      hs p hp

theorem Reversed.count {G2 : Graph} (h : Reversed P G1 G2) {v p : Nat} (hv : v < G1.numVertex)
    (hp : p < P) : (G2.row p).count v = (G1.row v).count p := by
  have hswap : (G1.edges.map Prod.swap).count (p, v) = G1.edges.count (v, p) :=
    List.count_map_of_injective G1.edges Prod.swap Prod.swap_injective (v, p)
  rw [h.rows p hp, count_group, hswap, ← count_group, Graph.group_edges G1 hv]

end GraphReorder
