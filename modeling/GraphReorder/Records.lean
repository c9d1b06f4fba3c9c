import Mathlib.Data.List.TakeWhile
import GraphReorder.ReadCsr

/-! What `read_edge_list` makes of any file of tokens: complete records, and a torn one after
them. -/
namespace GraphReorder
open Library

def recordSize (weighted : Bool) : Nat := if weighted then 3 else 2

def leading : List Token → Nat
  | .int _ :: fp => leading fp + 1
  | _ => 0

def completePairs : List Token → List Record
  | .int s :: .int d :: fp => ⟨s.toNat, d.toNat, 0⟩ :: completePairs fp
  | _ => []

def completeTriples : List Token → List Record
  | .int s :: .int d :: .int w :: fp => ⟨s.toNat, d.toNat, w⟩ :: completeTriples fp
  | _ => []

/-- The maximal prefix of complete records. -/
def completeRecords (weighted : Bool) (fp : List Token) : List Record :=
  if weighted then completeTriples fp else completePairs fp

/-- The text begins with an integer: a digit, or a sign and a digit. -/
def startsInt : List Char → Bool
  | '-' :: c :: _ => c.isDigit
  | '+' :: c :: _ => c.isDigit
  | c :: _ => c.isDigit
  | [] => false

/-- The file is a list of records, and a tail that is too short for another one. -/
inductive Split (weighted : Bool) : List Token → List Record → List Token → Prop where
  | torn {tail : List Token} (short : leading tail < recordSize weighted) :
      Split weighted tail [] tail
  | next {e : Record} {fp tail : List Token} {L : List Record}
      (ids : e.src < 2 ^ 31 - 1 ∧ e.dst < 2 ^ 31 - 1) (rest : Split weighted fp L tail) :
      Split weighted (e.tokens weighted ++ fp) (e :: L) tail

section Split
variable {weighted : Bool} {fp tail : List Token} {L : List Record}

theorem leading_tokens (e : Record) (fp : List Token) :
    leading (e.tokens weighted ++ fp) = leading fp + recordSize weighted := by
  cases weighted <;> rfl

theorem leading_succ {k : Nat} (h : k + 1 ≤ leading fp) :
    ∃ v fp', fp = .int v :: fp' ∧ k ≤ leading fp' := by
  cases fp with
  | nil => exact absurd h (Nat.not_succ_le_zero k)
  | cons t fp =>
    cases t with
    | int v => exact ⟨v, fp, rfl, Nat.le_of_succ_le_succ h⟩
    | word text => exact absurd h (Nat.not_succ_le_zero k)

theorem Split.leading_mod (h : Split weighted fp L tail) :
    leading fp % recordSize weighted = leading tail := by
  induction h with
  | torn short => exact Nat.mod_eq_of_lt short
  | next ids rest ih => rw [leading_tokens, Nat.add_mod_right, ih]

theorem Split.behind (h : Split weighted fp L tail) : tail[leading tail]? = fp[leading fp]? := by
  induction h with
  | torn short => rfl
  | @next e fp tail L ids rest ih =>
    have hlen : (e.tokens weighted).length = recordSize weighted := by cases weighted <;> rfl
    rw [leading_tokens, ih, List.getElem?_append_right (by omega), hlen, Nat.add_sub_cancel]

theorem Split.ids_lt (h : Split weighted fp L tail) :
    ∀ e ∈ L, e.src < 2 ^ 31 - 1 ∧ e.dst < 2 ^ 31 - 1 := by
  induction h with
  | torn short => simp
  | next ids rest ih =>
    intro x hx
    cases hx with
    | head => exact ids
    | tail _ hx => exact ih x hx

theorem Split.length_le (h : Split weighted fp L tail) : L.length ≤ (fp.map Token.span).sum := by
  induction h with
  | torn short => exact Nat.zero_le _
  | @next e fp tail L ids rest ih =>
    have htok : 1 ≤ ((e.tokens weighted).map Token.span).sum := by
      cases weighted <;> exact Nat.le_add_right 1 _
    rw [List.length_cons, List.map_append, List.sum_append]
    omega

theorem Split.of_ids {s d w : Int} (hs : 0 ≤ s ∧ s < 2 ^ 31 - 1) (hd : 0 ≤ d ∧ d < 2 ^ 31 - 1)
    (h : Split weighted fp L tail) :
    Split weighted (.int s :: .int d :: ((if weighted then [.int w] else []) ++ fp))
      (⟨s.toNat, d.toNat, w⟩ :: L) tail := by
  have htokens : Token.int s :: .int d :: ((if weighted then [.int w] else []) ++ fp) =
      Record.tokens weighted ⟨s.toNat, d.toNat, w⟩ ++ fp := by
    rw [Record.tokens, Int.toNat_of_nonneg hs.1, Int.toNat_of_nonneg hd.1]
    rfl
  have hids : s.toNat < 2 ^ 31 - 1 ∧ d.toNat < 2 ^ 31 - 1 := by omega
  rw [htokens]
  exact .next hids h

variable (hfp : ∀ v, Token.int v ∈ fp → 0 ≤ v ∧ v < 2 ^ 31 - 1)
include hfp

theorem split_pairs : ∃ tail, Split false fp (completePairs fp) tail := by
  fun_induction completePairs fp with
  | case1 s d fp ih =>
    obtain ⟨tail, hrest⟩ := ih fun v hv => hfp v (by simp [hv])
    exact ⟨tail, hrest.of_ids (hfp s (by simp)) (hfp d (by simp))⟩
  | case2 fp hno =>
    refine ⟨fp, .torn ?_⟩
    by_contra hlong
    have hlong : 2 ≤ leading fp := Nat.le_of_not_lt hlong
    obtain ⟨s, fp, rfl, hlong'⟩ := leading_succ hlong
    obtain ⟨d, fp, rfl, _⟩ := leading_succ hlong'
    exact hno s d fp rfl

theorem split_triples : ∃ tail, Split true fp (completeTriples fp) tail := by
  fun_induction completeTriples fp with
  | case1 s d w fp ih =>
    obtain ⟨tail, hrest⟩ := ih fun v hv => hfp v (by simp [hv])
    exact ⟨tail, hrest.of_ids (hfp s (by simp)) (hfp d (by simp))⟩
  | case2 fp hno =>
    refine ⟨fp, .torn ?_⟩
    by_contra hlong
    have hlong : 3 ≤ leading fp := Nat.le_of_not_lt hlong
    obtain ⟨s, fp, rfl, hlong'⟩ := leading_succ hlong
    obtain ⟨d, fp, rfl, hlong''⟩ := leading_succ hlong'
    obtain ⟨w, fp, rfl, _⟩ := leading_succ hlong''
    exact hno s d w fp rfl

/-- Every file splits into its complete records and a torn tail. -/
theorem split_complete (weighted : Bool) :
    ∃ tail, Split weighted fp (completeRecords weighted fp) tail := by
  cases weighted with
  | false => exact split_pairs hfp
  | true => exact split_triples hfp

end Split

section Run
variable {weighted : Bool} {fp tail : List Token} {L done : List Record} {r : Reading}

structure Stored (weighted : Bool) (done : List Record) (fp : List Token) (r : Reading) : Prop where
  fp : r.fp = fp
  edges : r.edges = edgesOf weighted done
  numVertex : r.numVertex = largest done

theorem Stored.next {e : Record} (he : e.src < 2 ^ 31 ∧ e.dst < 2 ^ 31)
    (h : Stored weighted done (e.tokens weighted ++ fp) r) :
    ∃ r', readRecord (fun _ _ => true) weighted r = some (.inl r') ∧
      Stored weighted (done ++ [e]) fp r' := by
  refine ⟨_, readRecord_next _ weighted he h.fp, rfl, ?_, ?_⟩
  · rw [edgesOf_concat, h.edges]
    rfl
  · rw [largest_concat, ← h.numVertex]

theorem Split.run (h : Split weighted fp L tail) (hr : Stored weighted done fp r) (fuel : Nat) :
    ∃ r', loop (readRecord (fun _ _ => true) weighted) (L.length + fuel) r =
        loop (readRecord (fun _ _ => true) weighted) fuel r' ∧
      Stored weighted (done ++ L) tail r' := by
  induction h generalizing done r with
  | torn short =>
    rw [List.length_nil, Nat.zero_add, List.append_nil]
    exact ⟨r, rfl, hr⟩
  | @next e fp tail L ids rest ih =>
    obtain ⟨r₁, hstep, hr₁⟩ := hr.next (by omega)
    obtain ⟨r', hrun, hr'⟩ := ih hr₁
    rw [List.append_assoc, List.singleton_append] at hr'
    have hlen : (e :: L).length + fuel = L.length + fuel + 1 := by
      rw [List.length_cons]
      omega
    refine ⟨r', ?_, hr'⟩
    rw [hlen, loop, hstep]
    exact hrun

theorem scanInt_startsInt (text : List Char) : (scanInt text).1 = none ↔ startsInt text = false := by
  have hdigits (body : List Char) : body.takeWhile Char.isDigit = [] ↔
      (body.head?.map Char.isDigit).getD false = false := by
    cases body with
    | nil => simp
    | cons c body => cases hc : c.isDigit <;> simp [hc]
  have hsign : (scanInt text).1 = none ↔ (scanSign text).2.takeWhile Char.isDigit = [] := by
    simp [scanInt]
  rw [hsign, hdigits]
  fun_cases startsInt text with
  | case1 c rest => rfl
  | case2 c rest => rfl
  | case3 c rest hminus hplus =>
    by_cases hm : c = '-'
    · subst hm
      cases rest with
      | nil => decide
      | cons d rest => exact (hminus d rest rfl rfl).elim
    · by_cases hp : c = '+'
      · subst hp
        cases rest with
        | nil => decide
        | cons d rest => exact (hplus d rest rfl rfl).elim
      · rw [scanSign]
        · rfl
        · exact fun t ht => hm (List.cons.inj ht).1
        · exact fun t ht => hp (List.cons.inj ht).1
  | case4 => decide

theorem fscanf_none : (fscanf fp).1 = none ↔
    leading fp = 0 ∧ ∀ text, fp[leading fp]? = some (.word text) → startsInt text = false := by
  cases fp with
  | nil => simp [fscanf, leading]
  | cons t fp =>
    cases t with
    | int v => simp [fscanf, leading]
    | word text => simp [fscanf, leading, scanInt_startsInt]

theorem fscanf_numeral (v : Nat) (fp : List Token) :
    fscanf (.word (Nat.toDigits 10 v) :: fp) = fscanf (.int v :: fp) := by
  have hall : ∀ c ∈ Nat.toDigits 10 v, c.isDigit = true := fun c hc =>
    Nat.isDigit_of_mem_toDigits (by decide) (by decide) hc
  have hne : Nat.toDigits 10 v ≠ [] := List.ne_nil_of_length_pos Nat.length_toDigits_pos
  have hvalue : Nat.ofDigitChars 10 (Nat.toDigits 10 v) 0 = v := Nat.ofDigitChars_ten_toDigits
  have hsign : scanSign (Nat.toDigits 10 v) = (false, Nat.toDigits 10 v) := by
    rw [scanSign]
    · intro text h
      exact absurd (hall '-' (h ▸ List.mem_cons_self)) (by decide)
    · intro text h
      exact absurd (hall '+' (h ▸ List.mem_cons_self)) (by decide)
  have hdigits := List.takeWhile_eq_self_iff.mpr hall
  have hrest := List.dropWhile_eq_nil_iff.mpr hall
  simp [fscanf, scanInt, hsign, hdigits, hrest, hne, hvalue]

example : fscanf [.word ['1', '2', '-', '5'], .int 3] = (some 12, [.word ['-', '5'], .int 3]) := by
  decide

/-- A round stops in front of what is no integer, and otherwise stores an edge, made of what else it
finds and of old values. -/
theorem readRecord_cases {next : Reading ⊕ Reading}
    (h : readRecord (fun _ _ => true) weighted r = some next) :
    ((fscanf r.fp).1 = none ∧ next = .inr r) ∨
      ∃ srcVal r', (fscanf r.fp).1 = some srcVal ∧ next = .inl r' ∧
        r'.edges.src = r.edges.src.push srcVal := by
  rw [readRecord] at h
  cases hfirst : fscanf r.fp with
  | mk value fp =>
    rw [hfirst] at h
    cases value with
    | none =>
      cases h
      exact .inl ⟨rfl, rfl⟩
    | some srcVal =>
      right
      cases weighted with
      | false =>
        cases h
        exact ⟨srcVal, _, rfl, rfl, rfl⟩
      | true =>
        obtain ⟨w, _, h⟩ := Option.bind_eq_some_iff.mp h
        cases h
        exact ⟨srcVal, _, rfl, rfl, rfl⟩

theorem loop_grows {fuel : Nat} {r' : Reading}
    (h : loop (readRecord (fun _ _ => true) weighted) fuel r = some r') :
    r.edges.src.size ≤ r'.edges.src.size := by
  refine loop_some (fun b : Reading => r.edges.src.size ≤ b.edges.src.size)
    (fun b : Reading => r.edges.src.size ≤ b.edges.src.size) (fun b next hb hstep => ?_) h le_rfl
  obtain ⟨_, rfl⟩ | ⟨srcVal, b', _, rfl, hpush⟩ := readRecord_cases hstep
  · exact hb
  · change r.edges.src.size ≤ b'.edges.src.size
    rw [hpush, Array.size_push]
    omega

end Run

/-- The reader returns the complete records in front of the file, and nothing else, exactly when
the integers before the end or the first other text fill records, and that text does not begin with
an integer. -/
theorem readEdgeList_iff (weighted : Bool) (fp : List Token)
    (hfp : ∀ v, Token.int v ∈ fp → 0 ≤ v ∧ v < 2 ^ 31 - 1) :
    readEdgeList weighted fp = some (edgesOf weighted (completeRecords weighted fp),
        ((largest (completeRecords weighted fp) + 1 : Nat) : Int)) ↔
      leading fp % recordSize weighted = 0 ∧
        ∀ text, fp[leading fp]? = some (.word text) → startsInt text = false := by
  obtain ⟨tail, hsplit⟩ := split_complete hfp weighted
  have hids := hsplit.ids_lt
  generalize completeRecords weighted fp = L at hsplit hids
  have hlen := hsplit.length_le
  have hstart : Stored weighted [] fp { fp } := by
    refine ⟨rfl, ?_, rfl⟩
    cases weighted <;> rfl
  obtain ⟨k, hk⟩ : ∃ k, (fp.map Token.span).sum = L.length + k := ⟨_, (Nat.add_sub_of_le hlen).symm⟩
  obtain ⟨r, hrun, hr⟩ := hsplit.run hstart (k + 1)
  rw [List.nil_append] at hr
  rw [← Nat.add_assoc, ← hk] at hrun
  rw [hsplit.leading_mod, ← hsplit.behind, ← fscanf_none, ← hr.fp, readEdgeList, readRecords, hrun,
    loop]
  constructor
  · intro h
    by_contra hsome
    obtain ⟨r', hloop, hout⟩ := Option.bind_eq_some_iff.mp h
    obtain ⟨numVertex, _, hout⟩ := Option.bind_eq_some_iff.mp hout
    obtain ⟨next, hstep, hloop⟩ := Option.bind_eq_some_iff.mp hloop
    have hedges : r'.edges = edgesOf weighted L := congrArg Prod.fst (Option.some.inj hout)
    obtain ⟨hnone, _⟩ | ⟨srcVal, b, _, rfl, hpush⟩ := readRecord_cases hstep
    · exact hsome hnone
    · -- the stale edge makes the vectors one too long
      have hgrown := loop_grows hloop
      rw [hpush, hedges, hr.edges, Array.size_push] at hgrown
      omega
  · intro hnone
    have hstop : readRecord (fun _ _ => true) weighted r = some (.inr r) := by
      cases hfirst : fscanf r.fp with
      | mk value fp =>
        rw [hfirst] at hnone
        cases hnone
        rw [readRecord, hfirst]
    have hlargest : largest L < 2 ^ 31 - 1 := (largest_lt (by decide)).mpr hids
    rw [hstop, some_bind]
    change (do some (r.edges, ← intSucc (ofWord r.numVertex))) = _
    rw [hr.edges, hr.numVertex, ofWord_of_lt (by omega), intSucc, if_pos (by omega)]
    rfl

theorem readEdgeList_twoTriples : readEdgeList true
    [.int 4, .int 0, .int 9, .int 0, .int 4, .int 7, .word ['.', '5'], .int 3] =
      some (edgesOf true [⟨4, 0, 9⟩, ⟨0, 4, 7⟩], 5) := by
  refine (readEdgeList_iff true _ fun v hv => ?_).mpr ⟨by decide, fun text htext => ?_⟩
  · simp only [List.mem_cons, Token.int.injEq, reduceCtorEq, List.not_mem_nil, or_false, false_or]
      at hv
    omega
  · cases htext
    decide

/-- The third integer is half a record: its missing destination is taken from the record before. -/
theorem tornRecord_stored : readEdgeList false [.int 0, .int 1, .int 5] ≠
    some (edgesOf false (completeRecords false [.int 0, .int 1, .int 5]),
      ((largest (completeRecords false [.int 0, .int 1, .int 5]) + 1 : Nat) : Int)) := by
  intro h
  have hsize := congrArg (Option.map fun p => p.1.src.size) h
  exact absurd hsize (by decide)

end GraphReorder
