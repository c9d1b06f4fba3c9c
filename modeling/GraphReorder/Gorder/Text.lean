import GraphReorder.Gorder.Transform

/-! The text that `readGraph` reads, with its buffer of 40 characters, and the lines that are
written. -/
namespace GraphReorder.Gorder
open Library

/-- `fgets(line, k+1, fp)`: what it takes, and what is left. -/
def fgets : Nat → List Char → List Char × List Char
  | 0, fp => ([], fp)
  | _ + 1, [] => ([], [])
  | k + 1, c :: fp =>
    if c = '\n' then (['\n'], fp) else (c :: (fgets k fp).1, (fgets k fp).2)

/-- `while(isdigit(*str)) n=n*10+(*str++-'0');`, a fault past the end of the buffer and for numbers
that are no `int`. -/
def digits (n : Nat) : List Char → Option (Nat × List Char)
  | [] => none
  | c :: str =>
    if c.isDigit then
      if 10 * n + (c.toNat - '0'.toNat) ≤ 2147483647 then
        digits (10 * n + (c.toNat - '0'.toNat)) str
      else none
    else some (n, c :: str)

structure Scan where
  fp : List Char
  line : List Char
  edges : List (Nat × Nat) := []
  vsize : Nat := 0

/-- One round of `while(feof(fp)!=true)`. What `fgets` does not write stays in the buffer. -/
def scanStep (s : Scan) : Option (Scan ⊕ Scan) := do
  let (chunk, fp) := fgets 39 s.fp
  if chunk = [] then pure (.inr s)
  else
    let line := chunk ++ '\x00' :: s.line.drop (chunk.length + 1)
    let (u, str) ← digits 0 line
    let (v, _) ← digits 0 (str.drop 1)
    let next : Scan :=
      if u = v then { s with fp, line }
      else { fp, line, edges := s.edges ++ [(u, v)], vsize := max (max s.vsize u) v }
    if fp = [] ∧ chunk.length < 39 ∧ '\n' ∉ chunk then pure (.inr next) else pure (.inl next)

def readEdges (fp line : List Char) : Option Scan :=
  loop scanStep (fp.length + 1) { fp, line }

/-- `line` is what the buffer holds before anything is read into it. The sizes are `int`s, that of
`graph.resize(vsize+1)` with `vsize` already counted up too, and so are the starts of the rows. -/
def readGraph (std : StdSort) (fp line : List Char) : Option Graph := do
  let s ← readEdges fp line
  if s.vsize + 1 < 2147483647 ∧ s.edges.length ≤ 2147483647 then
    Graph.ofEdges std (s.vsize + 1) s.edges
  else none

def printEdge (u v : Nat) : List Char := Nat.toDigits 10 u ++ '\t' :: (Nat.toDigits 10 v ++ ['\n'])

section Reading
variable {u v k : Nat} {ds rest line fp : List Char} {es : List (Nat × Nat)} {s : Scan}

theorem fgets_line (hl : '\n' ∉ line) (hk : line.length < k) (rest : List Char) :
    fgets k (line ++ '\n' :: rest) = (line ++ ['\n'], rest) := by
  induction line generalizing k with
  | nil =>
    obtain ⟨k, rfl⟩ : ∃ j, k = j + 1 := ⟨k - 1, by simp at hk; omega⟩
    simp [fgets]
  | cons c line ih =>
    obtain ⟨k, rfl⟩ : ∃ j, k = j + 1 := ⟨k - 1, by simp at hk; omega⟩
    obtain ⟨hc, hl⟩ := not_or.mp (mt List.mem_cons.mpr hl)
    rw [List.cons_append, fgets, if_neg (Ne.symm hc),
      ih hl (by rw [List.length_cons] at hk; omega)]
    rfl

theorem ofDigitChars_ge (ds : List Char) (n : Nat) : n ≤ Nat.ofDigitChars 10 ds n := by
  induction ds generalizing n with
  | nil => exact le_rfl
  | cons c ds ih =>
    rw [Nat.ofDigitChars_cons]
    exact (by omega : n ≤ 10 * n + (c.toNat - '0'.toNat)).trans (ih _)

theorem digits_read (hd : ∀ c ∈ ds, c.isDigit = true) {c : Char} (hc : c.isDigit = false)
    (n : Nat) (hmax : Nat.ofDigitChars 10 ds n ≤ 2147483647) :
    digits n (ds ++ c :: rest) = some (Nat.ofDigitChars 10 ds n, c :: rest) := by
  induction ds generalizing n with
  | nil => rw [List.nil_append, digits, if_neg (by rw [hc]; exact Bool.false_ne_true)]; rfl
  | cons d ds ih =>
    rw [Nat.ofDigitChars_cons] at hmax ⊢
    rw [List.cons_append, digits, if_pos (hd d List.mem_cons_self),
      if_pos ((ofDigitChars_ge ds _).trans hmax)]
    exact ih (fun c hc => hd c (List.mem_cons_of_mem d hc)) _ hmax

theorem digits_toDigits (hu : u ≤ 2147483647) {c : Char} (hc : c.isDigit = false) :
    digits 0 (Nat.toDigits 10 u ++ c :: rest) = some (u, c :: rest) := by
  have hval : Nat.ofDigitChars 10 (Nat.toDigits 10 u) 0 = u := Nat.ofDigitChars_ten_toDigits
  have hread : digits 0 (Nat.toDigits 10 u ++ c :: rest) =
      some (Nat.ofDigitChars 10 (Nat.toDigits 10 u) 0, c :: rest) := digits_read
    (fun c hc => Nat.isDigit_of_mem_toDigits (by decide) (by decide) hc) hc 0 (hval.trans_le hu)
  rwa [hval] at hread

theorem toDigits_short (hu : u ≤ 2147483647) : (Nat.toDigits 10 u).length ≤ 10 :=
  (Nat.length_toDigits_le_iff (by decide) (by decide)).mpr (by omega)

theorem printEdge_line (u v : Nat) : ∃ l, printEdge u v = l ++ ['\n'] ∧ '\n' ∉ l ∧
    l.length = (Nat.toDigits 10 u).length + 1 + (Nat.toDigits 10 v).length := by
  have hdigit {n : Nat} (h : '\n' ∈ Nat.toDigits 10 n) : False := by
    have := Nat.isDigit_of_mem_toDigits (by decide) (by decide) h
    exact absurd this (by decide)
  refine ⟨Nat.toDigits 10 u ++ '\t' :: Nat.toDigits 10 v, by simp [printEdge], fun h => ?_, ?_⟩
  · cases List.mem_append.mp h with
    | inl h => exact hdigit h
    | inr h =>
      cases List.mem_cons.mp h with
      | inl h => exact absurd h (by decide)
      | inr h => exact hdigit h
  · simp only [List.length_append, List.length_cons]
    omega

/-- A printed edge is read in one round, whatever the buffer held. -/
theorem scanStep_edge (s : Scan) (hfp : s.fp = printEdge u v ++ rest) (hu : u ≤ 2147483647)
    (hv : v ≤ 2147483647) :
    ∃ line, scanStep s = some (.inl (if u = v then { s with fp := rest, line }
      else ⟨rest, line, s.edges ++ [(u, v)], max (max s.vsize u) v⟩)) := by
  obtain ⟨l, hl, hnl, hlen⟩ := printEdge_line u v
  have hshort := toDigits_short hu
  have hshort' := toDigits_short hv
  have hget : fgets 39 s.fp = (l ++ ['\n'], rest) := by
    rw [hfp, hl, List.append_assoc]
    exact fgets_line hnl (by omega) rest
  have hline (tail : List Char) : digits 0 (l ++ ['\n'] ++ tail) =
      some (u, '\t' :: (Nat.toDigits 10 v ++ '\n' :: tail)) := by
    rw [← hl, printEdge, List.append_assoc, List.cons_append, List.append_assoc]
    exact digits_toDigits hu (by decide)
  have hrest (tail : List Char) : digits 0 (Nat.toDigits 10 v ++ '\n' :: tail) =
      some (v, '\n' :: tail) := digits_toDigits hv (by decide)
  refine ⟨l ++ ['\n'] ++ '\x00' :: s.line.drop ((l ++ ['\n']).length + 1), ?_⟩
  simp only [scanStep, hget, hline, List.drop_one, List.tail_cons, hrest, some_bind]
  rw [if_neg (by simp), if_neg fun h => h.2.2 (by simp)]
  rfl

def proper (es : List (Nat × Nat)) : List (Nat × Nat) := es.filter fun e => decide (e.1 ≠ e.2)

def highest (m : Nat) (es : List (Nat × Nat)) : Nat := es.foldl (fun m e => max (max m e.1) e.2) m

def printed (es : List (Nat × Nat)) : List Char := es.flatMap fun e => printEdge e.1 e.2

theorem highest_lt {m n : Nat} (hm : m < n) (hin : ∀ e ∈ es, e.1 < n ∧ e.2 < n) :
    highest m es < n := by
  induction es generalizing m with
  | nil => exact hm
  | cons e es ih =>
    obtain ⟨h₁, h₂⟩ := hin e List.mem_cons_self
    exact ih (max_lt (max_lt hm h₁) h₂) fun e he => hin e (List.mem_cons_of_mem _ he)

theorem le_highest (m : Nat) (es : List (Nat × Nat)) :
    m ≤ highest m es ∧ ∀ e ∈ es, e.1 ≤ highest m es ∧ e.2 ≤ highest m es := by
  induction es generalizing m with
  | nil => exact ⟨le_rfl, fun e he => absurd he List.not_mem_nil⟩
  | cons e es ih =>
    obtain ⟨hm, hes⟩ := ih (max (max m e.1) e.2)
    have hle : max (max m e.1) e.2 ≤ highest m (e :: es) := hm
    refine ⟨by omega, fun e' he' => ?_⟩
    cases List.mem_cons.mp he' with
    | inl he => subst he; omega
    | inr he => exact hes e' he

theorem scan_printed (hmax : ∀ e ∈ es, e.1 ≤ 2147483647 ∧ e.2 ≤ 2147483647) (s : Scan)
    (hfp : s.fp = printed es) {fuel : Nat} (hfuel : es.length < fuel) :
    ∃ line, loop scanStep fuel s =
      some ⟨[], line, s.edges ++ proper es, highest s.vsize (proper es)⟩ := by
  induction es generalizing s fuel with
  | nil =>
    obtain ⟨fuel, rfl⟩ : ∃ j, fuel = j + 1 := ⟨fuel - 1, by rw [List.length_nil] at hfuel; omega⟩
    obtain ⟨fp, line, edges, vsize⟩ := s
    obtain rfl : fp = [] := hfp
    exact ⟨line, by rw [proper, List.filter_nil, List.append_nil]; rfl⟩
  | cons e es ih =>
    obtain ⟨fuel, rfl⟩ : ∃ j, fuel = j + 1 := ⟨fuel - 1, by rw [List.length_cons] at hfuel; omega⟩
    obtain ⟨hu, hv⟩ := hmax e List.mem_cons_self
    have hline : s.fp = printEdge e.1 e.2 ++ printed es := hfp
    obtain ⟨line, hstep⟩ := scanStep_edge s hline hu hv
    have hrest (s' : Scan) (hs' : s'.fp = printed es) :=
      ih (fun e he => hmax e (List.mem_cons_of_mem _ he)) s' hs'
        (show es.length < fuel by rw [List.length_cons] at hfuel; omega)
    rw [loop, hstep, some_bind]
    by_cases he : e.1 = e.2
    · have hskip : proper (e :: es) = proper es := List.filter_cons_of_neg (by simpa using he)
      rw [if_pos he, hskip]
      exact hrest { s with fp := printed es, line } rfl
    · have hkeep : proper (e :: es) = e :: proper es := List.filter_cons_of_pos (by simpa using he)
      obtain ⟨line', hloop⟩ := hrest
        ⟨printed es, line, s.edges ++ [(e.1, e.2)], max (max s.vsize e.1) e.2⟩ rfl
      refine ⟨line', ?_⟩
      rw [if_neg he, hkeep]
      simp only [List.append_assoc, List.singleton_append] at hloop
      exact hloop

theorem length_printed (es : List (Nat × Nat)) : es.length ≤ (printed es).length := by
  induction es with
  | nil => exact le_rfl
  | cons e es ih =>
    have hpos : 1 ≤ (printEdge e.1 e.2).length := by simp [printEdge]; omega
    rw [printed, List.flatMap_cons, List.length_append, List.length_cons, Nat.add_comm]
    exact Nat.add_le_add hpos ih

theorem readEdges_printed (es : List (Nat × Nat))
    (hmax : ∀ e ∈ es, e.1 ≤ 2147483647 ∧ e.2 ≤ 2147483647)
    (line : List Char) : ∃ line', readEdges (printed es) line =
      some ⟨[], line', proper es, highest 0 (proper es)⟩ :=
  scan_printed hmax ⟨printed es, line, [], 0⟩ rfl (Nat.lt_succ_of_le (length_printed es))

theorem digits_le {n m : Nat} {str rest : List Char} (h : digits n str = some (m, rest))
    (hn : n ≤ 2147483647) : m ≤ 2147483647 := by
  induction str generalizing n with
  | nil => cases h
  | cons c str ih =>
    rw [digits] at h
    split_ifs at h with hc hmax
    · exact ih h hmax
    · cases h
      exact hn

theorem highest_concat (m : Nat) (es : List (Nat × Nat)) (e : Nat × Nat) :
    highest m (es ++ [e]) = max (max (highest m es) e.1) e.2 := List.foldl_concat ..

/-- What holds of the edges that have been read from any text. -/
structure Wellformed (s : Scan) : Prop where
  vsize : s.vsize = highest 0 s.edges
  proper : ∀ e ∈ s.edges, e.1 ≠ e.2
  inside : s.vsize ≤ 2147483647

theorem Wellformed.le (h : Wellformed s) {e : Nat × Nat} (he : e ∈ s.edges) :
    e.1 ≤ s.vsize ∧ e.2 ≤ s.vsize := h.vsize ▸ (le_highest 0 s.edges).2 e he

theorem Wellformed.next (h : Wellformed s) (hu : u ≤ 2147483647) (hv : v ≤ 2147483647)
    (fp line : List Char) : Wellformed (if u = v then { s with fp, line }
      else ⟨fp, line, s.edges ++ [(u, v)], max (max s.vsize u) v⟩) := by
  by_cases huv : u = v
  · rw [if_pos huv]
    exact ⟨h.vsize, h.proper, h.inside⟩
  · rw [if_neg huv]
    refine ⟨?_, fun e he => ?_, max_le (max_le h.inside hu) hv⟩
    · rw [highest_concat, ← h.vsize]
    · cases List.mem_append.mp he with
      | inl he => exact h.proper e he
      | inr he =>
        obtain rfl := List.mem_singleton.mp he
        exact huv

theorem readEdges_wellformed (h : readEdges fp line = some s) : Wellformed s := by
  refine loop_some Wellformed Wellformed (fun s r hs hr => ?_) h
    ⟨rfl, fun e he => absurd he List.not_mem_nil, Nat.zero_le _⟩
  simp only [scanStep] at hr
  by_cases hend : (fgets 39 s.fp).1 = []
  · rw [if_pos hend] at hr
    cases hr
    exact hs
  · rw [if_neg hend] at hr
    obtain ⟨⟨u, str⟩, hu, hr⟩ := Option.bind_eq_some_iff.mp hr
    obtain ⟨⟨v, _⟩, hv, hr⟩ := Option.bind_eq_some_iff.mp hr
    have hnext := hs.next (digits_le hu (Nat.zero_le _)) (digits_le hv (Nat.zero_le _))
    by_cases hlast : (fgets 39 s.fp).2 = [] ∧ (fgets 39 s.fp).1.length < 39 ∧
        '\n' ∉ (fgets 39 s.fp).1
    · rw [if_pos hlast] at hr
      cases hr
      exact hnext _ _
    · rw [if_neg hlast] at hr
      cases hr
      exact hnext _ _

theorem readGraph_spec (std : StdSort) (hread : readEdges fp line = some s)
    (hd : s.edges.Nodup) (hmax : s.vsize + 1 < 2147483647)
    (hedges : s.edges.length ≤ 2147483647) :
    ∃ g, readGraph std fp line = some g ∧ g.vsize = s.vsize + 1 ∧ g.edgenum = s.edges.length ∧
      g.outedge.size = s.edges.length ∧ g.Outgoing ∧
      ∀ u < g.vsize, ∀ v, v ∈ g.outs u ↔ (u, v) ∈ s.edges := by
  obtain ⟨g, hrun, hn, hm, hs, hg, hmem⟩ := ofEdges_spec std (Nat.succ_pos s.vsize) hd
    fun e he => by
      obtain ⟨h₁, h₂⟩ := (readEdges_wellformed hread).le he
      omega
  refine ⟨g, ?_, hn, hm, hs, hg, fun u hu => hmem u (hn ▸ hu)⟩
  rw [readGraph, hread, some_bind, if_pos ⟨hmax, hedges⟩]
  exact hrun

end Reading

end GraphReorder.Gorder
