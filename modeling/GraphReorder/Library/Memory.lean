import Mathlib.Algebra.Group.Int.Defs
import Mathlib.Algebra.Group.Nat.Defs
import Mathlib.Data.List.Range
import Mathlib.Tactic.Common

/-! Word arithmetic, bounds-checked arrays and bounded loops, for any program
whose faults are modelled by `Option`. Nothing here mentions a particular program. -/
namespace GraphReorder.Library

/-- Subtraction of unsigned 32-bit words, for operands in range. -/
def usub (a b : Nat) : Nat := if b ≤ a then a - b else a + 2 ^ 32 - b

def uadd (a b : Nat) : Nat := (a + b) % 2 ^ 32

theorem usub_of_le {a b : Nat} (h : b ≤ a) : usub a b = a - b := if_pos h

theorem uadd_le (a b : Nat) : uadd a b ≤ a + b := Nat.mod_le _ _

theorem uadd_of_lt {a b : Nat} (h : a + b < 2 ^ 32) : uadd a b = a + b := Nat.mod_eq_of_lt h

section Arrays
variable {α : Type}

/-- A checked write: outside the array it is a fault. -/
def store (a : Array α) (i : Nat) (v : α) : Option (Array α) :=
  if i < a.size then some (a.setIfInBounds i v) else none

theorem store_eq {a : Array α} {i : Nat} {v : α} (h : i < a.size) :
    store a i v = some (a.setIfInBounds i v) := if_pos h

theorem store_none {a : Array α} {i : Nat} {v : α} (h : ¬ i < a.size) : store a i v = none :=
  if_neg h

variable [Inhabited α]

theorem read_eq {a : Array α} {i : Nat} (h : i < a.size) : a[i]? = some a[i]! := by
  simp [h]

theorem put_get {a : Array α} {i : Nat} (h : i < a.size) (v : α) (j : Nat) :
    (a.setIfInBounds i v)[j]! = if j = i then v else a[j]! := by
  grind

theorem put_get_self {a : Array α} {i : Nat} (h : i < a.size) (v : α) :
    (a.setIfInBounds i v)[i]! = v := by
  rw [put_get h, if_pos rfl]

theorem put_get_ne {a : Array α} {i j : Nat} (hj : j ≠ i) (v : α) :
    (a.setIfInBounds i v)[j]! = a[j]! := by
  grind

theorem replicate_get (n i : Nat) (v : α) (h : i < n) : (Array.replicate n v)[i]! = v := by
  simp [h]

end Arrays

theorem some_bind {α β : Type} (a : α) (f : α → Option β) : (some a >>= f) = f a := rfl

def incr (a : Array Nat) (i : Nat) : Option (Array Nat) := do store a i ((← a[i]?) + 1)

def decr (a : Array Nat) (i : Nat) : Option (Array Nat) := do store a i (usub (← a[i]?) 1)

theorem incr_eq {a : Array Nat} {i : Nat} (h : i < a.size) :
    incr a i = some (a.setIfInBounds i (a[i]! + 1)) := by
  simp [incr, store_eq h, h]

theorem decr_eq {a : Array Nat} {i : Nat} (h : i < a.size) (hpos : 0 < a[i]!) :
    decr a i = some (a.setIfInBounds i (a[i]! - 1)) := by
  have hle : 1 ≤ a[i]! := hpos
  simp only [decr, read_eq h, Option.bind_eq_bind, Option.bind_some, usub_of_le hle, store_eq h]

section Signed
variable {α : Type}

def readAt (a : Array α) (i : Int) : Option α := if 0 ≤ i then a[i.toNat]? else none

def writeAt (a : Array α) (i : Int) (v : α) : Option (Array α) :=
  if 0 ≤ i then store a i.toNat v else none

variable [Inhabited α]

theorem readAt_eq {a : Array α} {i : Int} (h0 : 0 ≤ i) (h : i < a.size) :
    readAt a i = some a[i.toNat]! := by
  rw [readAt, if_pos h0, read_eq (by omega)]

theorem readAt_nat {a : Array α} {i : Nat} (h : i < a.size) : readAt a i = some a[i]! :=
  readAt_eq (Int.natCast_nonneg i) (Int.ofNat_lt.mpr h)

omit [Inhabited α] in
theorem writeAt_nat {a : Array α} {i : Nat} (h : i < a.size) (v : α) :
    writeAt a i v = some (a.setIfInBounds i v) := by
  rw [writeAt, if_pos (Int.natCast_nonneg i), Int.toNat_natCast, store_eq h]

omit [Inhabited α] in
theorem writeAt_eq {a : Array α} {i : Int} (h0 : 0 ≤ i) (h : i < a.size) (v : α) :
    writeAt a i v = some (a.setIfInBounds i.toNat v) := by
  rw [writeAt, if_pos h0, store_eq (by omega)]

end Signed

section Slices
variable {α : Type} [Inhabited α]

def slice (a : Array α) (lo hi : Nat) : List α :=
  (List.range' lo (hi - lo)).map fun i => a[i]!

theorem slice_empty (a : Array α) {lo hi : Nat} (h : hi ≤ lo) : slice a lo hi = [] := by
  simp [slice, Nat.sub_eq_zero_of_le h]

theorem slice_length (a : Array α) (lo hi : Nat) : (slice a lo hi).length = hi - lo := by
  simp [slice]

theorem slice_succ (a : Array α) {lo hi : Nat} (h : lo ≤ hi) :
    slice a lo (hi + 1) = slice a lo hi ++ [a[hi]!] := by
  have hn : hi + 1 - lo = hi - lo + 1 := by omega
  have hc : lo + (hi - lo) = hi := by omega
  simp [slice, hn, List.range'_concat, hc]

theorem slice_cons (a : Array α) {lo hi : Nat} (h : lo < hi) :
    slice a lo hi = a[lo]! :: slice a (lo + 1) hi := by
  have hn : hi - lo = hi - (lo + 1) + 1 := by omega
  simp [slice, hn, List.range'_succ]

theorem slice_append (a : Array α) {lo mid hi : Nat} (h : lo ≤ mid) (h' : mid ≤ hi) :
    slice a lo mid ++ slice a mid hi = slice a lo hi := by
  have hn : hi - lo = (mid - lo) + (hi - mid) := by omega
  have hc : lo + (mid - lo) = mid := by omega
  simp only [slice, hn, ← List.range'_append_1, List.map_append, hc]

theorem slice_congr {a b : Array α} {lo hi : Nat} (h : ∀ i, lo ≤ i → i < hi → a[i]! = b[i]!) :
    slice a lo hi = slice b lo hi := by
  apply List.map_congr_left
  intro i hi'
  obtain ⟨h1, h2⟩ := List.mem_range'_1.mp hi'
  exact h i h1 (by omega)

theorem slice_put_outside {a : Array α} {lo hi i : Nat} (h : i < lo ∨ hi ≤ i) (v : α) :
    slice (a.setIfInBounds i v) lo hi = slice a lo hi :=
  slice_congr fun j h1 h2 => put_get_ne (by omega) v

theorem mem_slice {a : Array α} {lo hi : Nat} {x : α} :
    x ∈ slice a lo hi ↔ ∃ i, lo ≤ i ∧ i < hi ∧ a[i]! = x := by
  simp only [slice, List.mem_map, List.mem_range'_1]
  constructor
  · rintro ⟨i, ⟨h1, h2⟩, rfl⟩
    exact ⟨i, h1, by omega, rfl⟩
  · rintro ⟨i, h1, h2, rfl⟩
    exact ⟨i, ⟨h1, by omega⟩, rfl⟩

theorem slice_all (a : Array α) : slice a 0 a.size = a.toList := by
  apply List.ext_getElem
  · simp [slice]
  · intro i h1 h2
    have hi : i < a.size := by simpa using h2
    simp [slice, hi]

end Slices

/-- A monad in which a computation can stop with a fault. -/
class FaultMonad (m : Type → Type) extends Monad m where
  fault {α : Type} : m α

instance : FaultMonad Option where
  fault := none

section Loops
variable {m : Type → Type} [FaultMonad m] {β : Type}

/-- `for (i = lo; i < hi; i++) body`. -/
def forRange (lo hi : Nat) (body : Nat → β → m β) (b : β) : m β :=
  (List.range' lo (hi - lo)).foldlM (fun b i => body i b) b

/-- A loop whose body says whether to go on (`inl`) or to leave (`inr`).
It faults when `fuel` rounds did not suffice. -/
def loop (body : β → m (β ⊕ β)) : Nat → β → m β
  | 0, _ => FaultMonad.fault
  | fuel + 1, b => do
    match ← body b with
    | .inl b' => loop body fuel b'
    | .inr b' => pure b'

theorem forRange_empty {lo hi : Nat} (h : hi ≤ lo) (body : Nat → β → m β) (b : β) :
    forRange lo hi body b = pure b := by
  simp [forRange, Nat.sub_eq_zero_of_le h]

theorem forRange_step {lo hi : Nat} (h : lo < hi) (body : Nat → β → m β) (b : β) :
    forRange lo hi body b = body lo b >>= forRange (lo + 1) hi body := by
  have hn : hi - lo = hi - (lo + 1) + 1 := by omega
  simp only [forRange, hn, List.range'_succ, List.foldlM_cons]
  rfl

theorem forRange_last [LawfulMonad m] {lo hi : Nat} (h : lo ≤ hi) (body : Nat → β → m β) (b : β) :
    forRange lo (hi + 1) body b = forRange lo hi body b >>= body hi := by
  have hn : hi + 1 - lo = hi - lo + 1 := by omega
  have hlast : lo + (hi - lo) = hi := by omega
  simp [forRange, hn, List.range'_concat, List.foldlM_append, hlast]

end Loops

section LoopRules
variable {β : Type}

/-- Invariant rule of the counting loop. -/
theorem forRange_rule (I : Nat → β → Prop) {lo hi : Nat} (hle : lo ≤ hi)
    {body : Nat → β → Option β} {b : β} (h0 : I lo b)
    (hstep : ∀ i b, lo ≤ i → i < hi → I i b → ∃ b', body i b = some b' ∧ I (i + 1) b') :
    ∃ b', forRange lo hi body b = some b' ∧ I hi b' := by
  induction h : hi - lo generalizing lo b with
  | zero =>
    obtain rfl : lo = hi := by omega
    exact ⟨b, forRange_empty le_rfl body b, h0⟩
  | succ n ih =>
    obtain ⟨b1, hb1, h1⟩ := hstep lo b le_rfl (by omega) h0
    obtain ⟨b', hb', h'⟩ := ih (by omega) h1
      (fun i b hl hi hI => hstep i b (by omega) hi hI) (by omega)
    refine ⟨b', ?_, h'⟩
    rw [forRange_step (by omega), hb1]
    exact hb'

/-- A counting loop that goes through a list: the invariant speaks of the part that is done. -/
theorem forRange_list {γ : Type} (es : List γ) (I : List γ → β → Prop)
    {body : Nat → β → Option β} {b : β} (h0 : I [] b)
    (hstep : ∀ done e rest b, es = done ++ e :: rest → I done b →
      ∃ b', body done.length b = some b' ∧ I (done ++ [e]) b') :
    ∃ b', forRange 0 es.length body b = some b' ∧ I es b' := by
  have hrun := forRange_rule (fun i b => I (es.take i) b) (Nat.zero_le es.length) h0
    fun i b _ hi hI => by
      have hes : es = es.take i ++ es[i] :: es.drop (i + 1) := by
        rw [← List.drop_eq_getElem_cons hi, List.take_append_drop]
      obtain ⟨b', hb', h'⟩ := hstep (es.take i) es[i] (es.drop (i + 1)) b hes hI
      rw [List.length_take_of_le (by omega)] at hb'
      rw [List.take_append_getElem hi] at h'
      exact ⟨b', hb', h'⟩
  rwa [List.take_length] at hrun

theorem forRange_fill {α : Type} [Inhabited α] {n : Nat} {a : Array α} (hn : n ≤ a.size)
    {f : Nat → Option α} {g : Nat → α} (hf : ∀ i < n, f i = some (g i)) :
    ∃ a', forRange 0 n (fun i a => do store a i (← f i)) a = some a' ∧ a'.size = a.size ∧
      ∀ i, a'[i]! = if i < n then g i else a[i]! := by
  refine forRange_rule (fun i (a' : Array α) => a'.size = a.size ∧
    ∀ j, a'[j]! = if j < i then g j else a[j]!) (Nat.zero_le n) ⟨rfl, fun j => by simp⟩ ?_
  intro i a' _ hi ⟨hs, ha⟩
  have hlt : i < a'.size := by omega
  refine ⟨a'.setIfInBounds i (g i), by simp [hf i hi, store_eq hlt], by simpa using hs, ?_⟩
  intro j
  rw [put_get hlt, ha]
  by_cases hj : j = i
  · rw [if_pos hj, if_pos (by omega), hj]
  · rw [if_neg hj]
    by_cases hji : j < i
    · rw [if_pos hji, if_pos (by omega)]
    · rw [if_neg hji, if_neg (by omega)]

/-- Variant rule of the bounded loop: the measure never lets the fuel run out. -/
theorem loop_rule (I Q : β → Prop) (μ : β → Nat) {body : β → Option (β ⊕ β)}
    (hstep : ∀ b, I b → (∃ b', body b = some (.inl b') ∧ I b' ∧ μ b' < μ b) ∨
      (∃ b', body b = some (.inr b') ∧ Q b'))
    {fuel : Nat} {b : β} (h0 : I b) (hfuel : μ b < fuel) :
    ∃ b', loop body fuel b = some b' ∧ Q b' := by
  induction fuel generalizing b with
  | zero => omega
  | succ fuel ih =>
    rcases hstep b h0 with ⟨b', hb', hI, hμ⟩ | ⟨b', hb', hQ⟩
    · obtain ⟨c, hc, hQ⟩ := ih hI (by omega)
      exact ⟨c, by simp [loop, hb', hc], hQ⟩
    · exact ⟨b', by simp [loop, hb'], hQ⟩

/-- What a counting loop that did not fault has kept. -/
theorem forRange_some (I : Nat → β → Prop) {lo hi : Nat} (hle : lo ≤ hi)
    {body : Nat → β → Option β} {b b' : β} (h : forRange lo hi body b = some b') (h0 : I lo b)
    (hstep : ∀ i b b', lo ≤ i → i < hi → I i b → body i b = some b' → I (i + 1) b') : I hi b' := by
  induction hn : hi - lo generalizing lo b with
  | zero =>
    obtain rfl : lo = hi := by omega
    rw [forRange_empty le_rfl] at h
    cases h
    exact h0
  | succ n ih =>
    rw [forRange_step (by omega)] at h
    obtain ⟨b₁, hb₁, hrest⟩ := Option.bind_eq_some_iff.mp h
    exact ih (by omega) hrest (hstep lo b b₁ le_rfl (by omega) h0 hb₁)
      (fun i c c' hl => hstep i c c' (by omega)) (by omega)

/-- What the steps of a counting loop keep, whatever its bounds. -/
theorem forRange_keeps (I : β → Prop) {lo hi : Nat} {body : Nat → β → Option β} {b b' : β}
    (h : forRange lo hi body b = some b') (h0 : I b)
    (hstep : ∀ i b b', I b → body i b = some b' → I b') : I b' := by
  by_cases hle : lo ≤ hi
  · exact forRange_some (fun _ => I) hle h h0 fun i c c' _ _ => hstep i c c'
  · rw [forRange_empty (Nat.le_of_not_le hle)] at h
    cases h
    exact h0

/-- What a bounded loop that did not fault has established on leaving. -/
theorem loop_some (I Q : β → Prop) {body : β → Option (β ⊕ β)}
    (hstep : ∀ b r, I b → body b = some r → Sum.elim I Q r)
    {fuel : Nat} {b b' : β} (h : loop body fuel b = some b') (h0 : I b) : Q b' := by
  induction fuel generalizing b with
  | zero => cases h
  | succ fuel ih =>
    obtain ⟨r, hr, hrest⟩ := Option.bind_eq_some_iff.mp h
    have hs := hstep b r h0 hr
    cases r with
    | inl c => exact ih hrest hs
    | inr c =>
      cases hrest
      exact hs

end LoopRules

section Lists
variable {α β γ : Type}

theorem forRange_slice [Inhabited α] {a : Array α} {lo hi : Nat} (hlo : lo ≤ hi) (hhi : hi ≤ a.size)
    (body : α → β → Option β) (b : β) :
    forRange lo hi (fun j b => do body (← a[j]?) b) b =
      (slice a lo hi).foldlM (fun b x => body x b) b := by
  induction h : hi - lo generalizing lo b with
  | zero =>
    obtain rfl : lo = hi := by omega
    rw [forRange_empty le_rfl, slice_empty a le_rfl]
    rfl
  | succ n ih =>
    rw [forRange_step (by omega), slice_cons a (by omega), List.foldlM_cons, read_eq (by omega),
      some_bind]
    exact congrArg (body a[lo]! b >>= ·) (funext fun b' => ih (by omega) b' (by omega))

theorem forRange_zero (n : Nat) (body : Nat → β → Option β) (b : β) :
    forRange 0 n body b = (List.range n).foldlM (fun b i => body i b) b := by
  rw [forRange, Nat.sub_zero, ← List.range_eq_range']

/-- Invariant rule of a loop over a list: the invariant speaks of the part that is done. -/
theorem foldlM_list (l : List α) (I : List α → β → Prop) {body : β → α → Option β} {b : β}
    (h0 : I [] b) (hstep : ∀ done a rest b, l = done ++ a :: rest → I done b →
      ∃ b', body b a = some b' ∧ I (done ++ [a]) b') :
    ∃ b', l.foldlM body b = some b' ∧ I l b' := by
  have hrun (done rest : List α) (hl : l = done ++ rest) (b : β) (h : I done b) :
      ∃ b', rest.foldlM body b = some b' ∧ I l b' := by
    induction rest generalizing done b with
    | nil => exact ⟨b, rfl, by rwa [hl, List.append_nil]⟩
    | cons a rest ih =>
      obtain ⟨b₁, hb₁, h₁⟩ := hstep done a rest b hl h
      obtain ⟨b', hb', h'⟩ := ih (done ++ [a]) (by rw [hl, List.append_assoc]; rfl) b₁ h₁
      refine ⟨b', ?_, h'⟩
      rw [List.foldlM_cons, hb₁]
      exact hb'
  exact hrun [] l rfl b h0

theorem foldlM_congr_mem {step step' : β → α → Option β} {l : List α}
    (h : ∀ a ∈ l, ∀ b, step b a = step' b a) (b : β) : l.foldlM step b = l.foldlM step' b := by
  induction l generalizing b with
  | nil => rfl
  | cons a l ih =>
    rw [List.foldlM_cons, List.foldlM_cons, h a List.mem_cons_self]
    exact congrArg (step' b a >>= ·) (funext (ih fun a ha => h a (List.mem_cons_of_mem _ ha)))

theorem foldlM_flatMap (f : α → List β) (step : γ → β → Option γ) (l : List α) (c : γ) :
    (l.flatMap f).foldlM step c = l.foldlM (fun c a => (f a).foldlM step c) c := by
  induction l generalizing c with
  | nil => rfl
  | cons a l ih =>
    rw [List.flatMap_cons, List.foldlM_append, List.foldlM_cons]
    exact congrArg ((f a).foldlM step c >>= ·) (funext ih)

theorem foldlM_append_some (f : α → List β) (l : List α) (out : List β) :
    l.foldlM (fun out a => some (out ++ f a)) out = some (out ++ l.flatMap f) := by
  induction l generalizing out with
  | nil => rw [List.flatMap_nil, List.append_nil]; rfl
  | cons a l ih => rw [List.foldlM_cons, some_bind, ih, List.flatMap_cons, List.append_assoc]

end Lists

end GraphReorder.Library
