import GraphReorder.PageRankThreads
import GraphReorder.Library.Barrier

/-! The iterations of PageRank: `prIter` of the sequential program, and the threads of the other one,
which share two arrays and meet at a barrier. -/
namespace GraphReorder.PageRank
open Library

/-- The arithmetic of `double` that a rank is made of: `0`, `1.0`, `x+y`, `x/deg`, and
`d + (1-d)*x` for the damping factor. It is left open. -/
structure Doubles (V : Type) where
  zero : V
  one : V
  add : V → V → V
  quot : V → Int → V
  damp : V → V

def MAX_ITER : Nat := 10

def findOutDeg (G : Graph) (degArr : Array Int) : Option (Array Int) :=
  forRange 0 G.numEdges.toNat (fun i degArr => do
    let v ← G.EI[i]?
    writeAt degArr v ((← readAt degArr v) + 1)) degArr

section Model
variable {V : Type} (A : Doubles V) (G : Graph) (degArr : Array Int)

def addRank (arr : Array V) (j : Int) (tempVal : V) : Option V := do
  let v ← readAt G.EI j
  pure (A.add tempVal (A.quot (← readAt arr v) (← readAt degArr v)))

def rowSum (arr : Array V) (i : Nat) : Option V := do
  let lo ← G.VI[i]?
  let hi ← G.VI[i + 1]?
  forRange 0 (hi - lo).toNat (fun k tempVal => addRank A G degArr arr (lo + k) tempVal) A.zero

/-- `prIter` of the sequential program. Its state: `temp` and `G->attr`. -/
def prIter (numIter : Nat) (st : Array V × Array V) : Option (Array V × Array V) := do
  let (temp, attr) := st
  if numIter % 2 = 1 then
    pure (temp, ← forRange 0 G.numVertex.toNat (fun i attr => do
      store attr i (A.damp (← rowSum A G degArr temp i))) attr)
  else
    pure (← forRange 0 G.numVertex.toNat (fun i temp => do
      store temp i (A.damp (← rowSum A G degArr attr i))) temp, attr)

def iterations (k : Nat) (st : Array V × Array V) : Option (Array V × Array V) :=
  forRange 0 k (prIter A G degArr) st

/-- The two loops of the sequential `main`. The warm-up iterations count in `numIter` too, which goes
back to 0 behind them; `temp` and `G->attr` stay as they are. -/
def prST (st : Array V × Array V) : Option (Array V × Array V) := do
  let st ← iterations A G degArr 2 st
  iterations A G degArr MAX_ITER st

/-- Where a thread is in its `prIter`: at the head of the loop over the vertices, at the head of the
loop over a row, at the barrier with `iter` already counted up, or behind the loop. A `return` is
missing there, and what C++ makes of that is undefined: the threads are taken to end. -/
inductive Pc (V : Type)
  | vertex (iter i : Nat)
  | row (iter i : Nat) (j lastId : Int) (tempVal : V)
  | waiting (iter : Nat)
  | ended

def Pc.isWaiting : Pc V → Bool
  | .waiting _ => true
  | _ => false

def Pc.isWorking : Pc V → Bool
  | .vertex _ _ => true
  | .row _ _ _ _ _ => true
  | _ => false

structure Shared (V : Type) where
  srcArr : Array V
  dstArr : Array V
  threads : List (Pc V)

def Shared.source (s : Shared V) (iter : Nat) : Array V :=
  if iter % 2 = 1 then s.srcArr else s.dstArr

def Shared.target (s : Shared V) (iter : Nat) : Array V :=
  if iter % 2 = 1 then s.dstArr else s.srcArr

def Shared.setTarget (s : Shared V) (iter : Nat) (arr : Array V) : Shared V :=
  if iter % 2 = 1 then { s with dstArr := arr } else { s with srcArr := arr }

def ThreadData.last (TD : ThreadData) : Nat :=
  if (TD.endVertex : Int) > G.numVertex then G.numVertex.toNat else TD.endVertex

def resume (TD : List ThreadData) (tid : Nat) : Pc V → Pc V
  | .waiting iter =>
    if iter < MAX_ITER then .vertex iter (TD[tid]?.elim 0 ThreadData.startVertex) else .ended
  | pc => pc

/-- One step of a thread, which reads or writes one cell of the shared arrays at most. A thread that
is waiting or has ended has none. -/
def threadStep (TD : List ThreadData) (tid : Nat) (s : Shared V) : Option (Shared V) := do
  let td ← TD[tid]?
  match ← s.threads[tid]? with
  | .vertex iter i =>
    if i ≤ td.last G then do
      let j ← G.VI[i]?
      let lastId ← if (i : Int) = G.numVertex then pure G.numEdges else G.VI[i + 1]?
      pure { s with threads := s.threads.set tid (.row iter i j lastId A.zero) }
    else
      pure { s with
        threads := arrive Pc.isWaiting (resume TD) tid (.waiting (iter + 1)) s.threads }
  | .row iter i j lastId tempVal =>
    if j < lastId then do
      let tempVal ← addRank A G degArr (s.source iter) j tempVal
      pure { s with threads := s.threads.set tid (.row iter i (j + 1) lastId tempVal) }
    else do
      let arr ← store (s.target iter) i (A.damp tempVal)
      pure { s.setTarget iter arr with threads := s.threads.set tid (.vertex iter (i + 1)) }
  | .waiting _ => none
  | .ended => none

def runThreads (TD : List ThreadData) (sched : List Nat) (s : Shared V) : Option (Shared V) :=
  sched.foldlM (fun s tid => threadStep A G degArr TD tid s) s

def startThreads (TD : List ThreadData) : Shared V where
  srcArr := Array.replicate G.numVertex.toNat A.zero
  dstArr := Array.replicate G.numVertex.toNat A.one
  threads := TD.map fun td => .vertex 0 td.startVertex

end Model

structure Graph.Wellformed (G : Graph) (n : Nat) : Prop extends G.Offsets n where
  first : 0 ≤ G.VI[0]!
  edges : (G.EI.size : Int) = G.numEdges
  inside : ∀ w ∈ G.EI.toList, 0 ≤ w ∧ w < n

section Sequential
variable {V : Type} {A : Doubles V} {G : Graph} {n : Nat} {degArr : Array Int}
variable {arr : Array V} {i : Nat}

theorem Graph.Wellformed.offset (hG : G.Wellformed n) (hi : i ≤ n) :
    G.VI[i]? = some G.VI[i]! ∧ 0 ≤ G.VI[i]! ∧ G.VI[i]! ≤ G.numEdges :=
  ⟨read_eq (by rw [hG.size]; omega), hG.first.trans (hG.mono 0 i (Nat.zero_le i) hi),
    hG.last ▸ hG.mono i n hi le_rfl⟩

theorem Graph.Wellformed.edge (hG : G.Wellformed n) {j : Int} (h0 : 0 ≤ j) (hj : j < G.numEdges) :
    ∃ w : Nat, w < n ∧ readAt G.EI j = some (w : Int) := by
  have hlt : j < G.EI.size := hG.edges ▸ hj
  have hmem : G.EI[j.toNat]! ∈ G.EI.toList := by
    have hlt' : j.toNat < G.EI.size := by omega
    rw [getElem!_pos G.EI _ hlt']
    exact Array.getElem_mem_toList hlt'
  obtain ⟨hw0, hwn⟩ := hG.inside _ hmem
  exact ⟨G.EI[j.toNat]!.toNat, by omega, by rw [readAt_eq h0 hlt, Int.toNat_of_nonneg hw0]⟩

theorem addRank_total [Inhabited V] (hG : G.Wellformed n) (hdeg : degArr.size = n)
    (harr : arr.size = n) {j : Int} (h0 : 0 ≤ j) (hj : j < G.numEdges) (tempVal : V) :
    ∃ x, addRank A G degArr arr j tempVal = some x := by
  obtain ⟨w, hw, hread⟩ := hG.edge h0 hj
  exact ⟨_, by rw [addRank, hread, some_bind, readAt_nat (harr ▸ hw), some_bind,
    readAt_nat (hdeg ▸ hw)]; rfl⟩

def rowPart (A : Doubles V) (G : Graph) (degArr : Array Int) (arr : Array V) (i k : Nat) :
    Option V :=
  forRange 0 k (fun k tempVal => addRank A G degArr arr (G.VI[i]! + k) tempVal) A.zero

theorem rowPart_succ (k : Nat) : rowPart A G degArr arr i (k + 1) =
    rowPart A G degArr arr i k >>= addRank A G degArr arr (G.VI[i]! + k) :=
  forRange_last (Nat.zero_le k) _ _

def rowLength (G : Graph) (i : Nat) : Nat := (G.VI[i + 1]! - G.VI[i]!).toNat

theorem rowPart_total [Inhabited V] (hG : G.Wellformed n) (hdeg : degArr.size = n)
    (harr : arr.size = n) (hi : i < n) {k : Nat} (hk : k ≤ rowLength G i) :
    ∃ x, rowPart A G degArr arr i k = some x := by
  obtain ⟨_, h0, _⟩ := hG.offset hi.le
  obtain ⟨_, _, hlast⟩ := hG.offset (show i + 1 ≤ n from hi)
  rw [rowLength] at hk
  induction k with
  | zero => exact ⟨A.zero, forRange_empty le_rfl _ _⟩
  | succ k ih =>
    obtain ⟨x, hx⟩ := ih (Nat.le_of_succ_le hk)
    rw [rowPart_succ, hx, some_bind]
    exact addRank_total hG hdeg harr (by omega) (by omega) x

def rank (A : Doubles V) (G : Graph) (degArr : Array Int) (arr : Array V) (i : Nat) : V :=
  A.damp ((rowPart A G degArr arr i (rowLength G i)).getD A.zero)

def ranks (A : Doubles V) (G : Graph) (degArr : Array Int) (n : Nat) (arr : Array V) : Array V :=
  Array.ofFn fun i : Fin n => rank A G degArr arr i

theorem rowSum_eq [Inhabited V] (hG : G.Wellformed n) (hdeg : degArr.size = n) (harr : arr.size = n)
    (hi : i < n) : ∃ x, rowSum A G degArr arr i = some x ∧ A.damp x = rank A G degArr arr i := by
  obtain ⟨x, hx⟩ := rowPart_total (A := A) hG hdeg harr hi le_rfl
  refine ⟨x, ?_, by rw [rank, hx]; rfl⟩
  rw [rowSum, (hG.offset hi.le).1, some_bind, (hG.offset (Nat.succ_le_of_lt hi)).1, some_bind]
  exact hx

def next (A : Doubles V) (G : Graph) (degArr : Array Int) (n iter : Nat) (st : Array V × Array V) :
    Array V × Array V :=
  if iter % 2 = 1 then (st.1, ranks A G degArr n st.1) else (ranks A G degArr n st.2, st.2)

def after (A : Doubles V) (G : Graph) (degArr : Array Int) (n : Nat) (st : Array V × Array V) :
    Nat → Array V × Array V
  | 0 => st
  | k + 1 => next A G degArr n k (after A G degArr n st k)

theorem after_size (A : Doubles V) (G : Graph) (degArr : Array Int) {st : Array V × Array V}
    (h₁ : st.1.size = n) (h₂ : st.2.size = n) (k : Nat) :
    (after A G degArr n st k).1.size = n ∧ (after A G degArr n st k).2.size = n := by
  induction k with
  | zero => exact ⟨h₁, h₂⟩
  | succ k ih =>
    rw [after, next]
    split_ifs
    · exact ⟨ih.1, Array.size_ofFn⟩
    · exact ⟨Array.size_ofFn, ih.2⟩

theorem prIter_parity (A : Doubles V) (G : Graph) (degArr : Array Int) {k l : Nat}
    (h : k % 2 = l % 2) : prIter A G degArr k = prIter A G degArr l := by
  funext st
  rw [prIter, prIter, h]

theorem iterations_add (A : Doubles V) (G : Graph) (degArr : Array Int) {k : Nat} (hk : k % 2 = 0)
    (m : Nat) (st : Array V × Array V) :
    iterations A G degArr (k + m) st =
      iterations A G degArr k st >>= iterations A G degArr m := by
  induction m with
  | zero =>
    have hnone : iterations A G degArr 0 = pure := funext fun st => forRange_empty le_rfl _ st
    rw [hnone, bind_pure]
    rfl
  | succ m ih =>
    have hlast (l : Nat) : iterations A G degArr (l + 1) =
        fun st => iterations A G degArr l st >>= prIter A G degArr l :=
      funext fun st => forRange_last (Nat.zero_le l) _ st
    have hparity : (k + m) % 2 = m % 2 := by omega
    rw [← Nat.add_assoc, hlast, hlast, prIter_parity A G degArr hparity]
    change iterations A G degArr (k + m) st >>= _ = _
    rw [ih, bind_assoc]

/-- The two warm-up iterations may as well come last. -/
theorem prST_eq (A : Doubles V) (G : Graph) (degArr : Array Int) (st : Array V × Array V) :
    prST A G degArr st = iterations A G degArr MAX_ITER st >>= iterations A G degArr 2 := by
  rw [← iterations_add A G degArr (show MAX_ITER % 2 = 0 from rfl)]
  exact (iterations_add A G degArr (show 2 % 2 = 0 from rfl) MAX_ITER st).symm

variable [Inhabited V]

theorem eq_ranks {made : Array V} (hs : made.size = n)
    (hc : ∀ c < n, made[c]! = rank A G degArr arr c) : made = ranks A G degArr n arr := by
  refine Array.ext (by rw [hs, ranks, Array.size_ofFn]) fun c hc₁ _ => ?_
  simp only [ranks, Array.getElem_ofFn]
  rw [← hc c (hs ▸ hc₁), getElem!_pos made c hc₁]

theorem fill_ranks (hG : G.Wellformed n) (hdeg : degArr.size = n) (harr : arr.size = n)
    {made : Array V} (hmade : made.size = n) :
    forRange 0 G.numVertex.toNat (fun i made => do
      store made i (A.damp (← rowSum A G degArr arr i))) made = some (ranks A G degArr n arr) := by
  have hn : G.numVertex.toNat = n := by rw [hG.numVertex, Int.toNat_natCast]
  obtain ⟨made', hrun, hs, hfill⟩ := forRange_fill (f := fun i => do
      pure (A.damp (← rowSum A G degArr arr i)))
    (g := rank A G degArr arr) hmade.ge fun i hi => by
      obtain ⟨x, hx, hrank⟩ := rowSum_eq (A := A) hG hdeg harr hi
      rw [hx, ← hrank]
      rfl
  have hmade' : made' = ranks A G degArr n arr :=
    eq_ranks (hs.trans hmade) fun c hc => by rw [hfill, if_pos hc]
  rw [hn, ← hmade', ← hrun]
  congr 1
  funext i made
  cases rowSum A G degArr arr i <;> rfl

theorem iterations_eq (A : Doubles V) (hG : G.Wellformed n) (hdeg : degArr.size = n)
    (st : Array V × Array V) (h₁ : st.1.size = n) (h₂ : st.2.size = n) (k : Nat) :
    iterations A G degArr k st = some (after A G degArr n st k) := by
  induction k with
  | zero => exact forRange_empty le_rfl _ _
  | succ k ih =>
    obtain ⟨hs₁, hs₂⟩ := after_size A G degArr h₁ h₂ k
    rw [iterations, forRange_last (Nat.zero_le k)]
    rw [iterations] at ih
    rw [ih, some_bind, after, next, prIter]
    by_cases hodd : k % 2 = 1
    · rw [if_pos hodd, if_pos hodd, fill_ranks hG hdeg hs₁ hs₂]
      rfl
    · rw [if_neg hodd, if_neg hodd, fill_ranks hG hdeg hs₂ hs₁]
      rfl

end Sequential

end GraphReorder.PageRank
