import GraphReorder.Gorder.Tracks

/-! The queue as it is meant, and that the bucketed one does the same in every run: who is in it, the
score of every vertex, and what may be taken out. -/
namespace GraphReorder.Gorder
open Library

inductive QueueOp
  | bump (v : Nat)
  | drop (v : Nat)
  | place

def QueueOp.run (before : Option Int) : QueueOp → UnitHeap → Option UnitHeap
  | .bump v, h => Gorder.bump v h
  | .drop v, h => Gorder.drop v h
  | .place, h => do
    let (v, h) ← h.extractMax before
    mark v.toNat h

structure Queue where
  members : Finset Nat
  score : Nat → Int
  high : Nat → Int

namespace Queue

def fresh (n : Nat) : Queue := ⟨Finset.range n, fun _ => 0, fun _ => 0⟩

def bumped (q : Queue) (v : Nat) : Queue where
  members := q.members
  score := Function.update q.score v (q.score v + 1)
  high := Function.update q.high v (max (q.high v) (q.score v + 1))

def dropped (q : Queue) (v : Nat) : Queue :=
  { q with score := Function.update q.score v (q.score v - 1) }

/-- A vertex goes that no other one is above by more than half of what it has lost. -/
def Best (q : Queue) (v : Nat) : Prop :=
  v ∈ q.members ∧ ∀ u ∈ q.members, q.score u ≤ q.score v + (q.high v - q.score v) / 2

inductive Step (n : Nat) (cap : Int) : Queue → QueueOp → Queue → Prop
  | bump {q : Queue} {v : Nat} : v < n → q.score v < cap → Step n cap q (.bump v) (q.bumped v)
  | drop {q : Queue} {v : Nat} : v < n → 0 < q.score v → Step n cap q (.drop v) (q.dropped v)
  | place {q : Queue} {v : Nat} : q.Best v →
    Step n cap q .place { q with members := q.members.erase v }

/-- An operation that may be done, whoever is taken out. The last member may only be where the read
outside the array does no harm. -/
def Enabled (n : Nat) (cap : Int) (before : Option Int) (q : Queue) : QueueOp → Prop
  | .bump v => v < n ∧ q.score v < cap
  | .drop v => v < n ∧ 0 < q.score v
  | .place => q.members.Nonempty ∧ ReadsBefore before q.members.card

end Queue

/-- The heap stands for the queue: it tracks the scores, and no key is above the highest one. -/
structure Represents (n : Nat) (cap : Int) (h : UnitHeap) (q : Queue) : Prop where
  tracks : ∃ l, (∀ v, v ∈ l ↔ v ∈ q.members) ∧ Tracks n cap h l q.score ∧
    ∀ v ∈ l, keyOf h.LinkedList v ≤ q.high v
  scores : ∀ v < n, 0 ≤ q.score v ∧ q.score v ≤ cap

section Refinement
variable {n : Nat} {cap : Int} {before : Option Int} {h : UnitHeap} {q : Queue}

theorem update_score (score : Nat → Int) (v : Nat) (x : Int) (u : Nat) :
    Function.update score v x u = if u = v then x else score u := Function.update_apply ..

theorem Represents.bump (hr : Represents n cap h q) (hcap : cap < halfMax) {v : Nat} (hv : v < n)
    (hlt : q.score v < cap) :
    ∃ h', Gorder.bump v h = some h' ∧ Represents n cap h' (q.bumped v) := by
  obtain ⟨⟨l, hmem, ht, hhigh⟩, hscores⟩ := hr
  obtain ⟨h', l', hrun, hp, ht', hkey⟩ := ht.bump hv (hscores v hv).1 hlt hcap
    (update_score q.score v (q.score v + 1))
  refine ⟨h', hrun, ⟨l', fun u => hp.mem_iff.trans (hmem u), ht', fun u hu => ?_⟩, fun u hu => ?_⟩
  · have hold := hhigh u (hp.mem_iff.mp hu)
    have hnew := hkey u
    change _ ≤ Function.update q.high v (max (q.high v) (q.score v + 1)) u
    rw [update_score] at hnew ⊢
    by_cases huv : u = v
    · rw [if_pos huv] at hnew ⊢
      rw [huv] at hold hnew
      rw [huv]
      omega
    · rw [if_neg huv] at hnew ⊢
      have hlive := (ht.live u (hp.mem_iff.mp hu))
      omega
  · have h₁ := hscores u hu
    have h₂ := hscores v hv
    simp only [Queue.bumped, update_score]
    split_ifs <;> omega

theorem Represents.drop (hr : Represents n cap h q) (hcap : cap < halfMax) {v : Nat} (hv : v < n)
    (hpos : 0 < q.score v) :
    ∃ h', Gorder.drop v h = some h' ∧ Represents n cap h' (q.dropped v) := by
  obtain ⟨⟨l, hmem, ht, hhigh⟩, hscores⟩ := hr
  obtain ⟨h', hrun, ht', hkeep⟩ := ht.drop hv hpos (hscores v hv).2 hcap
    (update_score q.score v (q.score v - 1))
  refine ⟨h', hrun, ⟨l, hmem, ht', fun u hu => ?_⟩, fun u hu => ?_⟩
  · rw [hkeep]
    exact hhigh u hu
  · have h₁ := hscores u hu
    have h₂ := hscores v hv
    simp only [Queue.dropped, update_score]
    split_ifs <;> omega

theorem Represents.place (hr : Represents n cap h q) (hne : q.members.Nonempty)
    (hbefore : ReadsBefore before q.members.card) :
    ∃ v h', QueueOp.place.run before h = some h' ∧ q.Best v ∧
      Represents n cap h' { q with members := q.members.erase v } := by
  obtain ⟨⟨l, hmem, ht, hhigh⟩, hscores⟩ := hr
  obtain ⟨w, hw⟩ := hne
  have hcard : l.length = q.members.card := by
    rw [← List.toFinset_card_of_nodup ht.holds.nodup]
    exact congrArg Finset.card (Finset.ext fun v => List.mem_toFinset.trans (hmem v))
  obtain ⟨v, h₁, h', rest, hrun, hmark, hp, ht', hkey, k, hk, hvk, hbest⟩ :=
    ht.place (hcard.symm ▸ hbefore) (List.ne_nil_of_mem ((hmem w).mpr hw)) (fun u hu => (hscores u hu).1)
    fun u hu => (hscores u hu).2
  have hvl : v ∈ l := hp.mem_iff.mp List.mem_cons_self
  have hrest (u : Nat) : u ∈ rest ↔ u ≠ v ∧ u ∈ l := by
    have hd := List.nodup_cons.mp (hp.nodup_iff.mpr ht.holds.nodup)
    rw [← hp.mem_iff, List.mem_cons]
    constructor
    · exact fun hu => ⟨fun he => hd.1 (he ▸ hu), .inr hu⟩
    · exact fun hu => hu.2.resolve_left hu.1
  refine ⟨v, h', ?_, ⟨(hmem v).mp hvl, fun u hu => ?_⟩, ⟨rest, fun u => ?_, ht', fun u hu => ?_⟩,
    hscores⟩
  · simp only [QueueOp.run, hrun, some_bind, Int.toNat_natCast, hmark]
  · have hhv := hhigh v hvl
    by_cases huv : u = v
    · rw [huv]
      omega
    · have := hbest u ((hrest u).mpr ⟨huv, (hmem u).mpr hu⟩)
      omega
  · rw [hrest, hmem, Finset.mem_erase]
  · exact (hkey u hu).trans (hhigh u ((hrest u).mp hu).2)

theorem Represents.step (hr : Represents n cap h q) (hcap : cap < halfMax) {op : QueueOp}
    (hop : q.Enabled n cap before op) :
    ∃ h' q', op.run before h = some h' ∧ Queue.Step n cap q op q' ∧ Represents n cap h' q' := by
  cases op with
  | bump v =>
    obtain ⟨h', hrun, hr'⟩ := hr.bump hcap hop.1 hop.2
    exact ⟨h', _, hrun, .bump hop.1 hop.2, hr'⟩
  | drop v =>
    obtain ⟨h', hrun, hr'⟩ := hr.drop hcap hop.1 hop.2
    exact ⟨h', _, hrun, .drop hop.1 hop.2, hr'⟩
  | place =>
    obtain ⟨v, h', hrun, hbest, hr'⟩ := hr.place hop.1 hop.2
    exact ⟨h', _, hrun, .place hbest, hr'⟩

end Refinement

end GraphReorder.Gorder
