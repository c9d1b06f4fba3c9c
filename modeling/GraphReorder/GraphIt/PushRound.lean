import Mathlib.Data.Int.ConditionallyCompleteOrder
import Mathlib.Order.ConditionallyCompleteLattice.Basic
import GraphReorder.GraphIt.Push

/-! What the strands of a round in the push direction keep, whatever the order of their steps. -/
namespace GraphReorder.GraphIt
open Library

def arcs (g : WGraph) (n : Nat) (f : Int → Int → Int) : Set (Arc Nat Int) :=
  fun e => ∃ s < n, ∃ d ∈ g.out_neigh[s]!, e = ⟨s, d.v, f d.w⟩

/-- On all labels that the vertices of the frontier can have from now on, `updateEdge` computes `f`
where it does not fault, and keeps `P`. -/
structure Offers (g : WGraph) (updateEdge : Int → Int → Option Int) (f : Int → Int → Int)
    (P : Nat → Int → Prop) (F : Finset Nat) (l₀ : Nat → Int) : Prop where
  start : ∀ s ∈ F, P s (l₀ s)
  mono : ∀ w, Monotone (f w)
  keeps : ∀ s ∈ F, ∀ d ∈ g.out_neigh[s]!, ∀ x y, P s x → x ≤ l₀ s →
    updateEdge d.w x = some y → y = f d.w x ∧ P d.v y

def Defined (g : WGraph) (updateEdge : Int → Int → Option Int) (P : Nat → Int → Prop)
    (F : Finset Nat) (l₀ : Nat → Int) : Prop :=
  ∀ s ∈ F, ∀ d ∈ g.out_neigh[s]!, ∀ x, P s x → x ≤ l₀ s → ∃ y, updateEdge d.w x = some y

section Strand
variable (f : Int → Int → Int) (P : Nat → Int → Prop) (l₀ l : Nat → Int)

def Served (s : Nat) (neigh : List WNode) (k : Nat) : Prop :=
  ∀ j < k, ∀ d, neigh[j]? = some d → l d.v ≤ f d.w (l₀ s)

def PushPc.Work (s : Nat) (neigh : List WNode) : PushPc → Prop
  | .neighbour j => Served f l₀ l s neigh j ∧ j ≤ neigh.length
  | .load j b => Served f l₀ l s neigh j ∧
    ∃ d, neigh[j]? = some d ∧ P d.v b ∧ b ≤ f d.w (l₀ s)
  | .swap j b c => Served f l₀ l s neigh j ∧
    ∃ d, neigh[j]? = some d ∧ P d.v b ∧ b ≤ f d.w (l₀ s) ∧ b < c ∧ l d.v ≤ c
  | .mark j => Served f l₀ l s neigh (j + 1) ∧ ∃ d, neigh[j]? = some d ∧ l d.v < l₀ d.v
  | .joined => Served f l₀ l s neigh neigh.length

def PushPc.progress (length : Nat) : PushPc → Nat
  | .neighbour j => j
  | .load j _ => j
  | .swap j _ _ => j
  | .mark j => j
  | .joined => length

@[simp] theorem PushPc.progress_neighbour (length j : Nat) :
    (PushPc.neighbour j).progress length = j := rfl

def PushPc.Marks (neigh : List WNode) (v : Nat) : PushPc → Prop
  | .mark j => ∃ d, neigh[j]? = some d ∧ d.v = v
  | _ => False

variable {f P l₀ l} {l' : Nat → Int} {s j : Nat} {neigh : List WNode} {pc : PushPc} {d : WNode}

theorem Served.lower (hl : ∀ v, l' v ≤ l v) (h : Served f l₀ l s neigh j) :
    Served f l₀ l' s neigh j := fun i hi d hd => (hl d.v).trans (h i hi d hd)

theorem Served.succ (h : Served f l₀ l s neigh j) (hd : neigh[j]? = some d)
    (hle : l d.v ≤ f d.w (l₀ s)) : Served f l₀ l s neigh (j + 1) := by
  intro i hi d' hd'
  by_cases hij : i = j
  · obtain rfl : d' = d := Option.some.inj (hd'.symm.trans (hij ▸ hd))
    exact hle
  · exact h i (by omega) d' hd'

theorem PushPc.Work.lower (hl : ∀ v, l' v ≤ l v) (h : pc.Work f P l₀ l s neigh) :
    pc.Work f P l₀ l' s neigh := by
  cases pc with
  | neighbour j => exact ⟨h.1.lower hl, h.2⟩
  | load j b => exact ⟨h.1.lower hl, h.2⟩
  | swap j b c =>
    obtain ⟨hserved, d, hd, hP, hb, hbc, hc⟩ := h
    exact ⟨hserved.lower hl, d, hd, hP, hb, hbc, (hl d.v).trans hc⟩
  | mark j =>
    obtain ⟨hserved, d, hd, hlow⟩ := h
    exact ⟨hserved.lower hl, d, hd, (hl d.v).trans_lt hlow⟩
  | joined => exact Served.lower hl h

theorem PushPc.Work.progress_le (h : pc.Work f P l₀ l s neigh) :
    pc.progress neigh.length ≤ neigh.length := by
  have hlt {j : Nat} (h : ∃ d, neigh[j]? = some d) : j ≤ neigh.length := by
    obtain ⟨d, hd⟩ := h
    exact (List.getElem?_eq_some_iff.mp hd).1.le
  cases pc with
  | neighbour j => exact h.2
  | load j b => exact hlt (h.2.imp fun d hd => hd.1)
  | swap j b c => exact hlt (h.2.imp fun d hd => hd.1)
  | mark j => exact hlt (h.2.imp fun d hd => hd.1)
  | joined => exact le_rfl

end Strand

section Round
variable (g : WGraph) (n : Nat) (f : Int → Int → Int) (P : Nat → Int → Prop) (F : Finset Nat)
variable (l₀ : Nat → Int) (fork : Fork)

def Recorded (st : PushState) (i j v : Nat) : Prop :=
  v < n ∧ ∃ pc, st.strands[i]? = some pc ∧ j < pc.progress (neighbours g fork i).length ∧
    st.outEdges[cell g fork i j]! = v

/-- The state in the middle of a round: a label is lower than at the start just when the flag of the
vertex is set or about to be, and a flag is set just when the vertex stands in `outEdges`, once. -/
structure Pushing (st : PushState) : Prop where
  labels : st.labels.size = n
  flags : st.flags.size = n
  outEdges : st.outEdges.size = (degrees g fork).sum
  strands : st.strands.length = fork.dense_vertex_set.size
  lower : ∀ v : Nat, st.labels[v]! ≤ l₀ v
  sound : ∀ v : Nat, st.labels[v]! = l₀ v ∨ P v st.labels[v]!
  work : ∀ i (pc : PushPc), st.strands[i]? = some pc →
    pc.Work f P l₀ (fun v => st.labels[v]!) fork.dense_vertex_set[i]! (neighbours g fork i)
  bits : ∀ v < n, st.flags[v]! = 0 ∨ st.flags[v]! = 1
  written : ∀ i (pc : PushPc) j, st.strands[i]? = some pc → j < pc.progress (neighbours g fork i).length →
    st.outEdges[cell g fork i j]! = UINT_E_MAX ∨ st.outEdges[cell g fork i j]! < n
  flagged : ∀ v < n, st.flags[v]! = 1 ↔ ∃ i j, Recorded g n fork st i j v
  once : ∀ v i j i' j', Recorded g n fork st i j v → Recorded g n fork st i' j' v → i = i' ∧ j = j'
  lowered : ∀ v < n, st.labels[v]! < l₀ v ↔ st.flags[v]! = 1 ∨
    ∃ i, ∃ pc : PushPc, st.strands[i]? = some pc ∧ pc.Marks (neighbours g fork i) v

variable {g n f P F l₀ fork} {st : PushState} {i j : Nat} {pc q : PushPc}

theorem Pushing.strand_lt (h : Pushing g n f P l₀ fork st) (hpc : st.strands[i]? = some pc) :
    i < fork.dense_vertex_set.size := h.strands ▸ (List.getElem?_eq_some_iff.mp hpc).1

theorem recorded_goto (hpc : st.strands[i]? = some pc)
    (hsame : q.progress (neighbours g fork i).length = pc.progress (neighbours g fork i).length)
    (labels : Array Int) (i' j' v : Nat) :
    Recorded g n fork { st with labels := labels, strands := st.strands.set i q } i' j' v ↔
      Recorded g n fork st i' j' v := by
  simp only [Recorded, set_get hpc]
  by_cases hi : i' = i
  · subst hi
    simp [hpc, hsame]
  · simp [hi]

theorem Pushing.move (h : Pushing g n f P l₀ fork st) (hpc : st.strands[i]? = some pc)
    (hsame : q.progress (neighbours g fork i).length = pc.progress (neighbours g fork i).length)
    {labels : Array Int} (hsize : labels.size = n) (hlow : ∀ v : Nat, labels[v]! ≤ st.labels[v]!)
    (hsound : ∀ v : Nat, labels[v]! = l₀ v ∨ P v labels[v]!)
    (hwork : q.Work f P l₀ (fun v => labels[v]!) fork.dense_vertex_set[i]! (neighbours g fork i))
    (hlowered : ∀ v < n, labels[v]! < l₀ v ↔ st.labels[v]! < l₀ v ∨ q.Marks (neighbours g fork i) v)
    (hmarks : ∀ v, ¬ pc.Marks (neighbours g fork i) v) :
    Pushing g n f P l₀ fork { st with labels := labels, strands := st.strands.set i q } where
  labels := hsize
  flags := h.flags
  outEdges := h.outEdges
  strands := by simpa using h.strands
  lower v := (hlow v).trans (h.lower v)
  sound := hsound
  work := forall_set _ hwork fun k r _ hr => (h.work k r hr).lower hlow
  bits := h.bits
  written k r j' hr hj' := by
    rw [set_get hpc] at hr
    by_cases hk : k = i
    · rw [if_pos hk] at hr
      cases hr
      subst hk
      exact h.written k pc j' hpc (hsame ▸ hj')
    · rw [if_neg hk] at hr
      exact h.written k r j' hr hj'
  flagged v hv := by
    simp only [recorded_goto hpc hsame]
    exact h.flagged v hv
  once v i j i' j' hr hr' := by
    rw [recorded_goto hpc hsame] at hr hr'
    exact h.once v i j i' j' hr hr'
  lowered v hv := by
    rw [hlowered v hv, h.lowered v hv, or_assoc]
    refine or_congr_right ?_
    constructor
    · rintro (⟨k, r, hr, hm⟩ | hm)
      · have hk : k ≠ i := by
          rintro rfl
          obtain rfl : r = pc := Option.some.inj (hr.symm.trans hpc)
          exact hmarks v hm
        exact ⟨k, r, by rw [set_get hpc, if_neg hk, hr], hm⟩
      · exact ⟨i, q, by rw [set_get hpc, if_pos rfl], hm⟩
    · rintro ⟨k, r, hr, hm⟩
      rw [set_get hpc] at hr
      by_cases hk : k = i
      · rw [if_pos hk] at hr
        cases hr
        subst hk
        exact .inr hm
      · rw [if_neg hk] at hr
        exact .inl ⟨k, r, hr, hm⟩

theorem Pushing.recorded_leave (h : Pushing g n f P l₀ fork st) (hpc : st.strands[i]? = some pc)
    (hprog : pc.progress (neighbours g fork i).length = j) (hj : j < (neighbours g fork i).length)
    (x : Nat) (flags : Array Nat) (i' j' v : Nat) :
    Recorded g n fork { st with
        flags := flags
        outEdges := st.outEdges.setIfInBounds (cell g fork i j) x
        strands := st.strands.set i (.neighbour (j + 1)) } i' j' v ↔
      Recorded g n fork st i' j' v ∨ (i' = i ∧ j' = j ∧ x = v ∧ v < n) :=
  Forked.left_step (fun k (r : PushPc) => r.progress (neighbours g fork k).length)
    h.outEdges h.strands (fun k r hr => (h.work k r hr).progress_le) hpc hprog rfl hj x v

theorem Pushing.leave (h : Pushing g n f P l₀ fork st) (hpc : st.strands[i]? = some pc)
    (hprog : pc.progress (neighbours g fork i).length = j) {d : WNode}
    (hd : (neighbours g fork i)[j]? = some d)
    (hserved : Served f l₀ (fun v => st.labels[v]!) fork.dense_vertex_set[i]! (neighbours g fork i)
      (j + 1)) {x : Nat} {flags : Array Nat} (hx : x = UINT_E_MAX ∨ x < n)
    (hsize : flags.size = n) (hbits : ∀ v < n, flags[v]! = 0 ∨ flags[v]! = 1)
    (hold : ∀ v < n, x = v → st.flags[v]! ≠ 1)
    (hleft : ∀ v < n, flags[v]! = 1 ↔ st.flags[v]! = 1 ∨ x = v)
    (hmarked : ∀ v < n, flags[v]! = 1 ↔ st.flags[v]! = 1 ∨ pc.Marks (neighbours g fork i) v) :
    Pushing g n f P l₀ fork { st with
      flags := flags
      outEdges := st.outEdges.setIfInBounds (cell g fork i j) x
      strands := st.strands.set i (.neighbour (j + 1)) } := by
  have hj : j < (neighbours g fork i).length := (List.getElem?_eq_some_iff.mp hd).1
  have hi := h.strand_lt hpc
  have hcell : cell g fork i j < st.outEdges.size := h.outEdges ▸ Forked.cell_lt hi hj
  have hrec := h.recorded_leave hpc hprog hj x flags
  refine ⟨h.labels, hsize, by simpa using h.outEdges, by simpa using h.strands, h.lower, h.sound,
    forall_set _ ⟨hserved, hj⟩ fun k r _ hr => h.work k r hr, hbits, fun k r j' hr hj' => ?_,
    fun v hv => ?_, fun v k j₁ k' j₂ h₁ h₂ => ?_, fun v hv => ?_⟩
  · rw [set_get hpc] at hr
    simp only [put_get hcell]
    split_ifs at hr with hk
    · cases hr
      subst hk
      split_ifs with hsame
      · exact hx
      · refine h.written k pc j' hpc ?_
        rw [PushPc.progress_neighbour] at hj'
        have hne : j' ≠ j := fun he => hsame (he ▸ rfl)
        omega
    · split_ifs with hsame
      · exact hx
      · exact h.written k r j' hr hj'
  · rw [hleft v hv, h.flagged v hv]
    simp only [hrec]
    constructor
    · rintro (⟨k, j', hr⟩ | hxv)
      · exact ⟨k, j', .inl hr⟩
      · exact ⟨i, j, .inr ⟨rfl, rfl, hxv, hv⟩⟩
    · rintro ⟨k, j', hr | ⟨_, _, hxv, _⟩⟩
      · exact .inl ⟨k, j', hr⟩
      · exact .inr hxv
  · rw [hrec] at h₁ h₂
    have hfirst {k j' : Nat} (hr : Recorded g n fork st k j' v) : st.flags[v]! = 1 :=
      (h.flagged v hr.1).mpr ⟨k, j', hr⟩
    rcases h₁ with h₁ | ⟨rfl, rfl, hxv, hv⟩
    · rcases h₂ with h₂ | ⟨rfl, rfl, hxv, hv⟩
      · exact h.once v k j₁ k' j₂ h₁ h₂
      · exact absurd (hfirst h₁) (hold v hv hxv)
    · rcases h₂ with h₂ | ⟨rfl, rfl, _, _⟩
      · exact absurd (hfirst h₂) (hold v hv hxv)
      · exact ⟨rfl, rfl⟩
  · rw [h.lowered v hv, hmarked v hv, or_assoc]
    refine or_congr_right ?_
    constructor
    · rintro ⟨k, r, hr, hm⟩
      by_cases hk : k = i
      · subst hk
        obtain rfl : r = pc := Option.some.inj (hr.symm.trans hpc)
        exact .inl hm
      · exact .inr ⟨k, r, by rw [set_get hpc, if_neg hk, hr], hm⟩
    · rintro (hm | ⟨k, r, hr, hm⟩)
      · exact ⟨i, pc, hpc, hm⟩
      · rw [set_get hpc] at hr
        split_ifs at hr with hk
        · cases hr
          exact absurd hm not_false
        · exact ⟨k, r, hr, hm⟩

end Round

section Effort
variable (K : Nat) (l : Nat → Int)

/-- A bound on the steps a strand has left. A swap that is bound to fail counts for two more. -/
def PushPc.left (neigh : List WNode) : PushPc → Nat
  | .neighbour j => (neigh.length - j) * K + 1
  | .load j _ => (neigh.length - (j + 1)) * K + K
  | .swap j _ c => (neigh.length - (j + 1)) * K +
    if (neigh[j]?.map fun d => l d.v) = some c then K - 1 else K + 1
  | .mark j => (neigh.length - (j + 1)) * K + 2
  | .joined => 0

def pushEffort (g : WGraph) (fork : Fork) (st : PushState) : Nat :=
  effort (fun i => PushPc.left (2 * fork.dense_vertex_set.size + 4) (fun v => st.labels[v]!)
    (neighbours g fork i)) st.strands

variable {K l} {l' : Nat → Int} {neigh : List WNode} {j : Nat}

theorem PushPc.left_le (hK : 1 ≤ K) (l l' : Nat → Int) (neigh : List WNode) (pc : PushPc) :
    pc.left K l' neigh ≤ pc.left K l neigh + 2 := by
  cases pc with
  | swap j b c =>
    simp only [PushPc.left]
    split_ifs <;> omega
  | neighbour j => exact Nat.le_add_right _ _
  | load j b => exact Nat.le_add_right _ _
  | mark j => exact Nat.le_add_right _ _
  | joined => exact Nat.zero_le _

theorem left_neighbour (hj : j < neigh.length) :
    (PushPc.neighbour j).left K l neigh = (neigh.length - (j + 1)) * K + K + 1 := by
  obtain ⟨k, hk⟩ := Nat.le.dest (Nat.succ_le_of_lt hj)
  have h₁ : neigh.length - j = k + 1 := by omega
  have h₂ : neigh.length - (j + 1) = k := by omega
  rw [PushPc.left, h₁, h₂, Nat.succ_mul]

theorem effort_move {g : WGraph} {fork : Fork} {st st' : PushState} {i : Nat} {pc q : PushPc}
    (hpc : st.strands[i]? = some pc) (hlabels : st'.labels = st.labels)
    (hstrands : st'.strands = st.strands.set i q)
    (hlt : q.left (2 * fork.dense_vertex_set.size + 4) (fun v => st.labels[v]!)
      (neighbours g fork i) < pc.left (2 * fork.dense_vertex_set.size + 4)
      (fun v => st.labels[v]!) (neighbours g fork i)) :
    pushEffort g fork st' < pushEffort g fork st := by
  have hset := effort_set (fun i => PushPc.left (2 * fork.dense_vertex_set.size + 4)
    (fun v => st.labels[v]!) (neighbours g fork i)) hpc q
  rw [pushEffort, pushEffort, hlabels, hstrands]
  omega

end Effort

section Step
variable {g : WGraph} {n : Nat} {updateEdge : Int → Int → Option Int} {f : Int → Int → Int}
variable {P : Nat → Int → Prop} {F : Finset Nat} {l₀ : Nat → Int} {fork : Fork} {st : PushState}
variable {i : Nat} {pc : PushPc}

def Stepped (g : WGraph) (n : Nat) (updateEdge : Int → Int → Option Int) (f : Int → Int → Int)
    (P : Nat → Int → Prop) (l₀ : Nat → Int) (fork : Fork) (i : Nat) (st : PushState) : Prop :=
  ∃ st', pushStep g updateEdge fork i st = some st' ∧ Pushing g n f P l₀ fork st' ∧
    pushEffort g fork st' < pushEffort g fork st

theorem Pushing.goto (h : Pushing g n f P l₀ fork st) (hpc : st.strands[i]? = some pc) {q : PushPc}
    (hsame : q.progress (neighbours g fork i).length = pc.progress (neighbours g fork i).length)
    (hwork : q.Work f P l₀ (fun v => st.labels[v]!) fork.dense_vertex_set[i]! (neighbours g fork i))
    (hq : ∀ v, ¬ q.Marks (neighbours g fork i) v) (hmarks : ∀ v, ¬ pc.Marks (neighbours g fork i) v) :
    Pushing g n f P l₀ fork (st.goto i q) :=
  h.move hpc hsame h.labels (fun _ => le_rfl) h.sound hwork
    (fun v _ => (or_iff_left (hq v)).symm) hmarks

theorem Pushing.label_ok (ho : Offers g updateEdge f P F l₀) (h : Pushing g n f P l₀ fork st)
    {v : Nat} (hv : v ∈ F) : P v st.labels[v]! := by
  cases h.sound v with
  | inl hsame =>
    rw [hsame]
    exact ho.start v hv
  | inr hP => exact hP

theorem Pushing.step_neighbour (hg : g.Wellformed n) (hfork : Forked g n F fork)
    (ho : Offers g updateEdge f P F l₀) (h : Pushing g n f P l₀ fork st) {j : Nat}
    (hpc : st.strands[i]? = some (.neighbour j))
    (hdef : ∀ d, (neighbours g fork i)[j]? = some d →
      ∃ b, updateEdge d.w st.labels[fork.dense_vertex_set[i]!]! = some b) :
    Stepped g n updateEdge f P l₀ fork i st := by
  have hi := h.strand_lt hpc
  obtain ⟨hserved, hj⟩ := h.work i _ hpc
  rw [Stepped, hfork.step_eq hg updateEdge hi hpc, advance]
  cases hd : (neighbours g fork i)[j]? with
  | none =>
    have hlen : j = (neighbours g fork i).length :=
      le_antisymm hj (List.getElem?_eq_none_iff.mp hd)
    have hall : Served f l₀ (fun v => st.labels[v]!) fork.dense_vertex_set[i]!
        (neighbours g fork i) (neighbours g fork i).length := by
      rw [← hlen]
      exact hserved
    exact ⟨_, rfl, h.goto hpc hlen.symm hall (fun _ => id) fun _ => id,
      effort_move hpc rfl rfl (Nat.succ_pos _)⟩
  | some d =>
    have hlt : j < (neighbours g fork i).length := (List.getElem?_eq_some_iff.mp hd).1
    have hmem := hfork.source_mem hi
    have hread : st.labels[fork.dense_vertex_set[i]!]? =
        some st.labels[fork.dense_vertex_set[i]!]! := read_eq (h.labels ▸ hfork.source_lt hi)
    obtain ⟨b, hupd⟩ := hdef d hd
    obtain ⟨rfl, hPd⟩ := ho.keeps _ hmem d (List.mem_of_getElem? hd) _ _ (h.label_ok ho hmem)
      (h.lower _) hupd
    simp only [hread, some_bind, hupd]
    refine ⟨_, rfl, h.goto hpc rfl ⟨hserved, d, hd, hPd, ho.mono d.w (h.lower _)⟩ (fun _ => id)
      fun _ => id, effort_move hpc rfl rfl ?_⟩
    rw [left_neighbour hlt]
    exact Nat.lt_succ_self _

theorem Pushing.skip (hg : g.Wellformed n) (h : Pushing g n f P l₀ fork st)
    (hpc : st.strands[i]? = some pc) {j : Nat}
    (hprog : pc.progress (neighbours g fork i).length = j) {d : WNode}
    (hd : (neighbours g fork i)[j]? = some d)
    (hserved : Served f l₀ (fun v => st.labels[v]!) fork.dense_vertex_set[i]! (neighbours g fork i)
      (j + 1)) (hmarked : ∀ v < n, pc.Marks (neighbours g fork i) v → st.flags[v]! = 1)
    (hlt : (PushPc.neighbour (j + 1)).left (2 * fork.dense_vertex_set.size + 4)
      (fun v => st.labels[v]!) (neighbours g fork i) < pc.left
      (2 * fork.dense_vertex_set.size + 4) (fun v => st.labels[v]!) (neighbours g fork i)) :
    ∃ st', st.record i (rowStart (degrees g fork) i) j UINT_E_MAX = some st' ∧
      Pushing g n f P l₀ fork st' ∧ pushEffort g fork st' < pushEffort g fork st := by
  have hj : j < (neighbours g fork i).length := (List.getElem?_eq_some_iff.mp hd).1
  have hcell : cell g fork i j < st.outEdges.size :=
    h.outEdges ▸ Forked.cell_lt (h.strand_lt hpc) hj
  have hmax (v : Nat) (hv : v < n) : ¬ UINT_E_MAX = v := by
    have := hg.fits
    rw [UINT_E_MAX]
    omega
  refine ⟨_, by rw [PushState.record, ← cell, store_eq hcell]; rfl,
    h.leave hpc hprog hd hserved (.inl rfl) h.flags h.bits (fun v hv hx => absurd hx (hmax v hv))
    (fun v hv => (or_iff_left (hmax v hv)).symm)
    (fun v hv => (or_iff_left_of_imp (hmarked v hv)).symm), effort_move hpc rfl rfl hlt⟩

theorem Pushing.step_load (hg : g.Wellformed n) (hfork : Forked g n F fork)
    (h : Pushing g n f P l₀ fork st) {j : Nat} {b : Int}
    (hpc : st.strands[i]? = some (.load j b)) : Stepped g n updateEdge f P l₀ fork i st := by
  have hi := h.strand_lt hpc
  obtain ⟨hserved, d, hd, hP, hb⟩ := h.work i _ hpc
  have hread : st.labels[d.v]? = some st.labels[d.v]! :=
    read_eq (h.labels ▸ hfork.neighbour_lt hg hi hd)
  rw [Stepped, hfork.step_eq hg updateEdge hi hpc, advance]
  simp only [hd, some_bind, hread]
  by_cases hc : st.labels[d.v]! > b
  · rw [if_pos hc]
    refine ⟨_, rfl, h.goto hpc rfl ⟨hserved, d, hd, hP, hb, hc, le_rfl⟩ (fun _ => id) fun _ => id,
      effort_move hpc rfl rfl ?_⟩
    simp only [PushPc.left, hd, Option.map_some, if_true]
    omega
  · rw [if_neg hc]
    refine h.skip hg hpc rfl hd (hserved.succ hd ((Int.not_lt.mp hc).trans hb))
      (fun _ _ hm => absurd hm not_false) ?_
    simp only [PushPc.left]
    omega

theorem Pushing.step_swap (hg : g.Wellformed n) (hfork : Forked g n F fork)
    (h : Pushing g n f P l₀ fork st) {j : Nat} {b c : Int}
    (hpc : st.strands[i]? = some (.swap j b c)) : Stepped g n updateEdge f P l₀ fork i st := by
  have hi := h.strand_lt hpc
  obtain ⟨hserved, d, hd, hP, hb, hbc, _⟩ := h.work i _ hpc
  have hv : d.v < st.labels.size := h.labels ▸ hfork.neighbour_lt hg hi hd
  rw [Stepped, hfork.step_eq hg updateEdge hi hpc, advance]
  simp only [hd, some_bind, read_eq hv]
  by_cases hc : st.labels[d.v]! = c
  · rw [if_pos hc, store_eq hv]
    -- the label goes down, and swaps of other strands may be bound to fail from now on
    have hlow (v : Nat) : (st.labels.setIfInBounds d.v b)[v]! ≤ st.labels[v]! := by
      rw [put_get hv]
      split_ifs with hvd
      · rw [hvd, hc]
        exact hbc.le
      · exact le_rfl
    have hnew : (st.labels.setIfInBounds d.v b)[d.v]! = b := put_get_self hv b
    have hbelow : b < l₀ d.v := (hc ▸ hbc).trans_le (h.lower d.v)
    refine ⟨_, rfl, h.move (q := .mark j) hpc rfl (by simpa using h.labels) hlow (fun v => ?_)
      ⟨?_, d, hd, ?_⟩
      (fun v hvn => ?_) (fun _ => id), ?_⟩
    · rw [put_get hv]
      split_ifs with hvd
      · exact .inr (hvd ▸ hP)
      · exact h.sound v
    · refine (hserved.lower hlow).succ hd ?_
      simp only [hnew]
      exact hb
    · simp only [hnew]
      exact hbelow
    · by_cases hvd : v = d.v
      · subst hvd
        rw [hnew]
        exact iff_of_true hbelow (.inr ⟨d, hd, rfl⟩)
      · rw [put_get_ne hvd]
        refine (or_iff_left ?_).symm
        rintro ⟨d', hd', rfl⟩
        exact hvd (congrArg WNode.v (Option.some.inj (hd'.symm.trans hd)))
    · have hset := effort_set (fun i => PushPc.left (2 * fork.dense_vertex_set.size + 4)
        (fun v => st.labels[v]!) (neighbours g fork i)) hpc (.mark j)
      have hall := effort_le (fun k q => PushPc.left_le
        (show 1 ≤ 2 * fork.dense_vertex_set.size + 4 by omega) (fun v => st.labels[v]!)
        (fun v => (st.labels.setIfInBounds d.v b)[v]!) (neighbours g fork k) q)
        (st.strands.set i (.mark j))
      rw [List.length_set, h.strands] at hall
      simp only [PushPc.left, hd, Option.map_some, hc, if_true] at hset
      simp only [pushEffort]
      omega
  · rw [if_neg hc]
    refine ⟨_, rfl, h.goto hpc rfl ⟨hserved, d, hd, hP, hb⟩ (fun _ => id) fun _ => id,
      effort_move hpc rfl rfl ?_⟩
    have hfail : ¬ (some st.labels[d.v]! = some c) := fun heq => hc (Option.some.inj heq)
    simp only [PushPc.left, hd, Option.map_some, if_neg hfail]
    omega

theorem Pushing.step_mark (hg : g.Wellformed n) (hfork : Forked g n F fork)
    (h : Pushing g n f P l₀ fork st) {j : Nat} (hpc : st.strands[i]? = some (.mark j)) :
    Stepped g n updateEdge f P l₀ fork i st := by
  have hi := h.strand_lt hpc
  obtain ⟨hserved, d, hd, _⟩ := h.work i _ hpc
  have hdn := hfork.neighbour_lt hg hi hd
  have hv : d.v < st.flags.size := h.flags ▸ hdn
  have hmarks (v : Nat) : (PushPc.mark j).Marks (neighbours g fork i) v ↔ d.v = v := by
    constructor
    · rintro ⟨d', hd', rfl⟩
      exact congrArg WNode.v (Option.some.inj (hd.symm.trans hd'))
    · exact fun hvd => ⟨d, hd, hvd⟩
  rw [Stepped, hfork.step_eq hg updateEdge hi hpc, advance]
  simp only [hd, some_bind, read_eq hv]
  by_cases hflag : st.flags[d.v]! = 0
  · have hj : j < (neighbours g fork i).length := (List.getElem?_eq_some_iff.mp hd).1
    have hcell : cell g fork i j < st.outEdges.size := h.outEdges ▸ Forked.cell_lt hi hj
    have hget (v : Nat) : (st.flags.setIfInBounds d.v 1)[v]! = 1 ↔ st.flags[v]! = 1 ∨ d.v = v := by
      rw [put_get hv]
      by_cases hvd : v = d.v
      · simp [hvd]
      · simp [hvd, Ne.symm hvd]
    rw [if_pos hflag, store_eq hv, some_bind, PushState.record, ← cell, store_eq hcell]
    refine ⟨_, rfl, h.leave hpc rfl hd hserved (.inr hdn) (by simpa using h.flags)
      (fun v hvn => ?_) (fun v _ hvd => ?_) (fun v _ => hget v)
      (fun v _ => by rw [hget v, hmarks v]), effort_move hpc rfl rfl ?_⟩
    · rw [put_get hv]
      split_ifs
      · exact .inr rfl
      · exact h.bits v hvn
    · rw [← hvd, hflag]
      exact Nat.zero_ne_one
    · simp only [PushPc.left]
      omega
  · rw [if_neg hflag]
    refine h.skip hg hpc rfl hd hserved (fun v hvn hm => ?_) ?_
    · obtain rfl := (hmarks v).mp hm
      exact (h.bits d.v hvn).resolve_left hflag
    · simp only [PushPc.left]
      omega

theorem Pushing.step (hg : g.Wellformed n) (hfork : Forked g n F fork)
    (ho : Offers g updateEdge f P F l₀) (h : Pushing g n f P l₀ fork st)
    (hpc : st.strands[i]? = some pc) (hnot : pc ≠ .joined)
    (hdef : ∀ j d, pc = .neighbour j → (neighbours g fork i)[j]? = some d →
      ∃ b, updateEdge d.w st.labels[fork.dense_vertex_set[i]!]! = some b) :
    Stepped g n updateEdge f P l₀ fork i st := by
  cases pc with
  | neighbour j => exact h.step_neighbour hg hfork ho hpc fun d => hdef j d rfl
  | load j b => exact h.step_load hg hfork hpc
  | swap j b c => exact h.step_swap hg hfork hpc
  | mark j => exact h.step_mark hg hfork hpc
  | joined => exact absurd rfl hnot

theorem Pushing.progress (hg : g.Wellformed n) (hfork : Forked g n F fork)
    (ho : Offers g updateEdge f P F l₀) (hdef : Defined g updateEdge P F l₀)
    (h : Pushing g n f P l₀ fork st) (hpc : st.strands[i]? = some pc) (hnot : pc ≠ .joined) :
    ∃ st', pushStep g updateEdge fork i st = some st' := by
  have hmem := hfork.source_mem (h.strand_lt hpc)
  obtain ⟨st', hstep, _⟩ := h.step hg hfork ho hpc hnot fun j d _ hd =>
    hdef _ hmem d (List.mem_of_getElem? hd) _ (h.label_ok ho hmem) (h.lower _)
  exact ⟨st', hstep⟩

theorem Pushing.next (hg : g.Wellformed n) (hfork : Forked g n F fork)
    (ho : Offers g updateEdge f P F l₀) (h : Pushing g n f P l₀ fork st) {st' : PushState}
    (hstep : pushStep g updateEdge fork i st = some st') :
    Pushing g n f P l₀ fork st' ∧ pushEffort g fork st' < pushEffort g fork st := by
  obtain ⟨pc, hpc⟩ : ∃ pc, st.strands[i]? = some pc := by
    obtain ⟨_, _, hrest⟩ := Option.bind_eq_some_iff.mp hstep
    obtain ⟨_, _, hrest⟩ := Option.bind_eq_some_iff.mp hrest
    obtain ⟨_, _, hrest⟩ := Option.bind_eq_some_iff.mp hrest
    obtain ⟨pc, hpc, _⟩ := Option.bind_eq_some_iff.mp hrest
    exact ⟨pc, hpc⟩
  have hi := h.strand_lt hpc
  have hadv := hstep
  rw [hfork.step_eq hg updateEdge hi hpc] at hadv
  have hnot : pc ≠ .joined := by
    rintro rfl
    cases hadv
  obtain ⟨st₁, hone, hnext⟩ := h.step hg hfork ho hpc hnot fun j d hj hd => by
    subst hj
    simp only [advance, hd, read_eq (h.labels.symm ▸ hfork.source_lt hi :
      fork.dense_vertex_set[i]! < st.labels.size), some_bind] at hadv
    obtain ⟨b, hb, _⟩ := Option.bind_eq_some_iff.mp hadv
    exact ⟨b, hb⟩
  obtain rfl : st₁ = st' := Option.some.inj (hone.symm.trans hstep)
  exact hnext

end Step

end GraphReorder.GraphIt
