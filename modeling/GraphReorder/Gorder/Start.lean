import GraphReorder.Gorder.ReConstruct
import GraphReorder.Gorder.Tracks

/-! How `GorderGreedy` starts: the queue is built from the indegrees, the vertices without any edge
leave it, and so does the one of greatest indegree. -/
namespace GraphReorder.Gorder
open Library

/-- The header has a place above the key of every vertex but the first one. Without it a vertex of
the greatest indegree is moved up past the end of the header. -/
def Graph.Spare (g : Graph) : Prop := ∃ t < g.vsize, ∀ v < g.vsize, v ≠ t →
  g.graph[v]!.indegree ≤ g.graph[t]!.indegree ∧
    g.graph[v]!.indegree + 2 ≤ max (g.graph[t]!.indegree + 1) (max (g.vsize >>> 4) 4)

section Start
variable {g : Graph} {std : StdSort}

theorem loadKeys_spec (hg : g.Valid) :
    ∃ h, g.loadKeys (.create g.vsize) = some h ∧ h.LinkedList.size = g.vsize ∧
      h.update.size = g.vsize ∧ h.heapsize = g.vsize ∧ h.Header.size = max (g.vsize >>> 4) 4 ∧
      ∀ v < g.vsize, keyOf h.LinkedList v = g.graph[v]!.indegree ∧
        h.update[v]! = -(g.graph[v]!.indegree : Int) := by
  refine forRange_rule (fun i (h : UnitHeap) => h.LinkedList.size = g.vsize ∧
    h.update.size = g.vsize ∧ h.heapsize = g.vsize ∧ h.Header.size = max (g.vsize >>> 4) 4 ∧
      ∀ v < i, keyOf h.LinkedList v = g.graph[v]!.indegree ∧
        h.update[v]! = -(g.graph[v]!.indegree : Int)) (Nat.zero_le _) ⟨?_, ?_, rfl, ?_, ?_⟩ ?_
  · simp [UnitHeap.create]
  · simp [UnitHeap.create]
  · simp [UnitHeap.create]
  · exact fun v hv => absurd hv (Nat.not_lt_zero v)
  · intro i h _ hi ⟨hL, hu, hheap, hH, hkey⟩
    have hi0 : (0 : Int) ≤ i := Int.natCast_nonneg i
    have hiL : (i : Int) < h.LinkedList.size := by omega
    have hset : setKey h.LinkedList i g.graph[i]!.indegree =
        some (onKey h.LinkedList i g.graph[i]!.indegree) := setKey_eq hi0 hiL
    have hiu : i < h.update.size := hu.symm ▸ hi
    refine ⟨{ h with
      LinkedList := onKey h.LinkedList i g.graph[i]!.indegree
      update := h.update.setIfInBounds i (-(g.graph[i]!.indegree : Int)) }, ?_, by simpa using hL,
      by simpa using hu, hheap, hH, fun v hv => ?_⟩
    · rw [hg.read_vertex hi.le, some_bind]
      simp only [hset, some_bind, writeAt_nat hiu]
      rfl
    · change keyOf (onKey h.LinkedList i _) v = _ ∧ (h.update.setIfInBounds i _)[v]! = _
      rw [keyOf_onKey hi0 hiL, put_get hiu]
      by_cases hvi : v = i
      · rw [if_pos (by rw [hvi]), if_pos hvi, hvi]
        exact ⟨rfl, rfl⟩
      · rw [if_neg (by omega), if_neg hvi]
        exact hkey v (by omega)

structure Picking (g : Graph) (header i : Nat) (st : Graph.Pick) : Prop where
  queue : ∃ l, (st.zero.toList ++ l).Perm (List.range g.vsize) ∧ Holds st.unitheap l
  key : ∀ v < g.vsize, keyOf st.unitheap.LinkedList v = g.graph[v]!.indegree
  update : ∀ v < g.vsize, st.unitheap.update[v]! =
    if v ∈ st.zero.toList then halfMax else -(g.graph[v]!.indegree : Int)
  header : st.unitheap.Header.size = header
  heapsize : st.unitheap.heapsize = g.vsize
  zero : ∀ v ∈ st.zero.toList, v < i
  best : (i = 0 ∧ st.tmpweight = -1) ∨ ∃ t < i, st.tmpindex = some t ∧ t ∉ st.zero.toList ∧
    st.tmpweight = g.graph[t]!.indegree ∧ ∀ v < i, g.graph[v]!.indegree ≤ g.graph[t]!.indegree

theorem Picking.step (hg : g.Valid) {header i : Nat} {st : Graph.Pick} (hi : i < g.vsize)
    (h : Picking g header i st) :
    ∃ st', g.pickStep i st = some st' ∧ Picking g header (i + 1) st' := by
  obtain ⟨⟨l, hperm, hh⟩, hkey, hup, hheader, hheap, hzero, hbest⟩ := h
  have hizero : i ∉ st.zero.toList := fun hm => absurd (hzero i hm) (lt_irrefl i)
  simp only [Graph.pickStep, hg.read_vertex hi.le, some_bind]
  by_cases hlt : st.tmpweight < g.graph[i]!.indegree
  · rw [if_pos hlt]
    refine ⟨_, rfl, ⟨l, hperm, hh⟩, hkey, hup, hheader, hheap,
      fun v hv => (hzero v hv).trans (Nat.lt_succ_self i),
      .inr ⟨i, Nat.lt_succ_self i, rfl, hizero, rfl, fun v hv => ?_⟩⟩
    rcases Nat.eq_or_lt_of_le (Nat.le_of_lt_succ hv) with rfl | hvi
    · exact le_rfl
    · cases hbest with
      | inl h0 => omega
      | inr hb =>
        obtain ⟨t, _, _, _, hw, hmax⟩ := hb
        have := hmax v hvi
        omega
  · -- there is one with no smaller indegree already
    rw [if_neg hlt]
    obtain ⟨t, hti, ht, htzero, hw, hmax⟩ : ∃ t < i, st.tmpindex = some t ∧
        t ∉ st.zero.toList ∧ st.tmpweight = g.graph[t]!.indegree ∧
        ∀ v < i, g.graph[v]!.indegree ≤ g.graph[t]!.indegree := by
      cases hbest with
      | inl h0 => omega
      | inr hb => exact hb
    have hmax' (v : Nat) (hv : v < i + 1) : g.graph[v]!.indegree ≤ g.graph[t]!.indegree := by
      rcases Nat.eq_or_lt_of_le (Nat.le_of_lt_succ hv) with rfl | hvi
      · omega
      · exact hmax v hvi
    by_cases halone : g.graph[i]!.indegree + g.graph[i]!.outdegree = 0
    · have hil : i ∈ l := by
        cases List.mem_append.mp (hperm.mem_iff.mpr (List.mem_range.mpr hi)) with
        | inl hm => exact absurd hm hizero
        | inr hm => exact hm
      obtain ⟨h₁, h₂, hmark, hdel, hh₂, hkey₂, hup₂, hheader₂, hheap₂⟩ := hh.remove hil
      rw [if_pos halone, hmark, some_bind, hdel]
      have hmem (v : Nat) : v ∈ (st.zero.push i).toList ↔ v ∈ st.zero.toList ∨ v = i := by
        rw [Array.toList_push, List.mem_append, List.mem_singleton]
      refine ⟨_, rfl, ⟨l.erase i, ?_, hh₂⟩, fun v hv => (hkey₂ v).trans (hkey v hv),
        fun v hv => ?_, hheader₂.trans hheader, hheap₂.trans hheap, fun v hv => ?_,
        .inr ⟨t, hti.trans (Nat.lt_succ_self i), ht, fun hm => ?_, hw, hmax'⟩⟩
      · refine List.Perm.trans ?_ hperm
        rw [Array.toList_push, List.append_assoc]
        exact List.Perm.append_left _ (List.perm_cons_erase hil).symm
      · rw [hup₂]
        by_cases hvi : v = i
        · rw [if_pos hvi, if_pos ((hmem v).mpr (.inr hvi))]
        · rw [if_neg hvi, hup v hv]
          refine if_congr ?_ rfl rfl
          rw [hmem]
          exact ⟨.inl, fun hm => hm.resolve_right hvi⟩
      · cases (hmem v).mp hv with
        | inl hv => exact (hzero v hv).trans (Nat.lt_succ_self i)
        | inr hv => omega
      · cases (hmem t).mp hm with
        | inl hm => exact htzero hm
        | inr hm => omega
    · rw [if_neg halone]
      exact ⟨st, rfl, ⟨l, hperm, hh⟩, hkey, hup, hheader, hheap,
        fun v hv => (hzero v hv).trans (Nat.lt_succ_self i),
        .inr ⟨t, hti.trans (Nat.lt_succ_self i), ht, htzero, hw, hmax'⟩⟩

theorem start_spec (std : StdSort) (hg : g.Valid) (htwo : 2 ≤ g.vsize) (hspare : g.Spare)
    {cap : Int} (hcap : (g.vsize : Int) ≤ cap) :
    ∃ h₀ h₁ pick t h₂ h₃ l, g.loadKeys (.create g.vsize) = some h₀ ∧
      h₀.reConstruct std = some h₁ ∧
      forRange 0 g.vsize g.pickStep { unitheap := h₁ } = some pick ∧ pick.tmpindex = some t ∧
      mark t pick.unitheap = some h₂ ∧ h₂.deleteElement t = some h₃ ∧
      ([t] ++ pick.zero.toList ++ l).Perm (List.range g.vsize) ∧
      Tracks g.vsize cap h₃ l fun _ => 0 := by
  obtain ⟨h₀, hload, hL₀, hu₀, hheap₀, hH₀, hkey₀⟩ := loadKeys_spec hg
  obtain ⟨h₁, l₁, hrec, hperm₁, hh₁, hu₁, hkey₁, hheap₁, hH₁, hfit⟩ := reConstruct_holds std h₀
    (hL₀.trans hheap₀.symm) (hu₀.trans hheap₀.symm) (hheap₀.symm ▸ htwo)
    fun v hv => by rw [(hkey₀ v (hheap₀ ▸ hv)).1]; exact Int.natCast_nonneg _
  rw [hheap₀] at hperm₁ hfit hheap₁
  have hstart : Picking g h₁.Header.size 0 { unitheap := h₁ } := by
    refine ⟨⟨l₁, hperm₁, hh₁⟩, fun v hv => (hkey₁ v).trans (hkey₀ v hv).1, fun v hv => ?_, rfl,
      hheap₁, fun v hv => absurd hv (by simp), .inl ⟨rfl, rfl⟩⟩
    rw [if_neg (by simp)]
    change h₁.update[v]! = _
    rw [hu₁]
    exact (hkey₀ v hv).2
  obtain ⟨pick, hpick, ⟨l, hperm, hh⟩, hkey, hup, hheader, hheap, hzero, hbest⟩ := forRange_rule
    (fun i st => Picking g h₁.Header.size i st) (Nat.zero_le g.vsize) hstart
    fun i st _ hi hI => hI.step hg hi
  obtain ⟨t, htn, ht, htzero, _, hmax⟩ := hbest.resolve_left fun h0 => by omega
  have htl : t ∈ l := by
    cases List.mem_append.mp (hperm.mem_iff.mpr (List.mem_range.mpr htn)) with
    | inl hm => exact absurd hm htzero
    | inr hm => exact hm
  obtain ⟨h₂, h₃, hmark, hdel, hh₃, hkey₃, hup₃, hheader₃, hheap₃⟩ := hh.remove htl
  have hrest {v : Nat} (hv : v ∈ l.erase t) : v < g.vsize ∧ v ≠ t ∧ v ∉ pick.zero.toList := by
    obtain ⟨hne, hvl⟩ := (List.Nodup.mem_erase_iff hh.nodup).mp hv
    refine ⟨List.mem_range.mp (hperm.mem_iff.mp (List.mem_append_right _ hvl)), hne, fun hz => ?_⟩
    have hd := hperm.nodup_iff.mpr List.nodup_range
    exact (List.nodup_append.mp hd).2.2 v hz v hvl rfl
  have hsize : max (g.graph[t]!.indegree + 1) (max (g.vsize >>> 4) 4) ≤ h₃.Header.size := by
    have hfit' := hfit t htn
    rw [(hkey₀ t htn).1] at hfit'
    omega
  refine ⟨h₀, h₁, pick, t, h₂, h₃, l.erase t, hload, hrec, hpick, ht, hmark, hdel, ?_, hh₃,
    hheap₃.trans hheap, fun v hv => ?_, fun v hv => ?_, fun v hv => ?_, fun v hv hvl => ?_⟩
  · refine List.Perm.trans ?_ hperm
    rw [List.singleton_append, List.cons_append]
    exact List.perm_middle.symm.trans (List.Perm.append_left _ (List.perm_cons_erase htl).symm)
  · -- the first vertex is one of the greatest, so that the place above is there for the others
    obtain ⟨hvn, hvt, _⟩ := hrest hv
    obtain ⟨t', ht', hroom⟩ := hspare
    have hv' := hmax v hvn
    have ht'' := hmax t' ht'
    rw [hkey₃, hkey v hvn]
    by_cases hvt' : v = t'
    · have := hroom t htn fun he => hvt (hvt'.trans he.symm)
      rw [hvt'] at hv' ⊢
      omega
    · have := hroom v hvn hvt'
      omega
  · obtain ⟨hvn, _, _⟩ := hrest hv
    have := hg.indegree_le hvn
    rw [hkey₃, hkey v hvn]
    omega
  · obtain ⟨hvn, hvt, hvz⟩ := hrest hv
    rw [hkey₃, hkey v hvn, hup₃, if_neg hvt, hup v hvn, if_neg hvz]
    omega
  · refine ⟨0, le_rfl, by omega, ?_⟩
    rw [hup₃]
    by_cases hvt : v = t
    · rw [if_pos hvt]
      rfl
    · have hvz : v ∈ pick.zero.toList := by
        have hvl' : v ∉ l := fun hm =>
          hvl ((List.Nodup.mem_erase_iff hh.nodup).mpr ⟨hvt, hm⟩)
        exact (List.mem_append.mp (hperm.mem_iff.mpr (List.mem_range.mpr hv))).resolve_right hvl'
      rw [if_neg hvt, hup v hv, if_pos hvz]
      rfl

end Start

end GraphReorder.Gorder
