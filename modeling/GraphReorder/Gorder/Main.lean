import GraphReorder.Gorder.Placed
import GraphReorder.Gorder.Print

/-! The program: a text of edges goes in, and the same edges under better numbers come out. -/
namespace GraphReorder.Gorder
open Library

def main (std : StdSort) (before : Option Int) (W : Int) (fp line : List Char) : Option (List Char) := do
  if W ≤ 0 then none
  else do
    let g ← readGraph std fp line
    let g ← g.transform std
    let order ← g.gorderGreedy std before W.toNat
    g.printReOrderedGraph std order

section Program
variable {g : Graph} {es : List (Nat × Nat)} {order : Array Nat} {n : Nat}

def entering (es : List (Nat × Nat)) (v : Nat) : Nat := (group (es.map Prod.swap) v).length

/-- The header of the queue has a place above the key of every vertex but the first one. -/
def SpareEdges (n : Nat) (es : List (Nat × Nat)) : Prop := ∃ t < n, ∀ v < n, v ≠ t →
  entering es v ≤ entering es t ∧ entering es v + 2 ≤ max (entering es t + 1) (max (n >>> 4) 4)

theorem indegree_renumbered (hg : g.Valid) (hd : es.Nodup)
    (hin : ∀ e ∈ es, e.1 < g.vsize ∧ e.2 < g.vsize)
    (hbij : Set.BijOn (order[·]!) (Set.Iio g.vsize) (Set.Iio g.vsize))
    (hmem : ∀ u < g.vsize, ∀ v < g.vsize, order[v]! ∈ g.outs order[u]! ↔ (u, v) ∈ es) {v : Nat}
    (hv : v < g.vsize) : g.graph[order[v]!]!.indegree = entering es v := by
  have hto {u : Nat} (hu : u < g.vsize) : order[u]! < g.vsize := hbij.mapsTo hu
  have hsource {u : Nat} : u ∈ group (es.map Prod.swap) v ↔ (u, v) ∈ es := by
    rw [mem_group, List.mem_map]
    constructor
    · rintro ⟨e, he, hswap⟩
      obtain ⟨rfl, rfl⟩ := Prod.mk.inj hswap
      exact he
    · exact fun he => ⟨(u, v), he, rfl⟩
  have hgroup : (group (es.map Prod.swap) v).Nodup := group_nodup (hd.map Prod.swap_injective) v
  have hperm : (g.ins order[v]!).Perm ((group (es.map Prod.swap) v).map (order[·]!)) := by
    refine (List.perm_ext_iff_of_nodup (hg.distinct _ (hto hv)) (List.Nodup.map_on
      (fun u hu w hw he => hbij.injOn (hin _ (hsource.mp hu)).1 (hin _ (hsource.mp hw)).1 he)
      hgroup)).mpr fun x => ?_
    rw [List.mem_map]
    constructor
    · intro hx
      have hxn := hg.ins_lt (hto hv) hx
      obtain ⟨u, hu, rfl⟩ := hbij.surjOn hxn
      exact ⟨u, hsource.mpr ((hmem u hu v hv).mp ((hg.transposed _ hxn _ (hto hv)).mp hx)), rfl⟩
    · rintro ⟨u, hu, rfl⟩
      have hun := (hin _ (hsource.mp hu)).1
      exact (hg.transposed _ (hto hun) _ (hto hv)).mpr ((hmem u hun v hv).mpr (hsource.mp hu))
  rw [← hg.ins_length (hto hv), hperm.length_eq, List.length_map]
  rfl

theorem spare_renumbered (hg : g.Valid) (hd : es.Nodup)
    (hin : ∀ e ∈ es, e.1 < g.vsize ∧ e.2 < g.vsize)
    (hbij : Set.BijOn (order[·]!) (Set.Iio g.vsize) (Set.Iio g.vsize))
    (hmem : ∀ u < g.vsize, ∀ v < g.vsize, order[v]! ∈ g.outs order[u]! ↔ (u, v) ∈ es)
    (hspare : SpareEdges g.vsize es) : g.Spare := by
  obtain ⟨t, ht, hroom⟩ := hspare
  have hkeep {v : Nat} (hv : v < g.vsize) := indegree_renumbered hg hd hin hbij hmem hv
  refine ⟨order[t]!, hbij.mapsTo ht, fun x hx hne => ?_⟩
  obtain ⟨v, hv, rfl⟩ := hbij.surjOn hx
  simp only [hkeep hv, hkeep ht]
  exact hroom v hv fun he => hne (by rw [he])

/-- What the program writes is the text of the edges it has read, under other numbers. -/
theorem main_spec (std : StdSort) {fp line : List Char} {s : Scan} {W : Int}
    {before : Option Int} (hread : readEdges fp line = some s) (hne : s.edges ≠ [])
    (hd : s.edges.Nodup) (hedges : s.edges.length ≤ 2147483647)
    (hspare : SpareEdges (s.vsize + 1) s.edges) (hW : 0 < W)
    (hcap : (W + 1) * (s.vsize + 3) < halfMax) (hbefore : ReadsBefore before 1) :
    ∃ es number, main std before W fp line = some (printed es) ∧ Sorted es ∧
      Set.BijOn number (Set.Iio (s.vsize + 1)) (Set.Iio (s.vsize + 1)) ∧
      es.Perm (s.edges.map fun e => (number e.1, number e.2)) := by
  have hin := readEdges_wellformed hread
  have hmax : s.vsize + 1 < 2147483647 := by
    have hdouble : 2 * ((s.vsize : Int) + 3) ≤ (W + 1) * (s.vsize + 3) :=
      Int.mul_le_mul_of_nonneg_right (by omega) (by omega)
    have hhalf : halfMax = 1073741823 := rfl
    omega
  obtain ⟨g, hg, hn, hm, hs, hout, houts⟩ := readGraph_spec std hread hd hmax hedges
  obtain ⟨order₁, g', _, _, hbij₁, htransform, hn', _, hvalid, hmem⟩ :=
    transform_run std hout (by omega) (hm.trans hs.symm)
  have hmem₁ (u : Nat) (hu : u < g'.vsize) (v : Nat) (hv : v < g'.vsize) :
      order₁[v]! ∈ g'.outs order₁[u]! ↔ (u, v) ∈ s.edges := by
    rw [hmem u (hn' ▸ hu) v (hn' ▸ hv), houts u (hn' ▸ hu)]
  rw [← hn'] at hbij₁
  have hn₂ : g'.vsize = s.vsize + 1 := hn'.trans hn
  have hlt (e : Nat × Nat) (he : e ∈ s.edges) : e.1 < g'.vsize ∧ e.2 < g'.vsize := by
    obtain ⟨h₁, h₂⟩ := hin.le he
    omega
  have htwo : 2 ≤ g'.vsize := by
    obtain ⟨e, he⟩ := List.exists_mem_of_ne_nil _ hne
    have hne := hin.proper e he
    have := hlt e he
    omega
  have hcap₂ : scoreCap g' W.toNat < halfMax := by
    have hthree : ((g'.vsize + 2 : Nat) : Int) = s.vsize + 3 := by omega
    rw [scoreCap, Int.natCast_mul, Int.natCast_succ, Int.toNat_of_nonneg hW.le, hthree]
    exact hcap
  obtain ⟨order₂, hgreedy, ho₂, hbij₂⟩ := gorderGreedy_bijOn g' std before W.toNat hvalid htwo
    (spare_renumbered hvalid hd hlt hbij₁ hmem₁ (hn₂ ▸ hspare)) (by omega)
    hcap₂ hbefore
  obtain ⟨es, hprint, hsorted, hperm⟩ :=
    printReOrderedGraph_spec std hvalid.toOutgoing ho₂ hbij₂
  refine ⟨es, fun u => order₂[order₁[u]!]!, ?_, hsorted, hn₂ ▸ hbij₂.comp hbij₁, ?_⟩
  · simp only [main, if_neg (not_le.mpr hW), hg, htransform, hgreedy, some_bind]
    exact hprint
  · refine hperm.trans ?_
    have hedges : (edgesOf g'.vsize g'.outs).Perm
        (s.edges.map fun e => (order₁[e.1]!, order₁[e.2]!)) := by
      have hd' : (s.edges.map fun e => (order₁[e.1]!, order₁[e.2]!)).Nodup :=
        List.Nodup.map_on (fun e he e' he' hee => by
          obtain ⟨h₁, h₂⟩ := Prod.mk.inj hee
          exact Prod.ext (hbij₁.injOn (hlt e he).1 (hlt e' he').1 h₁)
            (hbij₁.injOn (hlt e he).2 (hlt e' he').2 h₂)) hd
      refine (List.perm_ext_iff_of_nodup (sorted_edgesOf hvalid.rising).nodup hd').mpr
        fun e => ?_
      obtain ⟨u, v⟩ := e
      rw [mem_edgesOf, List.mem_map]
      constructor
      · rintro ⟨hu, hv⟩
        have hvn := hvalid.outs_lt hu hv
        obtain ⟨u, hu', rfl⟩ := hbij₁.surjOn hu
        obtain ⟨v, hv', rfl⟩ := hbij₁.surjOn hvn
        exact ⟨(u, v), (hmem₁ u hu' v hv').mp hv, rfl⟩
      · rintro ⟨⟨u, v⟩, he, hee⟩
        obtain ⟨rfl, rfl⟩ := Prod.mk.inj hee
        exact ⟨hbij₁.mapsTo (hlt _ he).1, (hmem₁ u (hlt _ he).1 v (hlt _ he).2).mpr he⟩
    have hboth := hedges.map fun e => (order₂[e.1]!, order₂[e.2]!)
    rwa [List.map_map] at hboth

/-- The program gives the vertices of a text new numbers, and what it writes reads as the same edges
under these, in order. -/
theorem main_renumbers (std : StdSort) {fp line : List Char} {s : Scan} {W : Int}
    {before : Option Int} (hread : readEdges fp line = some s) (hne : s.edges ≠ [])
    (hd : s.edges.Nodup) (hedges : s.edges.length ≤ 2147483647)
    (hspare : SpareEdges (s.vsize + 1) s.edges) (hW : 0 < W)
    (hcap : (W + 1) * (s.vsize + 3) < halfMax) (hbefore : ReadsBefore before 1) :
    ∃ out number, main std before W fp line = some out ∧
      Set.BijOn number (Set.Iio (s.vsize + 1)) (Set.Iio (s.vsize + 1)) ∧
      ∀ line', ∃ s', readEdges out line' = some s' ∧ Sorted s'.edges ∧
        s'.edges.Perm (s.edges.map fun e => (number e.1, number e.2)) := by
  have hs := readEdges_wellformed hread
  obtain ⟨es, number, hrun, hsorted, hbij, hperm⟩ :=
    main_spec std hread hne hd hedges hspare hW hcap hbefore
  have hmem (e : Nat × Nat) (he : e ∈ es) : e.1 ≠ e.2 ∧ e.1 < s.vsize + 1 ∧ e.2 < s.vsize + 1 := by
    obtain ⟨e', he', rfl⟩ := List.mem_map.mp (hperm.mem_iff.mp he)
    obtain ⟨h₁, h₂⟩ := hs.le he'
    have h₁' : e'.1 < s.vsize + 1 := by omega
    have h₂' : e'.2 < s.vsize + 1 := by omega
    exact ⟨fun heq => hs.proper e' he' (hbij.injOn h₁' h₂' heq), hbij.mapsTo h₁', hbij.mapsTo h₂'⟩
  refine ⟨_, number, hrun, hbij, fun line' => ?_⟩
  obtain ⟨line'', hagain⟩ := readEdges_sorted (fun e he => (hmem e he).1) (n := s.vsize)
    (Nat.le_of_lt_succ (highest_lt (Nat.succ_pos _) fun e he => (hmem e he).2)) hs.inside line'
  exact ⟨_, hagain, hsorted, hperm⟩

theorem main_renumbers_triangle :
    ∃ out number, main .insertion (some 0) 5 (printed [(0, 1), (1, 2), (2, 0)]) [] = some out ∧
      Set.BijOn number (Set.Iio 3) (Set.Iio 3) ∧
      ∀ line', ∃ s', readEdges out line' = some s' ∧ Sorted s'.edges ∧
        s'.edges.Perm ([(0, 1), (1, 2), (2, 0)].map fun e => (number e.1, number e.2)) := by
  obtain ⟨line, hread⟩ := readEdges_printed [(0, 1), (1, 2), (2, 0)] (by decide) []
  have hspare : SpareEdges 3 [(0, 1), (1, 2), (2, 0)] := ⟨0, by decide, by decide⟩
  exact main_renumbers .insertion hread (show [(0, 1), (1, 2), (2, 0)] ≠ [] by decide)
    (show [(0, 1), (1, 2), (2, 0)].Nodup by decide) (show 3 ≤ 2147483647 by decide) hspare
    (by decide) (show ((5 + 1) * (2 + 3) : Int) < halfMax by decide) fun _ => ⟨0, rfl, le_rfl⟩

end Program

end GraphReorder.Gorder
