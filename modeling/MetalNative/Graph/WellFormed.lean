import MetalNative.Graph.FusionRewrite
import MetalNative.Graph.GraphRuns

namespace MetalNative

open LazyGraph Run List

/-!
# Well-formedness of the lazy graph

* `WellFormed` — inputs are present, the input relation is acyclic, reference counts are exact.
* `FusionTidy` — what `optimize_fusions` needs: the only readers of the first node of a rewritten
  pair are inputs that the fusion drops, and it drops no others.
* `GraphInv.optimizeFusions` — under that condition the pass keeps the graph well formed.
* `graph_well_formed` — every run whose passes meet the condition keeps the graph well formed.
-/

variable {τ : Type} {g : LazyGraph τ} {pairs : List FusionPair} {pr : FusionPair}
  {k : LazyNodeId}

/-- Every input is present, the input relation is acyclic, and every reference count is the number
    of occurrences of the node among the inputs. -/
structure WellFormed (g : LazyGraph τ) : Prop where
  closed : ∀ n ∈ g.nodes, ∀ k ∈ n.inputs, (g.find k).isSome
  acyclic : ∀ a, ¬ Relation.TransGen (Reads g) a a
  counted : ∀ n ∈ g.nodes, n.refCount.toNat = g.slots.count n.id

/-- The invariant of the graph. -/
structure GraphInv (g : LazyGraph τ) : Prop where
  shape : GraphShape g
  counts : CountsTo g g.slots

theorem GraphInv.wellFormed (hi : GraphInv g) : WellFormed g where
  closed n hn k hk := hi.shape.closed k (mem_slots.mpr ⟨n, hn, hk⟩)
  acyclic := by
    obtain ⟨rank, hr⟩ := hi.shape.ranked
    exact hr.acyclic
  counted := hi.counts

/-! ### What fusing keeps and drops -/

/-- The inputs of two nodes are those of the fused node and the dropped ones. -/
theorem build_inputs_perm (pr : FusionPair) {p q : LazyNode τ} (hp : p.inputs ≠ []) :
    (p.inputs ++ q.inputs).Perm ((pr.build p q).inputs ++ pr.dropped p q) := by
  unfold FusionPair.build FusionPair.dropped
  cases pr.kind with
  | residualNorm =>
    show (p.inputs ++ q.inputs).Perm (p.inputs ++ q.inputs[1]?.toList ++ q.inputs.eraseIdx 1)
    rw [append_assoc]
    refine Perm.append_left _ ?_
    rcases q.inputs with _ | ⟨a, _ | ⟨b, l⟩⟩
    · exact .refl _
    · exact .refl _
    · exact Perm.swap b a l
  | swiGLU =>
    obtain ⟨a, as, ha⟩ := exists_cons_of_ne_nil hp
    show (p.inputs ++ q.inputs).Perm
      (p.inputs.headD 0 :: q.inputs.filter (fun inp => inp ≠ pr.first) ++
        (p.inputs.tail ++ q.inputs.filter fun inp => inp = pr.first))
    rw [ha]
    refine Perm.cons a ?_
    have hsplit : (q.inputs.filter (fun inp => decide (inp ≠ pr.first)) ++
        q.inputs.filter fun inp => decide (inp = pr.first)).Perm q.inputs := by
      refine perm_append_comm.trans ?_
      simpa using filter_append_perm (fun inp => decide (inp = pr.first)) q.inputs
    refine (hsplit.symm.append_left as).trans ?_
    show (as ++ (_ ++ _)).Perm (_ ++ (as ++ _))
    exact perm_append_comm_assoc _ _ _

/-- The slots that the fusion of the pairs keeps, under their old names. -/
def keptSlots (g : LazyGraph τ) (pairs : List FusionPair) : List LazyNodeId :=
  pairs.flatMap (fun pr => (pr.node g).inputs) ++
    (g.nodes.filter fun n => Kept pairs n).flatMap LazyNode.inputs

/-- The slots that it drops. -/
def droppedSlots (g : LazyGraph τ) (pairs : List FusionPair) : List LazyNodeId :=
  pairs.flatMap fun pr => pr.dropped (pr.firstNode g) (pr.secondNode g)

/-- The condition on `optimize_fusions`: the inputs that read the first node of a rewritten pair are
    the dropped ones. -/
def FusionTidy (g : LazyGraph τ) : Prop :=
  (∀ pr ∈ fusionPairs g, g.slots.count pr.first = (droppedSlots g (fusionPairs g)).count pr.first) ∧
    ∀ k ∈ droppedSlots g (fusionPairs g), ∃ pr ∈ fusionPairs g, k = pr.first

instance (g : LazyGraph τ) : Decidable (FusionTidy g) := inferInstanceAs (Decidable (_ ∧ _))

section Slots

/-- The nodes are those that stay and those of the pairs. -/
theorem Fusable.nodes_perm (h : Fusable g pairs) (hg : g.Keys) :
    g.nodes.Perm ((g.nodes.filter fun n => Kept pairs n) ++
      pairs.flatMap fun pr => [pr.firstNode g, pr.secondNode g]) := by
  have hnodup : g.nodes.Nodup := Nodup.of_map _ hg.distinct
  have hrest : (g.nodes.filter fun n => !decide (Kept pairs n)).Perm
      (pairs.flatMap fun pr => [pr.firstNode g, pr.secondNode g]) := by
    refine (perm_ext_iff_of_nodup (hnodup.filter _) ?_).mpr fun n => ?_
    · refine Nodup.of_map LazyNode.id ?_
      rw [map_flatMap]
      have hids : ∀ pr ∈ pairs, [pr.firstNode g, pr.secondNode g].map LazyNode.id
          = [pr.first, pr.second] := by
        intro pr hpr
        simp [find_id (h.fits pr hpr).first_mem, find_id (h.fits pr hpr).second_mem]
      rw [flatMap_congr hids]
      have hsorted : (pairs.flatMap fun pr => [pr.first, pr.second]).Pairwise (· < ·) := by
        rw [pairwise_flatMap]
        refine ⟨fun pr hpr => by simpa using (h.fits pr hpr).lt, ?_⟩
        refine h.sorted.imp_of_mem fun {a b} ha hb hab => ?_
        have ha' := (h.fits a ha).lt
        have hb' := (h.fits b hb).lt
        intro x hx y hy
        have hx' : x ≤ a.second := by
          rcases mem_cons.mp hx with rfl | hx
          · exact ha'.le
          · exact (mem_singleton.mp hx).le
        have hy' : b.first ≤ y := by
          rcases mem_cons.mp hy with rfl | hy
          · exact le_rfl
          · exact hb'.le.trans (mem_singleton.mp hy).ge
        exact hx'.trans_lt (hab.trans_le hy')
      exact hsorted.imp fun h => h.ne
    · simp only [mem_filter, Bool.not_eq_eq_eq_not, Bool.not_true, decide_eq_false_iff_not,
        mem_flatMap, mem_cons, not_mem_nil, or_false]
      constructor
      · rintro ⟨hn, hnot⟩
        unfold Kept at hnot
        push Not at hnot
        obtain ⟨pr, hpr, hid⟩ := hnot
        refine ⟨pr, hpr, ?_⟩
        have hfits := h.fits pr hpr
        by_cases hfirst : n.id = pr.first
        · have := hg.find_of_mem hn
          rw [hfirst, hfits.first_mem] at this
          exact .inl (Option.some.inj this).symm
        · have := hg.find_of_mem hn
          rw [hid hfirst, hfits.second_mem] at this
          exact .inr (Option.some.inj this).symm
      · rintro ⟨pr, hpr, rfl | rfl⟩
        · refine ⟨find_mem (h.fits pr hpr).first_mem, fun hkept => ?_⟩
          exact (hkept pr hpr).1 (find_id (h.fits pr hpr).first_mem)
        · refine ⟨find_mem (h.fits pr hpr).second_mem, fun hkept => ?_⟩
          exact (hkept pr hpr).2 (find_id (h.fits pr hpr).second_mem)
  exact (filter_append_perm _ _).symm.trans (hrest.append_left _)

/-- Every slot is kept or dropped. -/
theorem Fusable.slots_perm (h : Fusable g pairs) (hg : g.Keys) :
    g.slots.Perm (keptSlots g pairs ++ droppedSlots g pairs) := by
  have hpairs : (pairs.flatMap fun pr => (pr.firstNode g).inputs ++ (pr.secondNode g).inputs).Perm
      (pairs.flatMap (fun pr => (pr.node g).inputs) ++ droppedSlots g pairs) := by
    unfold droppedSlots
    refine Perm.trans ?_ (flatMap_append_perm pairs _ _).symm
    exact Perm.flatMap_left _ fun pr hpr => build_inputs_perm pr (h.nonempty pr hpr)
  have hall := (h.nodes_perm hg).flatMap_right LazyNode.inputs
  rw [flatMap_append, flatMap_assoc] at hall
  unfold slots keptSlots
  refine hall.trans ?_
  simp only [flatMap_cons, flatMap_nil, append_nil]
  refine (hpairs.append_left _).trans ?_
  rw [← append_assoc]
  exact perm_append_comm.append_right _

/-- All readers of a node are dropped exactly when none is kept. -/
theorem Fusable.dropped_iff (h : Fusable g pairs) (hg : g.Keys) :
    g.slots.count k = (droppedSlots g pairs).count k ↔ k ∉ keptSlots g pairs := by
  rw [(h.slots_perm hg).count_eq, count_append, ← count_eq_zero]
  omega

/-- The slots after the pass. -/
theorem substituted_slots (g : LazyGraph τ) (pairs : List FusionPair) :
    ((substituted g pairs).flatMap LazyNode.inputs).Perm
      ((keptSlots g pairs).map (renamed pairs)) := by
  have hinputs : ∀ l : List (LazyNode τ),
      (l.map (renameInputs pairs)).flatMap LazyNode.inputs
        = (l.flatMap LazyNode.inputs).map (renamed pairs) := by
    intro l
    rw [flatMap_map, map_flatMap]
    rfl
  unfold substituted keptSlots
  rw [flatMap_append, map_append, hinputs]
  refine Perm.append_right _ ?_
  refine ((reverse_perm _).flatMap_right _).trans (.of_eq ?_)
  rw [flatMap_map, map_flatMap]
  rfl

end Slots

/-! ### The pairs of a pass -/

/-- Where an input of the fused node comes from. -/
theorem mem_build_inputs (pr : FusionPair) {p q : LazyNode τ} (hp : p.inputs ≠ [])
    (hk : k ∈ (pr.build p q).inputs) : k ∈ p.inputs ∨ k ∈ q.inputs := by
  have hmem := (build_inputs_perm (q := q) pr hp).mem_iff.mpr (mem_append_left _ hk)
  exact mem_append.mp hmem

theorem FusionKind.plain (kind : FusionKind) :
    kind.firstOp.isFused = false ∧ kind.secondOp.isFused = false := by
  cases kind <;> decide

variable {rank : LazyNodeId → ℕ}

/-- The inputs of a fused node have smaller ranks than the node that it replaces. -/
theorem Ranks.fused_lt (hr : Ranks g rank) (hfits : pr.Fits g)
    (hne : (pr.firstNode g).inputs ≠ []) (hk : k ∈ (pr.node g).inputs) : rank k < pr.second := by
  obtain ⟨hplain₁, hplain₂⟩ := pr.kind.plain
  have hp := find_mem hfits.first_mem
  have hq := find_mem hfits.second_mem
  have hp' := hr.plain _ hp (hfits.firstOp ▸ hplain₁)
  have hq' := hr.plain _ hq (hfits.secondOp ▸ hplain₂)
  rw [find_id hfits.first_mem] at hp'
  rw [find_id hfits.second_mem] at hq'
  rcases mem_build_inputs pr hne hk with hk | hk
  · have hlt := hr.lt _ hp k hk
    rw [find_id hfits.first_mem, hp'] at hlt
    exact hlt.trans hfits.lt
  · have hlt := hr.lt _ hq k hk
    rwa [find_id hfits.second_mem, hq'] at hlt

/-- **The pairs of a pass are independent.** -/
theorem GraphShape.fusable (hg : GraphShape g) : Fusable g (fusionPairs g) where
  fits := fusionPairs_fits hg.keys
  sorted := fusionPairs_sorted hg.keys
  numbered := matchPairs_numbered _ _ _
  nonempty := by
    intro pr hpr
    have hfits := fusionPairs_fits hg.keys pr hpr
    refine hg.nonempty _ (find_mem hfits.first_mem) ?_
    rw [hfits.firstOp]
    cases pr.kind <;> decide
  acyclic := by
    intro pr hpr hmem
    have hfits := fusionPairs_fits hg.keys pr hpr
    obtain ⟨rank, hr⟩ := hg.ranked
    have hne : (pr.firstNode g).inputs ≠ [] := by
      refine hg.nonempty _ (find_mem hfits.first_mem) ?_
      rw [hfits.firstOp]
      cases pr.kind <;> decide
    have hlt := hr.fused_lt hfits hne hmem
    have hq := hr.plain _ (find_mem hfits.second_mem) (hfits.secondOp ▸ pr.kind.plain.2)
    rw [find_id hfits.second_mem] at hq
    rw [hq] at hlt
    exact lt_irrefl _ hlt

theorem GraphShape.optimizeFusions_nodes (hg : GraphShape g) :
    g.optimizeFusions.1.nodes = substituted g (fusionPairs g) ∧ g.optimizeFusions.1.Keys := by
  rw [optimizeFusions_eq]
  obtain ⟨hnodes, hkeys, -⟩ := foldl_fusePair hg.keys _ hg.fusable
  exact ⟨hnodes, hkeys⟩

theorem Fusable.fused_inj (h : Fusable g pairs) {a b : FusionPair} (ha : a ∈ pairs)
    (hb : b ∈ pairs) (hab : a.fused = b.fused) : a = b := by
  have hnodup : (pairs.map FusionPair.fused).Nodup := by
    rw [h.numbered]
    exact nodup_range'
  exact inj_on_of_nodup_map hnodup ha hb hab

/-- A renamed id is a fused id exactly when it was the second node of that pair. -/
theorem Fusable.renamed_eq_fused (h : Fusable g pairs) (hpr : pr ∈ pairs) (hk : k < g.nextId) :
    renamed pairs k = pr.fused ↔ k = pr.second := by
  constructor
  · intro heq
    rcases renamed_cases pairs k with ⟨a, ha, rfl, hk'⟩ | ⟨-, hk'⟩
    · rw [h.fused_inj ha hpr (hk'.symm.trans heq)]
    · rw [hk'] at heq
      exact absurd (heq ▸ h.le_fused hpr) (not_le.mpr hk)
  · rintro rfl
    exact h.renamed_second hpr

/-- The id of a node that stays is renamed to by no other. -/
theorem Fusable.renamed_eq_kept (h : Fusable g pairs) {n : LazyNode τ} (hn : Kept pairs n)
    (hlt : n.id < g.nextId) : renamed pairs k = n.id ↔ k = n.id := by
  rcases renamed_cases pairs k with ⟨a, ha, rfl, hk'⟩ | ⟨-, hk'⟩
  · rw [hk']
    exact iff_of_false (hlt.trans_le (h.le_fused ha)).ne' (hn a ha).2.symm
  · rw [hk']

/-- Every id that resolves is first or second in a pair, or stays. -/
theorem find_cases (pairs : List FusionPair) (hk : (g.find k).isSome) :
    (∃ pr ∈ pairs, k = pr.first) ∨ (∃ pr ∈ pairs, k = pr.second) ∨
      ∃ n ∈ g.nodes, n.id = k ∧ Kept pairs n := by
  obtain ⟨n, hn, rfl⟩ := find_isSome.mp hk
  by_cases hkept : Kept pairs n
  · exact .inr (.inr ⟨n, hn, rfl, hkept⟩)
  · unfold Kept at hkept
    push Not at hkept
    obtain ⟨pr, hpr, hid⟩ := hkept
    by_cases hfirst : n.id = pr.first
    · exact .inl ⟨pr, hpr, hfirst⟩
    · exact .inr (.inl ⟨pr, hpr, hid hfirst⟩)

/-! ### What resolves after the pass -/

section After

variable {g' : LazyGraph τ}

/-- The fused nodes resolve. -/
theorem Fusable.find_fused (hg' : g'.Keys) (hnodes : g'.nodes = substituted g pairs)
    (hpr : pr ∈ pairs) : g'.find pr.fused = some (renameInputs pairs (pr.node g)) := by
  refine hg'.find_iff.mpr ⟨?_, (build_id pr (pr.firstNode g) (pr.secondNode g) :)⟩
  rw [hnodes, mem_substituted]
  exact .inl ⟨pr, hpr, rfl⟩

/-- The nodes that stay resolve. -/
theorem Fusable.find_kept (hg' : g'.Keys) (hnodes : g'.nodes = substituted g pairs)
    {n : LazyNode τ} (hn : n ∈ g.nodes) (hkept : Kept pairs n) :
    g'.find n.id = some (renameInputs pairs n) := by
  refine hg'.find_iff.mpr ⟨?_, rfl⟩
  rw [hnodes, mem_substituted]
  exact .inr ⟨n, hn, hkept, rfl⟩

/-- The nodes of the pairs do not. -/
theorem Fusable.find_erased (h : Fusable g pairs) (hg : g.Keys)
    (hnodes : g'.nodes = substituted g pairs) (hpr : pr ∈ pairs)
    (hk : k = pr.first ∨ k = pr.second) : g'.find k = none := by
  refine Keyed.find_eq_none.mpr fun n hn hid => ?_
  have hlt : k < g.nextId := by
    rcases hk with rfl | rfl
    · exact h.first_lt hg hpr
    · exact h.second_lt hg hpr
  rw [hnodes, mem_substituted] at hn
  rcases hn with ⟨a, ha, rfl⟩ | ⟨m, hm, hkept, rfl⟩
  · have hid' : (renameInputs pairs (a.node g)).id = a.fused :=
      build_id a (a.firstNode g) (a.secondNode g)
    rw [hid'] at hid
    exact absurd (hid ▸ h.le_fused ha) (not_le.mpr hlt)
  · rcases hk with rfl | rfl
    · exact (hkept pr hpr).1 hid
    · exact (hkept pr hpr).2 hid

end After

/-! ### The pass keeps the graph well formed -/

/-- The rank after the pass. -/
def fusedRank (pairs : List FusionPair) (rank : LazyNodeId → ℕ) (k : LazyNodeId) : ℕ :=
  ((pairs.find? fun pr => pr.fused = k).map FusionPair.second).getD (rank k)

theorem fusedRank_of_lt (h : Fusable g pairs) (rank : LazyNodeId → ℕ) (hk : k < g.nextId) :
    fusedRank pairs rank k = rank k := by
  unfold fusedRank
  rw [find?_eq_none.mpr]
  · rfl
  · intro a ha
    simpa using (hk.trans_le (h.le_fused ha)).ne'

theorem fusedRank_fused (h : Fusable g pairs) (rank : LazyNodeId → ℕ) (hpr : pr ∈ pairs) :
    fusedRank pairs rank pr.fused = pr.second := by
  unfold fusedRank
  cases hfind : pairs.find? fun x => decide (x.fused = pr.fused) with
  | none =>
    have := find?_eq_none.mp hfind pr hpr
    simp at this
  | some x =>
    have hx : x.fused = pr.fused := by simpa using find?_some hfind
    rw [h.fused_inj (mem_of_find?_eq_some hfind) hpr hx]
    rfl

/-- The rank of a reader's input is what it was. -/
theorem fusedRank_renamed (h : Fusable g pairs) (hr : Ranks g rank)
    (hk : k < g.nextId) : fusedRank pairs rank (renamed pairs k) = rank k := by
  rcases renamed_cases pairs k with ⟨a, ha, rfl, hk'⟩ | ⟨-, hk'⟩
  · have hfits := h.fits a ha
    have hq := hr.plain _ (find_mem hfits.second_mem) (hfits.secondOp ▸ a.kind.plain.2)
    rw [find_id hfits.second_mem] at hq
    rw [hk', fusedRank_fused h rank ha, hq]
  · rw [hk', fusedRank_of_lt h rank hk]

theorem Ranks.fuse (hg : GraphShape g) (h : Fusable g pairs)
    (hr : Ranks g rank) {g' : LazyGraph τ} (hnodes : g'.nodes = substituted g pairs) :
    Ranks g' (fusedRank pairs rank) := by
  refine ⟨fun k => ?_, fun n hn hop => ?_, fun n hn k hk => ?_⟩
  · unfold fusedRank
    cases hfind : pairs.find? fun x => decide (x.fused = k) with
    | none => exact hr.le k
    | some x =>
      have hx : x.fused = k := by simpa using find?_some hfind
      have hmem := mem_of_find?_eq_some hfind
      exact hx ▸ (h.second_lt hg.keys hmem).le.trans (h.le_fused hmem)
  · rw [hnodes, mem_substituted] at hn
    rcases hn with ⟨a, ha, rfl⟩ | ⟨m, hm, -, rfl⟩
    · have hfused : (a.build (a.firstNode g) (a.secondNode g)).opType.isFused = true := by
        unfold FusionPair.build
        cases a.kind <;> rfl
      exact absurd (hop.symm.trans hfused) Bool.false_ne_true
    · exact (fusedRank_of_lt h rank (hg.keys.lt_next m hm)).trans (hr.plain m hm hop)
  · rw [hnodes, mem_substituted] at hn
    rcases hn with ⟨a, ha, rfl⟩ | ⟨m, hm, -, rfl⟩
    · obtain ⟨j, hj, rfl⟩ := mem_map.mp hk
      have hid : (renameInputs pairs (a.node g)).id = a.fused :=
        build_id a (a.firstNode g) (a.secondNode g)
      have hfits := h.fits a ha
      have hlt : j < g.nextId := by
        rcases mem_build_inputs a (h.nonempty a ha) hj with hj | hj
        · exact hg.lt_next (find_mem hfits.first_mem) hj
        · exact hg.lt_next (find_mem hfits.second_mem) hj
      rw [hid, fusedRank_fused h rank ha, fusedRank_renamed h hr hlt]
      exact hr.fused_lt hfits (h.nonempty a ha) hj
    · obtain ⟨j, hj, rfl⟩ := mem_map.mp hk
      have hid : (renameInputs pairs m).id = m.id := rfl
      rw [hid, fusedRank_renamed h hr (hg.lt_next hm hj),
        fusedRank_of_lt h rank (hg.keys.lt_next m hm)]
      exact hr.lt m hm j hj

/-- A slot that is kept resolves in the old graph. -/
theorem GraphShape.find_keptSlot (hg : GraphShape g) (h : Fusable g pairs)
    (hk : k ∈ keptSlots g pairs) : (g.find k).isSome :=
  hg.closed k ((h.slots_perm hg.keys).mem_iff.mpr (mem_append_left _ hk))

/-- **Closed after the pass**, when no slot that is kept reads a first node. -/
theorem GraphShape.fuse (hg : GraphShape g)
    (hkept : ∀ pr ∈ fusionPairs g, pr.first ∉ keptSlots g (fusionPairs g)) :
    GraphShape g.optimizeFusions.1 := by
  obtain ⟨hnodes, hkeys⟩ := hg.optimizeFusions_nodes
  have h := hg.fusable
  refine ⟨hkeys, fun n hn hop => ?_, fun k hk => ?_, ?_⟩
  · rw [hnodes, mem_substituted] at hn
    rcases hn with ⟨a, ha, rfl⟩ | ⟨m, hm, -, rfl⟩
    · have hne : (a.build (a.firstNode g) (a.secondNode g)).inputs ≠ [] := by
        have hp := h.nonempty a ha
        unfold FusionPair.build
        cases a.kind with
        | residualNorm => exact fun hnil => hp (append_eq_nil_iff.mp hnil).1
        | swiGLU => exact cons_ne_nil _ _
      exact fun hnil => hne (map_eq_nil_iff.mp hnil)
    · exact fun hnil => hg.nonempty m hm hop (map_eq_nil_iff.mp hnil)
  · have hmem : k ∈ (keptSlots g (fusionPairs g)).map (renamed (fusionPairs g)) := by
      refine (substituted_slots g _).mem_iff.mp ?_
      rw [← hnodes]
      exact hk
    obtain ⟨j, hj, rfl⟩ := mem_map.mp hmem
    rcases find_cases _ (hg.find_keptSlot h hj) with ⟨a, ha, rfl⟩ | ⟨a, ha, rfl⟩ | ⟨n, hn, rfl, hn'⟩
    · exact absurd hj (hkept a ha)
    · rw [h.renamed_second ha, Fusable.find_fused hkeys hnodes ha]
      rfl
    · rw [(h.renamed_eq_kept hn' (hg.keys.lt_next n hn)).mpr rfl,
        Fusable.find_kept hkeys hnodes hn hn']
      rfl
  · obtain ⟨rank, hr⟩ := hg.ranked
    exact ⟨_, hr.fuse hg h hnodes⟩

/-- How often a node is read after the pass. -/
theorem GraphShape.count_after (hg : GraphShape g) (h : Fusable g pairs) {k' : LazyNodeId}
    (hiff : ∀ j, j < g.nextId → (renamed pairs j = k' ↔ j = k)) :
    ((substituted g pairs).flatMap LazyNode.inputs).count k' + (droppedSlots g pairs).count k
      = g.slots.count k := by
  rw [(substituted_slots g pairs).count_eq, (h.slots_perm hg.keys).count_eq, count_append]
  congr 1
  unfold count
  rw [countP_map]
  refine countP_congr fun j hj => ?_
  simp only [Function.comp_apply, beq_iff_eq]
  exact hiff j (hg.keys.lt_of_isSome (hg.find_keptSlot h hj))

/-- **A tidy pass keeps the invariant.** -/
theorem GraphInv.optimizeFusions (hi : GraphInv g) (ht : FusionTidy g) :
    GraphInv g.optimizeFusions.1 := by
  have hg := hi.shape
  have h := hg.fusable
  obtain ⟨hnodes, hkeys⟩ := hg.optimizeFusions_nodes
  refine ⟨hg.fuse fun pr hpr => (h.dropped_iff hg.keys).mp (ht.1 pr hpr), fun n hn => ?_⟩
  -- only first nodes lose readers
  have hzero : ∀ k, (∀ pr ∈ fusionPairs g, k ≠ pr.first) →
      (droppedSlots g (fusionPairs g)).count k = 0 := by
    intro k hk
    refine count_eq_zero.mpr fun hmem => ?_
    obtain ⟨pr, hpr, heq⟩ := ht.2 k hmem
    exact hk pr hpr heq
  have hslots : g.optimizeFusions.1.slots
      = (substituted g (fusionPairs g)).flatMap LazyNode.inputs := by
    unfold slots
    rw [hnodes]
  rw [hslots]
  rw [hnodes, mem_substituted] at hn
  rcases hn with ⟨a, ha, rfl⟩ | ⟨m, hm, hkept, rfl⟩
  · have hid : (renameInputs (fusionPairs g) (a.node g)).id = a.fused :=
      build_id a (a.firstNode g) (a.secondNode g)
    have hcount := hg.count_after h (fun j hj => h.renamed_eq_fused ha hj)
    rw [hzero a.second fun pr hpr => (h.first_ne_second hpr ha).symm, Nat.add_zero] at hcount
    have href : (renameInputs (fusionPairs g) (a.node g)).refCount = (a.secondNode g).refCount := by
      show (a.build (a.firstNode g) (a.secondNode g)).refCount = _
      unfold FusionPair.build
      cases a.kind <;> rfl
    have hfits := h.fits a ha
    rw [hid, href, hcount, hi.counts _ (find_mem hfits.second_mem), find_id hfits.second_mem]
  · have hcount := hg.count_after h (fun j _ => h.renamed_eq_kept hkept (hg.keys.lt_next m hm))
    rw [hzero m.id fun pr hpr => (hkept pr hpr).1, Nat.add_zero] at hcount
    show m.refCount.toNat = _
    rw [show (renameInputs (fusionPairs g) m).id = m.id from rfl, hcount]
    exact hi.counts m hm

/-! ### Runs -/

/-- The condition on a call: a pass of `optimize_fusions` is tidy, and no record call wraps a
    counter around. -/
def KeepsCounts (g : LazyGraph τ) (op : GraphOp τ) : Prop :=
  (op.isFusion = true → FusionTidy g) ∧ ∀ k ∈ op.inputs, (op.inputs ++ g.slots).count k < 2 ^ 32

instance (g : LazyGraph τ) (op : GraphOp τ) : Decidable (KeepsCounts g op) :=
  inferInstanceAs (Decidable (_ ∧ _))

/-- **Step.**  A call that meets the condition keeps the invariant. -/
theorem GraphInv.step (K : Kernels τ) {g' : LazyGraph τ} {op : GraphOp τ} (hi : GraphInv g)
    (hkeep : KeepsCounts g op) (h : graphStep K g op = some g') : GraphInv g' := by
  obtain ⟨hen, rfl⟩ := graphStep_eq h
  have hg := hi.shape
  by_cases hfuse : op.isFusion = true
  · obtain rfl := GraphOp.eq_of_isFusion hfuse
    exact hi.optimizeFusions (hkeep.1 rfl)
  by_cases hdead : op = .eliminateDeadCode
  · rw [hdead]
    obtain ⟨hshape, hcounts⟩ := hg.eliminate hi.counts
    exact ⟨hshape, hcounts⟩
  have hpass : op ≠ .optimizeFusions ∧ op ≠ .eliminateDeadCode :=
    ⟨fun heq => hfuse (heq ▸ rfl), hdead⟩
  refine ⟨hg.call K hen hpass, ?_⟩
  cases hnode : op.node K g with
  | some n =>
    obtain ⟨hafter, hfresh⟩ := graphAfter_record K hnode
    rw [hafter]
    refine CountsTo.record hg hi.counts hfresh.id hfresh.refCount (fun k hk => ?_) fun k hk => ?_
    · rw [hfresh.inputs] at hk
      exact hen.1 k hk
    · rw [hfresh.inputs] at hk ⊢
      exact hkeep.2 k hk
  | none =>
    rcases op.cases_of_node_eq_none hnode hpass with hkeeps | ⟨order, rfl⟩
    · obtain ⟨hnodes, hnext⟩ := graphAfter_counted K g hkeeps
      rw [(sameShape_of_counted hnodes hnext).slots]
      exact hi.counts.congr (counts_of_counted hnodes)
    · exact CountsTo.rehash hg.keys hi.counts hen.2

theorem GraphInv.init : GraphInv ({} : LazyGraph τ) := by
  refine ⟨.empty, fun n hn => ?_⟩
  cases hn

/-- **Well-formedness.**  Every run whose calls meet the condition keeps the graph well formed. -/
theorem graph_well_formed (K : Kernels τ) (hrun : Runs (graphStep K) KeepsCounts {} g) :
    WellFormed g := by
  have hinv : GraphInv g :=
    hrun.invariant GraphInv.init fun u op v hu hkeep hs => hu.step K hkeep hs
  exact hinv.wellFormed

/-- A residual block that is fused, and an activation that is dead. -/
def residualCalls : List (GraphOp ℤ) :=
  [.recordInput 1, .recordInput 2, .recordBinary .Add 1 2 [1] .Int64,
    .recordBinary .RMSNorm 3 2 [1] .Int64, .markOutput 4, .recordUnary .ReLU 1 [1] .Int64,
    .rehash [5, 3, 1, 4, 2], .eval 5, .unmarkOutput 4, .optimizeFusions, .eliminateDeadCode,
    .evalAll]

theorem graph_well_formed_residual :
    ∃ g, exec (graphStep scalarKernels) {} residualCalls = some g ∧ WellFormed g := by
  have hsome : (exec (graphStep scalarKernels) {} residualCalls).isSome = true := by decide
  obtain ⟨g, hg⟩ := Option.isSome_iff_exists.mp hsome
  have hkeep : GuardedAlong (graphStep scalarKernels) KeepsCounts {} residualCalls := by decide
  exact ⟨g, hg, graph_well_formed scalarKernels (runs_exec hg hkeep)⟩

/-- The first node of a pair is read by the second as a weight, and by an activation. -/
def sharedCalls : List (GraphOp ℤ) :=
  [.recordInput 1, .recordBinary .Add 1 1 [1] .Int64, .recordBinary .RMSNorm 2 1 [1] .Int64,
    .recordUnary .ReLU 2 [1] .Int64, .optimizeFusions]

/-- `optimize_fusions` erases a node that an unrelated node reads. -/
theorem shared_input_dangles :
    ∃ g, Reaches (graphStep scalarKernels) {} g ∧
      g.nodes.map (fun n => (n.id, n.inputs)) = [(5, [1, 1, 1]), (4, [2]), (1, [])] ∧
      ¬ WellFormed g := by
  have hsome : (exec (graphStep scalarKernels) {} sharedCalls).isSome = true := by decide
  obtain ⟨g, hg⟩ := Option.isSome_iff_exists.mp hsome
  have hafter : (exec (graphStep scalarKernels) {} sharedCalls).map
      (fun g => (g.nodes.map fun n => (n.id, n.inputs), (g.find 2).isSome,
        (g.find 4).map LazyNode.inputs))
        = some ([(5, [1, 1, 1]), (4, [2]), (1, [])], false, some [2]) := by decide
  rw [hg, Option.map_some, Option.some.injEq, Prod.mk.injEq, Prod.mk.injEq] at hafter
  obtain ⟨hnodes, hgone, hreader⟩ := hafter
  obtain ⟨n, hn, hinputs⟩ := Option.map_eq_some_iff.mp hreader
  refine ⟨g, reaches_exec hg, hnodes, fun hw => ?_⟩
  have hfound := hw.closed n (find_mem hn) 2 (by simp [hinputs])
  rw [hgone] at hfound
  cases hfound

end MetalNative
