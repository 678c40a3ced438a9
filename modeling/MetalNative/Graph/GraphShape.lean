import MetalNative.Graph.NodeMap

namespace MetalNative

open LazyNode List

/-!
# The shape of a lazy graph and its reference counts

* `GraphShape` — ids are distinct, inputs are present, and a rank falls along the inputs.
* `CountsTo g s` — the reference counts of the nodes are those of the slots `s`.
* `GraphShape.addNode`, `CountsTo.addNode` — recording keeps both.
* `SameShape`, `eval_sameShape`, `evalAll_sameShape` — execution touches neither.
* `GraphShape.eliminate`, `CountsTo.eliminate` — dead-code elimination keeps both.
-/

open LazyGraph

variable {τ : Type} {g g' : LazyGraph τ} {n : LazyNode τ} {k id : LazyNodeId}

/-- The operations of fused nodes. -/
def OpType.isFused (op : OpType) : Bool := op = .FusedResidualRMSNorm ∨ op = .SwiGLU

/-- Node `a` reads node `b`. -/
def Reads (g : LazyGraph τ) (a b : LazyNodeId) : Prop := ∃ n, g.find a = some n ∧ b ∈ n.inputs

/-- A rank that falls along the inputs.  A fused node has the rank of a node that it replaced,
    every other node its id. -/
structure Ranks (g : LazyGraph τ) (rank : LazyNodeId → ℕ) : Prop where
  le : ∀ k, rank k ≤ k
  plain : ∀ n ∈ g.nodes, n.opType.isFused = false → rank n.id = n.id
  lt : ∀ n ∈ g.nodes, ∀ k ∈ n.inputs, rank k < rank n.id

/-- A closed acyclic graph. -/
structure GraphShape (g : LazyGraph τ) : Prop where
  keys : g.Keys
  nonempty : ∀ n ∈ g.nodes, n.opType ≠ .Unknown → n.inputs ≠ []
  closed : ∀ k ∈ g.slots, (g.find k).isSome
  ranked : ∃ rank, Ranks g rank

/-- The reference counts are those of the slots `s`. -/
def CountsTo (g : LazyGraph τ) (s : List LazyNodeId) : Prop :=
  ∀ n ∈ g.nodes, n.refCount.toNat = s.count n.id

theorem Ranks.lt_of_reads {rank : LazyNodeId → ℕ} (hr : Ranks g rank) {a b : LazyNodeId}
    (h : Reads g a b) : rank b < rank a := by
  obtain ⟨n, hn, hb⟩ := h
  have hlt := hr.lt n (find_mem hn) b hb
  rwa [find_id hn] at hlt

theorem Ranks.acyclic {rank : LazyNodeId → ℕ} (hr : Ranks g rank) (a : LazyNodeId) :
    ¬ Relation.TransGen (Reads g) a a := by
  have hlt : ∀ a b, Relation.TransGen (Reads g) a b → rank b < rank a := by
    intro a b h
    induction h with
    | single h => exact hr.lt_of_reads h
    | tail _ h ih => exact (hr.lt_of_reads h).trans ih
  exact fun h => lt_irrefl _ (hlt a a h)

/-! ### The same shape -/

/-- What the shape of a graph depends on. -/
def LazyNode.shape (n : LazyNode τ) : LazyNodeId × OpType × List LazyNodeId :=
  (n.id, n.opType, n.inputs)

/-- Two graphs that differ in statuses, results, counts and marks. -/
structure SameShape (g g' : LazyGraph τ) : Prop where
  nodes : g'.nodes.map LazyNode.shape = g.nodes.map LazyNode.shape
  nextId : g'.nextId = g.nextId

theorem SameShape.refl (g : LazyGraph τ) : SameShape g g := ⟨rfl, rfl⟩

theorem SameShape.trans {g'' : LazyGraph τ} (h : SameShape g g') (h' : SameShape g' g'') :
    SameShape g g'' := ⟨h'.nodes.trans h.nodes, h'.nextId.trans h.nextId⟩

theorem SameShape.modify {f : LazyNode τ → LazyNode τ} (hf : ∀ n, (f n).shape = n.shape)
    (g : LazyGraph τ) (id : LazyNodeId) : SameShape g (g.modify id f) :=
  ⟨map_modify shape hf g id, rfl⟩

theorem SameShape.ids (h : SameShape g g') :
    g'.nodes.map LazyNode.id = g.nodes.map LazyNode.id := by
  have := congrArg (map Prod.fst) h.nodes
  rwa [map_map, map_map] at this

theorem SameShape.slots (h : SameShape g g') : g'.slots = g.slots := by
  have := congrArg (map fun x => x.2.2) h.nodes
  rw [map_map, map_map] at this
  rw [slots_eq, slots_eq]
  exact congrArg flatten this

/-- A node comes from one with the same shape. -/
theorem SameShape.exists_node (h : SameShape g g') (hn : n ∈ g'.nodes) :
    ∃ m ∈ g.nodes, n.shape = m.shape := by
  have hmem : n.shape ∈ g.nodes.map shape := h.nodes ▸ mem_map_of_mem hn
  obtain ⟨m, hm, heq⟩ := mem_map.mp hmem
  exact ⟨m, hm, heq.symm⟩

theorem find_isSome_iff : (g.find k).isSome ↔ k ∈ g.nodes.map LazyNode.id := by
  rw [find_isSome, mem_map]

theorem GraphShape.congr (hg : GraphShape g) (h : SameShape g g') : GraphShape g' where
  keys := hg.keys.of_ids h.ids h.nextId
  nonempty := by
    intro n hn hop
    obtain ⟨m, hm, heq⟩ := h.exists_node hn
    simp only [LazyNode.shape, Prod.mk.injEq] at heq
    rw [heq.2.2]
    exact hg.nonempty m hm (heq.2.1 ▸ hop)
  closed := by
    intro k hk
    rw [h.slots] at hk
    have := hg.closed k hk
    rwa [find_isSome_iff, ← h.ids, ← find_isSome_iff] at this
  ranked := by
    obtain ⟨rank, hr⟩ := hg.ranked
    refine ⟨rank, hr.le, fun n hn hop => ?_, fun n hn k hk => ?_⟩
    · obtain ⟨m, hm, heq⟩ := h.exists_node hn
      simp only [LazyNode.shape, Prod.mk.injEq] at heq
      rw [heq.1]
      exact hr.plain m hm (heq.2.1 ▸ hop)
    · obtain ⟨m, hm, heq⟩ := h.exists_node hn
      simp only [LazyNode.shape, Prod.mk.injEq] at heq
      rw [heq.1]
      exact hr.lt m hm k (heq.2.2 ▸ hk)

theorem GraphShape.lt_next (hg : GraphShape g) (hn : n ∈ g.nodes) (hk : k ∈ n.inputs) :
    k < g.nextId :=
  hg.keys.lt_of_isSome (hg.closed k (mem_slots.mpr ⟨n, hn, hk⟩))

/-! ### Reference counts -/

theorem CountsTo.perm {s s' : List LazyNodeId} (h : CountsTo g s) (hs : s.Perm s') :
    CountsTo g s' := by
  intro n hn
  rw [h n hn, hs.count_eq]

variable {s : List LazyNodeId}

/-- Counts do not depend on statuses and results. -/
theorem CountsTo.congr (h : CountsTo g s)
    (heq : g'.nodes.map (fun n => (n.id, n.refCount)) = g.nodes.map fun n => (n.id, n.refCount)) :
    CountsTo g' s := by
  intro n hn
  have hmem : (n.id, n.refCount) ∈ g.nodes.map fun n => (n.id, n.refCount) :=
    heq ▸ mem_map_of_mem hn
  obtain ⟨m, hm, hmn⟩ := mem_map.mp hmem
  simp only [Prod.mk.injEq] at hmn
  rw [← hmn.1, ← hmn.2]
  exact h m hm

theorem UInt32.toNat_succ {a : UInt32} (h : a.toNat + 1 < 2 ^ 32) :
    (a + 1).toNat = a.toNat + 1 := by
  rw [UInt32.toNat_add, UInt32.toNat_one]
  exact Nat.mod_eq_of_lt h

theorem UInt32.toNat_pred {a : UInt32} (h : 0 < a.toNat) : (a - 1).toNat = a.toNat - 1 := by
  have hle : (1 : UInt32) ≤ a := by
    rw [UInt32.le_iff_toNat_le, UInt32.toNat_one]
    exact h
  rw [UInt32.toNat_sub_of_le _ _ hle, UInt32.toNat_one]

/-- One more reader, while the counter does not wrap. -/
theorem CountsTo.addRef (h : CountsTo g s) (hlt : s.count k + 1 < 2 ^ 32) :
    CountsTo (g.addRef k) (k :: s) := by
  intro n hn
  obtain ⟨m, hm, rfl⟩ := mem_modify.mp hn
  have hm' := h m hm
  by_cases hk : m.id = k
  · rw [if_pos hk]
    show (m.refCount + 1).toNat = (k :: s).count m.id
    rw [hk, count_cons_self, ← hk, ← hm']
    exact UInt32.toNat_succ (by rw [hm', hk]; exact hlt)
  · rw [if_neg hk, hm', count_cons_of_ne (Ne.symm hk)]

/-- One reader less. -/
theorem CountsTo.dropRef (h : CountsTo g (k :: s)) :
    CountsTo (g.dropRef k) s := by
  intro n hn
  obtain ⟨m, hm, rfl⟩ := mem_modify.mp hn
  have hm' := h m hm
  by_cases hk : m.id = k
  · rw [hk, count_cons_self, ← hk] at hm'
    have hpos : 0 < m.refCount.toNat := by omega
    have hpos' : m.refCount > 0 := by
      rw [gt_iff_lt, UInt32.lt_iff_toNat_lt]
      exact hpos
    rw [if_pos hk, if_pos hpos']
    show (m.refCount - 1).toNat = s.count m.id
    rw [UInt32.toNat_pred hpos, hm', Nat.add_sub_cancel]
  · rw [count_cons_of_ne (Ne.symm hk)] at hm'
    rw [if_neg hk, hm']

theorem addRef_sameShape (g : LazyGraph τ) (k : LazyNodeId) : SameShape g (g.addRef k) := by
  refine .modify (fun n => ?_) g k
  rfl

theorem dropRef_sameShape (g : LazyGraph τ) (k : LazyNodeId) : SameShape g (g.dropRef k) := by
  refine .modify (fun n => ?_) g k
  split_ifs <;> rfl

/-! ### Recording -/

/-- A new node that reads nodes of the graph. -/
theorem GraphShape.addNode (hg : GraphShape g) (hid : n.id = g.nextId)
    (hne : n.opType ≠ .Unknown → n.inputs ≠ []) (hin : ∀ k ∈ n.inputs, (g.find k).isSome) :
    GraphShape (g.addNode n) where
  keys := hg.keys.addNode hid
  nonempty := by
    intro m hm
    rw [hg.keys.addNode_nodes hid] at hm
    rcases mem_cons.mp hm with rfl | hm
    · exact hne
    · exact hg.nonempty m hm
  closed := by
    intro k hk
    rw [hg.keys.slots_addNode hid] at hk
    have hold : (g.find k).isSome := by
      rcases mem_append.mp hk with hk | hk
      · exact hin k hk
      · exact hg.closed k hk
    rw [find_addNode]
    split_ifs
    · rfl
    · exact hold
  ranked := by
    obtain ⟨rank, hr⟩ := hg.ranked
    -- the new node has its id as its rank
    have hold : ∀ k, k < g.nextId → (if k = g.nextId then k else rank k) = rank k :=
      fun k hk => if_neg hk.ne
    refine ⟨fun k => if k = g.nextId then k else rank k, fun k => ?_, fun m hm hop => ?_,
      fun m hm k hk => ?_⟩
    · split_ifs
      · exact le_rfl
      · exact hr.le k
    · rw [hg.keys.addNode_nodes hid] at hm
      rcases mem_cons.mp hm with rfl | hm
      · exact if_pos hid
      · rw [hold _ (hg.keys.lt_next m hm)]
        exact hr.plain m hm hop
    · rw [hg.keys.addNode_nodes hid] at hm
      rcases mem_cons.mp hm with rfl | hm
      · have hlt := hg.keys.lt_of_isSome (hin k hk)
        rw [hold k hlt, if_pos hid, hid]
        exact (hr.le k).trans_lt hlt
      · rw [hold k (hg.lt_next hm hk), hold _ (hg.keys.lt_next m hm)]
        exact hr.lt m hm k hk

/-- The references that a new node brings in have been counted. -/
theorem CountsTo.addNode (hg : GraphShape g) (hid : n.id = g.nextId) (hzero : n.refCount = 0)
    (hin : ∀ k ∈ n.inputs, (g.find k).isSome) (h : CountsTo g (n.inputs ++ g.slots)) :
    CountsTo (g.addNode n) (g.addNode n).slots := by
  rw [hg.keys.slots_addNode hid]
  intro m hm
  rw [hg.keys.addNode_nodes hid] at hm
  rcases mem_cons.mp hm with rfl | hm
  · rw [hzero, UInt32.toNat_zero, eq_comm, count_eq_zero, hid]
    intro hmem
    have hlt : (g.find g.nextId).isSome := by
      rcases mem_append.mp hmem with hk | hk
      · exact hin _ hk
      · exact hg.closed _ hk
    exact lt_irrefl _ (hg.keys.lt_of_isSome hlt)
  · exact h m hm

/-! ### Execution -/

/-- What execution leaves alone: everything but the status and the result of a node. -/
def LazyNode.recorded (n : LazyNode τ) : LazyNode τ := { n with status := .Pending, result := none }

/-- Two graphs that differ in statuses and results. -/
structure SameRecords (g g' : LazyGraph τ) : Prop where
  nodes : g'.nodes.map LazyNode.recorded = g.nodes.map LazyNode.recorded
  nextId : g'.nextId = g.nextId

theorem SameRecords.refl (g : LazyGraph τ) : SameRecords g g := ⟨rfl, rfl⟩

theorem SameRecords.trans {g'' : LazyGraph τ} (h : SameRecords g g') (h' : SameRecords g' g'') :
    SameRecords g g'' := ⟨h'.nodes.trans h.nodes, h'.nextId.trans h.nextId⟩

theorem SameRecords.map_eq {α : Type} (proj : LazyNode τ → α)
    (hproj : ∀ n : LazyNode τ, proj n.recorded = proj n) (h : SameRecords g g') :
    g'.nodes.map proj = g.nodes.map proj := by
  have := congrArg (map proj) h.nodes
  simpa only [map_map, Function.comp_def, hproj] using this

theorem SameRecords.sameShape (h : SameRecords g g') : SameShape g g' :=
  ⟨h.map_eq shape fun _ => rfl, h.nextId⟩

theorem schedule_sameRecords (g : LazyGraph τ) (id : LazyNodeId) :
    SameRecords g (g.schedule id) := by
  refine ⟨map_modify recorded (fun n => ?_) g id, rfl⟩
  rfl

theorem materialize_sameRecords (g : LazyGraph τ) (id : LazyNodeId) (t : τ) :
    SameRecords g (g.materialize id t) := by
  refine ⟨map_modify recorded (fun n => ?_) g id, rfl⟩
  rfl

theorem execOrder_sameRecords (K : Kernels τ) (onNull : OpType → Option MNException) :
    ∀ (order : List LazyNodeId) (g : LazyGraph τ),
      SameRecords g (execOrder K onNull order g).2 := by
  intro order
  induction order with
  | nil => exact fun g => .refl g
  | cons id rest ih =>
    intro g
    rw [execOrder]
    cases hfind : g.find id with
    | none => exact ih g
    | some node =>
      simp only
      split_ifs with hdone
      · exact ih g
      · have hsched := schedule_sameRecords g id
        split
        · exact hsched
        · exact (hsched.trans (materialize_sameRecords _ id _)).trans (ih _)
        · split
          · exact hsched
          · exact hsched.trans (ih _)

theorem eval_sameRecords (K : Kernels τ) (g : LazyGraph τ) (id : LazyNodeId) :
    SameRecords g (g.eval K id).2 := by
  unfold eval
  cases hfind : g.find id with
  | none => exact .refl g
  | some node =>
    simp only
    split_ifs with hdone hempty
    · exact .refl g
    · exact .refl g
    · have hexec := execOrder_sameRecords K execFailure (g.topologicalSort id) g
      cases hrun : execOrder K execFailure (g.topologicalSort id) g with
      | mk outcome g' =>
        rw [hrun] at hexec
        cases outcome with
        | error e => exact hexec
        | ok _ =>
          simp only
          split
          · split_ifs <;> exact hexec
          · exact hexec

theorem evalLeaves_sameRecords (K : Kernels τ) : ∀ (leaves : List LazyNodeId) (g : LazyGraph τ),
    SameRecords g (evalLeaves K leaves g).2 := by
  intro leaves
  induction leaves with
  | nil => exact fun g => .refl g
  | cons leaf rest ih =>
    intro g
    rw [evalLeaves]
    have hexec := execOrder_sameRecords K (fun _ => none) (g.topologicalSort leaf) g
    cases hrun : execOrder K (fun _ => none) (g.topologicalSort leaf) g with
    | mk outcome g' =>
      rw [hrun] at hexec
      cases outcome with
      | error e => exact hexec
      | ok _ => exact hexec.trans (ih g')

theorem evalAll_sameRecords (K : Kernels τ) (g : LazyGraph τ) : SameRecords g (g.evalAll K).2 :=
  evalLeaves_sameRecords K _ g

/-! ### Dead code -/

theorem foldl_dropRef_sameShape : ∀ (l : List LazyNodeId) (g : LazyGraph τ),
    SameShape g (l.foldl dropRef g) := by
  intro l
  induction l with
  | nil => exact fun g => .refl g
  | cons k l ih => exact fun g => (dropRef_sameShape g k).trans (ih _)

theorem foldl_dropRef_counts :
    ∀ (l : List LazyNodeId) (g : LazyGraph τ), CountsTo g (l ++ s) →
      CountsTo (l.foldl dropRef g) s := by
  intro l
  induction l with
  | nil => exact fun g h => h
  | cons k l ih => exact fun g h => ih _ h.dropRef

/-- A dropped reference leaves a dead node dead. -/
theorem dropRef_find (g : LazyGraph τ) (k id : LazyNodeId) {n : LazyNode τ}
    (hn : g.find id = some n) (hdead : isDead n = true) : (g.dropRef k).find id = some n := by
  have hzero : n.refCount = 0 := by
    simp only [isDead, decide_eq_true_eq] at hdead
    exact hdead.2.1
  unfold dropRef
  rw [find_modify (fun n => by split_ifs <;> rfl), hn]
  split_ifs
  · rw [Option.map_some, hzero]
    rfl
  · rfl

theorem foldl_dropRef_find {id : LazyNodeId} {n : LazyNode τ} (hdead : isDead n = true) :
    ∀ (l : List LazyNodeId) (g : LazyGraph τ), g.find id = some n →
      (l.foldl dropRef g).find id = some n := by
  intro l
  induction l with
  | nil => exact fun g h => h
  | cons k l ih => exact fun g h => ih _ (dropRef_find g k id h hdead)

/-- The graph without a node whose references have been dropped. -/
def dropNode (g : LazyGraph τ) (id : LazyNodeId) (node : LazyNode τ) : LazyGraph τ :=
  { node.inputs.foldl dropRef g with
    nodes := Keyed.erase LazyNode.id (node.inputs.foldl dropRef g).nodes id }

variable {node : LazyNode τ}

theorem removeNode_eq (h : g.find id = some node) (count : ℕ) :
    removeNode (g, count) id = (dropNode g id node, count + 1) := by
  unfold removeNode
  simp only [h]
  rfl

/-- A node that nobody reads can go. -/
theorem GraphShape.eraseNode (hg : GraphShape g) (hid : id ∉ g.slots) :
    GraphShape { g with nodes := Keyed.erase LazyNode.id g.nodes id } := by
  have hmem : ∀ m ∈ Keyed.erase LazyNode.id g.nodes id, m ∈ g.nodes :=
    fun m hm => (Keyed.mem_erase.mp hm).1
  refine ⟨⟨hg.keys.distinct.erase id, fun m hm => hg.keys.lt_next m (hmem m hm)⟩,
    fun m hm => hg.nonempty m (hmem m hm), ?_, ?_⟩
  · intro k hk
    obtain ⟨m, hm, hkm⟩ := mem_slots.mp hk
    have hk' : k ∈ g.slots := mem_slots.mpr ⟨m, hmem m hm, hkm⟩
    have hne : k ≠ id := fun h => hid (h ▸ hk')
    show (Keyed.find LazyNode.id (Keyed.erase LazyNode.id g.nodes id) k).isSome
    rw [Keyed.find_erase_ne hne]
    exact hg.closed k hk'
  · obtain ⟨rank, hr⟩ := hg.ranked
    exact ⟨rank, hr.le, fun m hm => hr.plain m (hmem m hm), fun m hm => hr.lt m (hmem m hm)⟩

/-- **Removing a dead node** keeps the shape and the counts. -/
theorem GraphShape.dropNode (hg : GraphShape g) (hc : CountsTo g g.slots)
    (hn : g.find id = some node) (hdead : isDead node = true) :
    GraphShape (MetalNative.dropNode g id node) ∧
      CountsTo (MetalNative.dropNode g id node) (MetalNative.dropNode g id node).slots := by
  have hsame := foldl_dropRef_sameShape node.inputs g
  have hunread : id ∉ g.slots := by
    have hcount := hc node (find_mem hn)
    simp only [isDead, decide_eq_true_eq] at hdead
    rw [hdead.2.1, find_id hn, UInt32.toNat_zero] at hcount
    exact List.count_eq_zero.mp hcount.symm
  refine ⟨(hg.congr hsame).eraseNode (hsame.slots ▸ hunread), ?_⟩
  -- the slots that are left are those of the other nodes
  have hfind : (node.inputs.foldl dropRef g).find id = some node :=
    foldl_dropRef_find hdead node.inputs g hn
  have hperm := (hg.congr hsame).keys.slots_perm hfind
  rw [hsame.slots] at hperm
  have hcounts := foldl_dropRef_counts node.inputs g (hc.perm hperm)
  intro m hm
  exact hcounts m (Keyed.mem_erase.mp hm).1

/-- The nodes to remove are there and dead, each once. -/
def Removable (g : LazyGraph τ) (ids : List LazyNodeId) : Prop :=
  ids.Nodup ∧ ∀ id ∈ ids, ∃ n, g.find id = some n ∧ isDead n = true

theorem Removable.tail {ids : List LazyNodeId}
    (h : Removable g (id :: ids)) : Removable (dropNode g id node) ids := by
  obtain ⟨hnodup, hall⟩ := h
  obtain ⟨hnot, hnodup⟩ := nodup_cons.mp hnodup
  refine ⟨hnodup, fun k hk => ?_⟩
  obtain ⟨n, hn, hdead⟩ := hall k (mem_cons_of_mem _ hk)
  refine ⟨n, ?_, hdead⟩
  have hne : k ≠ id := fun h => hnot (h ▸ hk)
  show Keyed.find LazyNode.id (Keyed.erase LazyNode.id _ id) k = some n
  rw [Keyed.find_erase_ne hne]
  exact foldl_dropRef_find hdead node.inputs g hn

/-- Removing some dead nodes. -/
theorem GraphShape.removeAll : ∀ (ids : List LazyNodeId) (g : LazyGraph τ) (count : ℕ),
    Removable g ids → GraphShape g → CountsTo g g.slots →
      GraphShape (ids.foldl removeNode (g, count)).1 ∧
        CountsTo (ids.foldl removeNode (g, count)).1 (ids.foldl removeNode (g, count)).1.slots := by
  intro ids
  induction ids with
  | nil => exact fun g count _ hg hc => ⟨hg, hc⟩
  | cons id ids ih =>
    intro g count hids hg hc
    obtain ⟨node, hn, hdead⟩ := hids.2 id mem_cons_self
    obtain ⟨hg', hc'⟩ := hg.dropNode hc hn hdead
    rw [foldl_cons, removeNode_eq hn]
    exact ih _ _ hids.tail hg' hc'

theorem removable_dead (hg : g.Keys) :
    Removable g ((g.nodes.filter isDead).map LazyNode.id) := by
  refine ⟨hg.distinct.sublist (List.filter_sublist.map LazyNode.id), fun id hid => ?_⟩
  obtain ⟨n, hn, rfl⟩ := mem_map.mp hid
  obtain ⟨hn, hdead⟩ := mem_filter.mp hn
  exact ⟨n, hg.find_of_mem hn, hdead⟩

/-- **Dead-code elimination** keeps the shape and the counts. -/
theorem GraphShape.eliminate (hg : GraphShape g) (hc : CountsTo g g.slots) :
    GraphShape g.eliminateDeadCode.1 ∧
      CountsTo g.eliminateDeadCode.1 g.eliminateDeadCode.1.slots := by
  unfold eliminateDeadCode
  generalize g.nodes.length + 1 = fuel
  generalize 0 = eliminated
  induction fuel generalizing g eliminated with
  | zero => exact ⟨hg, hc⟩
  | succ fuel ih =>
    have hround := GraphShape.removeAll _ g 0 (removable_dead hg.keys) hg hc
    have hdef : eliminateRounds (fuel + 1) (g, eliminated) =
        if (eliminateRound g).2 = 0 then ((eliminateRound g).1, eliminated)
        else eliminateRounds fuel ((eliminateRound g).1, eliminated + (eliminateRound g).2) := rfl
    rw [hdef]
    split_ifs with hnone
    · exact hround
    · exact ih hround.1 hround.2 _

end MetalNative
