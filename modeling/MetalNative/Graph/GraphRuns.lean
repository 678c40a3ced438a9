import MetalNative.Graph.GraphShape
import MetalNative.Lib.Run

namespace MetalNative

open LazyGraph List

/-!
# Runs of a lazy graph

* `GraphOp` — the calls on a graph.  The order in which the node map is iterated may change between
  any two of them, which is a step of its own.
* `graphStep K` — the step function; a record call names nodes of the graph.
* `graphAfter_record`, `graphAfter_counted` — what a record call and the other calls do.
* `GraphShape.call` — every call but the two passes keeps the shape of the graph.
-/

/-- The calls on a graph, and a change of the iteration order of the node map. -/
inductive GraphOp (τ : Type) where
  | recordInput (tensor : τ)
  | recordUnary (op : OpType) (input : LazyNodeId) (outputShape : MNShape) (dtype : MNDType)
  | recordBinary (op : OpType) (lhs rhs : LazyNodeId) (outputShape : MNShape) (dtype : MNDType)
  | markOutput (id : LazyNodeId)
  | unmarkOutput (id : LazyNodeId)
  | optimizeFusions
  | eliminateDeadCode
  | eval (id : LazyNodeId)
  | evalAll
  | rehash (order : List LazyNodeId)

variable {τ : Type} {g g' : LazyGraph τ} {n : LazyNode τ} {k : LazyNodeId}

/-- The node map in another iteration order. -/
def LazyGraph.rehash (g : LazyGraph τ) (order : List LazyNodeId) : LazyGraph τ :=
  { g with nodes := order.filterMap g.find }

/-- The inputs that a call records. -/
def GraphOp.inputs : GraphOp τ → List LazyNodeId
  | .recordUnary _ input _ _ => [input]
  | .recordBinary _ lhs rhs _ _ => [lhs, rhs]
  | _ => []

/-- When a call can be made. -/
def GraphOp.Enabled (g : LazyGraph τ) (op : GraphOp τ) : Prop :=
  (∀ k ∈ op.inputs, (g.find k).isSome) ∧
    match op with
    | .rehash order => order.Perm (g.nodes.map LazyNode.id)
    | _ => True

instance (g : LazyGraph τ) (op : GraphOp τ) : Decidable (op.Enabled g) :=
  match op with
  | .rehash order => inferInstanceAs (Decidable (_ ∧ order.Perm (g.nodes.map LazyNode.id)))
  | .recordInput _ | .recordUnary .. | .recordBinary .. | .markOutput _ | .unmarkOutput _
  | .optimizeFusions | .eliminateDeadCode | .eval _ | .evalAll =>
    inferInstanceAs (Decidable (_ ∧ True))

/-- The graph after a call. -/
def graphAfter (K : Kernels τ) (g : LazyGraph τ) : GraphOp τ → LazyGraph τ
  | .recordInput tensor => (g.recordInput K tensor).2
  | .recordUnary op input outputShape dtype => (g.recordUnary op input outputShape dtype).2
  | .recordBinary op lhs rhs outputShape dtype => (g.recordBinary op lhs rhs outputShape dtype).2
  | .markOutput id => (g.markOutput id).2
  | .unmarkOutput id => g.unmarkOutput id
  | .optimizeFusions => g.optimizeFusions.1
  | .eliminateDeadCode => g.eliminateDeadCode.1
  | .eval id => (g.eval K id).2
  | .evalAll => (g.evalAll K).2
  | .rehash order => g.rehash order

/-- One call. -/
def graphStep (K : Kernels τ) (g : LazyGraph τ) (op : GraphOp τ) : Option (LazyGraph τ) :=
  if op.Enabled g then some (graphAfter K g op) else none

variable {op : GraphOp τ}

theorem graphStep_eq {K : Kernels τ} (h : graphStep K g op = some g') :
    op.Enabled g ∧ g' = graphAfter K g op := by
  unfold graphStep at h
  split_ifs at h with hen
  exact ⟨hen, (Option.some.inj h).symm⟩

/-! ### Another iteration order -/

variable {order : List LazyNodeId}

theorem filterMap_find_perm {nodes : List (LazyNode τ)}
    (hd : Keyed.Distinct LazyNode.id nodes) (h : order.Perm (nodes.map LazyNode.id)) :
    (order.filterMap (Keyed.find LazyNode.id nodes)).Perm nodes := by
  refine (h.filterMap _).trans (.of_eq ?_)
  rw [filterMap_map]
  have hall : ∀ n ∈ nodes, (Keyed.find LazyNode.id nodes ∘ LazyNode.id) n = some n :=
    fun n hn => hd.find_eq_some.mpr ⟨hn, rfl⟩
  rw [filterMap_congr hall, filterMap_some]

theorem rehash_perm (hg : g.Keys)
    (h : order.Perm (g.nodes.map LazyNode.id)) : (g.rehash order).nodes.Perm g.nodes :=
  filterMap_find_perm hg.distinct h

theorem find_rehash (hg : g.Keys)
    (h : order.Perm (g.nodes.map LazyNode.id)) (k : LazyNodeId) :
    (g.rehash order).find k = g.find k :=
  hg.distinct.find_perm (rehash_perm hg h).symm k

theorem slots_rehash (hg : g.Keys)
    (h : order.Perm (g.nodes.map LazyNode.id)) : (g.rehash order).slots.Perm g.slots :=
  (rehash_perm hg h).flatMap_right _

theorem GraphShape.rehash (hg : GraphShape g)
    (h : order.Perm (g.nodes.map LazyNode.id)) : GraphShape (g.rehash order) := by
  have hperm := rehash_perm hg.keys h
  refine ⟨⟨hg.keys.distinct.perm hperm.symm, fun n hn => ?_⟩, fun n hn => ?_, fun k hk => ?_, ?_⟩
  · exact hg.keys.lt_next n (hperm.mem_iff.mp hn)
  · exact hg.nonempty n (hperm.mem_iff.mp hn)
  · rw [find_rehash hg.keys h]
    exact hg.closed k ((slots_rehash hg.keys h).mem_iff.mp hk)
  · obtain ⟨rank, hr⟩ := hg.ranked
    exact ⟨rank, hr.le, fun n hn => hr.plain n (hperm.mem_iff.mp hn),
      fun n hn => hr.lt n (hperm.mem_iff.mp hn)⟩

theorem CountsTo.rehash (hg : g.Keys) (hc : CountsTo g g.slots)
    (h : order.Perm (g.nodes.map LazyNode.id)) :
    CountsTo (g.rehash order) (g.rehash order).slots := by
  intro n hn
  rw [(slots_rehash hg h).count_eq]
  exact hc n ((rehash_perm hg h).mem_iff.mp hn)

/-! ### Recording -/

/-- A record call counts its inputs and adds one node. -/
def recordNode (g : LazyGraph τ) (node : LazyNode τ) : LazyGraph τ :=
  (node.inputs.foldl addRef g).addNode node

theorem foldl_addRef_sameShape : ∀ (l : List LazyNodeId) (g : LazyGraph τ),
    SameShape g (l.foldl addRef g) := by
  intro l
  induction l with
  | nil => exact fun g => .refl g
  | cons k l ih => exact fun g => (addRef_sameShape g k).trans (ih _)

theorem find_isSome_congr (h : SameShape g g') : (g'.find k).isSome = (g.find k).isSome := by
  rw [Bool.eq_iff_iff, find_isSome_iff, find_isSome_iff, h.ids]

/-- Recording keeps the shape. -/
theorem GraphShape.record (hg : GraphShape g) {node : LazyNode τ} (hid : node.id = g.nextId)
    (hne : node.opType ≠ .Unknown → node.inputs ≠ [])
    (hin : ∀ k ∈ node.inputs, (g.find k).isSome) : GraphShape (recordNode g node) := by
  have hsame := foldl_addRef_sameShape node.inputs g
  refine (hg.congr hsame).addNode (hid.trans hsame.nextId.symm) hne fun k hk => ?_
  rw [find_isSome_congr hsame]
  exact hin k hk

/-- Counting the inputs of a new node, while no counter wraps. -/
theorem CountsTo.addRefs : ∀ (l : List LazyNodeId) (g : LazyGraph τ)
    (s : List LazyNodeId), CountsTo g s → (∀ k ∈ l, (l ++ s).count k < 2 ^ 32) →
      CountsTo (l.foldl LazyGraph.addRef g) (l ++ s) := by
  intro l
  induction l with
  | nil => exact fun g s h _ => h
  | cons k l ih =>
    intro g s h hlt
    have hperm : (l ++ k :: s).Perm (k :: l ++ s) := perm_middle
    have hk : s.count k + 1 < 2 ^ 32 := by
      have := hlt k mem_cons_self
      rw [cons_append, count_cons_self, count_append] at this
      omega
    refine (ih _ (k :: s) (h.addRef hk) fun j hj => ?_).perm hperm
    rw [hperm.count_eq]
    exact hlt j (mem_cons_of_mem _ hj)

/-- Recording keeps the counts. -/
theorem CountsTo.record (hg : GraphShape g) (hc : CountsTo g g.slots) {node : LazyNode τ}
    (hid : node.id = g.nextId) (hzero : node.refCount = 0)
    (hin : ∀ k ∈ node.inputs, (g.find k).isSome)
    (hlt : ∀ k ∈ node.inputs, (node.inputs ++ g.slots).count k < 2 ^ 32) :
    CountsTo (recordNode g node) (recordNode g node).slots := by
  have hsame := foldl_addRef_sameShape node.inputs g
  have hcounts := CountsTo.addRefs node.inputs g g.slots hc hlt
  refine CountsTo.addNode (hg.congr hsame) (hid.trans hsame.nextId.symm) hzero (fun k hk => ?_) ?_
  · rw [find_isSome_congr hsame]
    exact hin k hk
  · rw [hsame.slots]
    exact hcounts

/-- Counting the inputs of a new node changes counts of inputs only. -/
theorem mem_addRefs : ∀ (l : List LazyNodeId) (g : LazyGraph τ) (m : LazyNode τ),
    m ∈ (l.foldl addRef g).nodes →
      ∃ m₀ ∈ g.nodes, m = { m₀ with refCount := m.refCount } ∧ (m.id ∉ l → m = m₀) := by
  intro l
  induction l with
  | nil => exact fun g m hm => ⟨m, hm, rfl, fun _ => rfl⟩
  | cons k l ih =>
    intro g m hm
    obtain ⟨m₁, hm₁, heq, hself⟩ := ih (g.addRef k) m hm
    obtain ⟨m₀, hm₀, rfl⟩ := mem_modify.mp hm₁
    refine ⟨m₀, hm₀, ?_, fun hnot => ?_⟩
    · rw [heq]
      split_ifs <;> rfl
    · rw [mem_cons, not_or] at hnot
      have hid : m.id = m₀.id := by
        rw [heq]
        split_ifs <;> rfl
      rw [hself hnot.2, if_neg (hid ▸ hnot.1)]

/-- The nodes after a record call. -/
theorem mem_record (hg : g.Keys) (hid : n.id = g.nextId) {m : LazyNode τ}
    (hm : m ∈ (recordNode g n).nodes) : m = n ∨
      ∃ m₀ ∈ g.nodes, m = { m₀ with refCount := m.refCount } ∧ (m.id ∉ n.inputs → m = m₀) := by
  have hsame := foldl_addRef_sameShape n.inputs g
  have hnodes := (hg.of_ids hsame.ids hsame.nextId).addNode_nodes (hid.trans hsame.nextId.symm)
  unfold recordNode at hm
  rw [hnodes] at hm
  rcases mem_cons.mp hm with rfl | hm
  · exact .inl rfl
  · exact .inr (mem_addRefs n.inputs g m hm)

/-- The node that a record call adds. -/
def GraphOp.node (K : Kernels τ) (g : LazyGraph τ) : GraphOp τ → Option (LazyNode τ)
  | .recordInput tensor => some
      { id := g.nextId, opType := .Unknown, status := .Materialized,
        outputShape := K.shape tensor, outputDtype := K.dtype tensor, result := some tensor }
  | .recordUnary op input outputShape dtype => some
      { id := g.nextId, opType := op, outputShape, outputDtype := dtype, inputs := [input] }
  | .recordBinary op lhs rhs outputShape dtype => some
      { id := g.nextId, opType := op, outputShape, outputDtype := dtype, inputs := [lhs, rhs] }
  | _ => none

/-- What is common to the nodes that record calls add. -/
structure FreshNode (g : LazyGraph τ) (op : GraphOp τ) (n : LazyNode τ) : Prop where
  id : n.id = g.nextId
  inputs : n.inputs = op.inputs
  nonempty : n.opType ≠ .Unknown → n.inputs ≠ []
  refCount : n.refCount = 0
  params : n.scalarParams = []

/-- **A record call** adds a fresh node. -/
theorem graphAfter_record (K : Kernels τ) (h : op.node K g = some n) :
    graphAfter K g op = recordNode g n ∧ FreshNode g op n := by
  cases op with
  | recordInput t =>
    obtain rfl := Option.some.inj h
    exact ⟨rfl, rfl, rfl, fun h => absurd rfl h, rfl, rfl⟩
  | recordUnary | recordBinary =>
    obtain rfl := Option.some.inj h
    exact ⟨rfl, rfl, rfl, fun _ => List.cons_ne_nil _ _, rfl, rfl⟩
  | markOutput | unmarkOutput | optimizeFusions | eliminateDeadCode | eval | evalAll | rehash =>
    cases h

/-! ### The other calls -/

/-- A call that is neither a record call nor a pass. -/
def GraphOp.keepsNodes : GraphOp τ → Bool
  | .markOutput _ | .unmarkOutput _ | .eval _ | .evalAll => true
  | _ => false

/-- A call of `optimize_fusions`. -/
def GraphOp.isFusion : GraphOp τ → Bool
  | .optimizeFusions => true
  | _ => false

/-- What the shape and the counts depend on. -/
def LazyNode.counted (n : LazyNode τ) : LazyNodeId × OpType × List LazyNodeId × UInt32 :=
  (n.id, n.opType, n.inputs, n.refCount)

/-- Marks, `eval` and `eval_all` leave ids, operations, inputs and counts alone. -/
theorem graphAfter_counted (K : Kernels τ) (g : LazyGraph τ)
    (h : op.keepsNodes = true) :
    (graphAfter K g op).nodes.map LazyNode.counted = g.nodes.map LazyNode.counted ∧
      (graphAfter K g op).nextId = g.nextId := by
  have hmark : ∀ (id : LazyNodeId) (marked : Bool),
      (g.modify id fun n => { n with isOutput := marked }).nodes.map LazyNode.counted
        = g.nodes.map LazyNode.counted := by
    intro id marked
    refine map_modify LazyNode.counted (fun n => ?_) g id
    rfl
  cases op with
  | markOutput id =>
    show (g.markOutput id).2.nodes.map LazyNode.counted = _ ∧ (g.markOutput id).2.nextId = _
    unfold markOutput
    cases g.find id with
    | none => exact ⟨rfl, rfl⟩
    | some n => exact ⟨hmark id true, rfl⟩
  | unmarkOutput id => exact ⟨hmark id false, rfl⟩
  | eval id =>
    have hsame := eval_sameRecords K g id
    exact ⟨hsame.map_eq LazyNode.counted fun _ => rfl, hsame.nextId⟩
  | evalAll =>
    have hsame := evalAll_sameRecords K g
    exact ⟨hsame.map_eq LazyNode.counted fun _ => rfl, hsame.nextId⟩
  | recordInput | recordUnary | recordBinary | optimizeFusions | eliminateDeadCode | rehash =>
    cases h

theorem sameShape_of_counted (h : g'.nodes.map LazyNode.counted = g.nodes.map LazyNode.counted)
    (hnext : g'.nextId = g.nextId) : SameShape g g' := by
  refine ⟨?_, hnext⟩
  have := congrArg (map fun x => (x.1, x.2.1, x.2.2.1)) h
  rwa [map_map, map_map] at this

theorem counts_of_counted (h : g'.nodes.map LazyNode.counted = g.nodes.map LazyNode.counted) :
    g'.nodes.map (fun n => (n.id, n.refCount)) = g.nodes.map fun n => (n.id, n.refCount) := by
  have := congrArg (map fun x => (x.1, x.2.2.2)) h
  rwa [map_map, map_map] at this

theorem GraphOp.eq_of_isFusion (h : op.isFusion = true) :
    op = .optimizeFusions := by
  cases op with
  | optimizeFusions => rfl
  | _ => cases h

/-- A call is a record call, a pass, a new iteration order or keeps the nodes. -/
theorem GraphOp.cases_of_node_eq_none {K : Kernels τ} (op : GraphOp τ) (h : op.node K g = none)
    (hpass : op ≠ .optimizeFusions ∧ op ≠ .eliminateDeadCode) :
    op.keepsNodes = true ∨ ∃ order, op = .rehash order := by
  cases op with
  | rehash order => exact .inr ⟨order, rfl⟩
  | optimizeFusions => exact absurd rfl hpass.1
  | eliminateDeadCode => exact absurd rfl hpass.2
  | recordInput | recordUnary | recordBinary => cases h
  | markOutput | unmarkOutput | eval | evalAll => exact .inl rfl

/-- **Every call but the passes** keeps the shape. -/
theorem GraphShape.call (K : Kernels τ) (hg : GraphShape g) (hen : op.Enabled g)
    (hpass : op ≠ .optimizeFusions ∧ op ≠ .eliminateDeadCode) :
    GraphShape (graphAfter K g op) := by
  cases hnode : op.node K g with
  | some n =>
    obtain ⟨hafter, hfresh⟩ := graphAfter_record K hnode
    rw [hafter]
    refine hg.record hfresh.id hfresh.nonempty fun k hk => ?_
    rw [hfresh.inputs] at hk
    exact hen.1 k hk
  | none =>
    rcases op.cases_of_node_eq_none hnode hpass with hkeep | ⟨order, rfl⟩
    · obtain ⟨hnodes, hnext⟩ := graphAfter_counted K g hkeep
      exact hg.congr (sameShape_of_counted hnodes hnext)
    · exact hg.rehash hen.2

theorem GraphShape.empty : GraphShape ({} : LazyGraph τ) where
  keys := ⟨nodup_nil, by simp⟩
  nonempty := by simp
  closed := by simp [slots]
  ranked := by
    refine ⟨id, fun _ => le_rfl, ?_, ?_⟩
    · simp
    · simp

/-! ### Scalar tensors -/

/-- The operations on tensors with one integer element, where these are integers. -/
def scalarKernels : Kernels ℤ where
  shape _ := [1]
  dtype _ := .Int64
  add a b := .ok (a + b)
  mul a b := .ok (a * b)
  sub a b := .ok (a - b)
  div _ _ := .error unsupportedScalar
  matmul a b := .ok (a * b)
  clamp a _ _ := .ok (max a 0)
  softmax _ _ := .ok 1
  rmsNorm _ _ _ := .error unsupportedScalar
  layerNorm _ _ _ _ := .error unsupportedScalar
  swiglu _ _ := .error unsupportedScalar
  fusedResidualNorm _ _ _ _ := .error unsupportedScalar
  exp _ := .error unsupportedScalar
  log _ := .error unsupportedScalar
  neg a := .ok (-a)
  abs a := .ok |a|
  sqrt _ := .error unsupportedScalar
where
  /-- What an operation throws that leaves the integers. -/
  unsupportedScalar : MNException := ⟨.InvalidArgument, "unsupported dtype"⟩

end MetalNative
