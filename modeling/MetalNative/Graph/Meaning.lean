import MetalNative.Graph.GraphRuns
import MetalNative.Lib.Denotation

namespace MetalNative

open LazyGraph Denotation

/-!
# Lazy graphs as expression graphs

* `LazyGraph.view` — a recorded input is a leaf, every other node an operation on its inputs.
* `view_record`, `view_rehash`, `view_modify` — how calls act on the view.
* `GraphShape.view_closed` — the arguments of a node are present and of smaller rank.
-/

/-- An operation with its scalar parameters. -/
abbrev Operator := OpType × List Float

variable {τ : Type} {g g' : LazyGraph τ} {n : LazyNode τ} {k id : LazyNodeId}

/-- A node as an expression. -/
def LazyNode.view (n : LazyNode τ) : View τ Operator LazyNodeId :=
  match n.opType, n.result with
  | .Unknown, some t => .leaf t
  | op, _ => .app (op, n.scalarParams) n.inputs

/-- A graph of expressions. -/
def LazyGraph.view (g : LazyGraph τ) (k : LazyNodeId) : Option (View τ Operator LazyNodeId) :=
  (g.find k).map LazyNode.view

theorem view_of_op (h : n.opType ≠ .Unknown) :
    n.view = .app (n.opType, n.scalarParams) n.inputs := by
  unfold LazyNode.view
  split
  · rename_i hop hres
    exact absurd hop h
  · rfl

/-- The arguments of a node are inputs of it. -/
theorem inputs_of_view {op : Operator} {args : List LazyNodeId} (h : n.view = .app op args) :
    args = n.inputs := by
  unfold LazyNode.view at h
  split at h
  · cases h
  · exact (View.app.inj h).2.symm

@[simp] theorem view_isSome (g : LazyGraph τ) (k : LazyNodeId) :
    (g.view k).isSome = (g.find k).isSome := by
  simp [view]

theorem view_eq_some {w : View τ Operator LazyNodeId} :
    g.view k = some w ↔ ∃ n, g.find k = some n ∧ n.view = w := by
  simp [view]

/-- The arguments of a node are present, with smaller ranks. -/
theorem GraphShape.view_closed (hg : GraphShape g) {rank : LazyNodeId → ℕ} (hr : Ranks g rank)
    {op : Operator} {args : List LazyNodeId} (h : g.view k = some (.app op args)) :
    ∀ j ∈ args, (g.view j).isSome ∧ rank j < rank k := by
  obtain ⟨n, hn, hview⟩ := view_eq_some.mp h
  obtain rfl := inputs_of_view hview
  intro j hj
  rw [view_isSome]
  exact ⟨hg.closed j (mem_slots.mpr ⟨n, find_mem hn, hj⟩), hr.lt_of_reads ⟨n, hn, hj⟩⟩

/-! ### Calls -/

theorem view_congr (h : ∀ k, g'.find k = g.find k) : g'.view = g.view := by
  ext1 k
  unfold view
  rw [h]

/-- An update of a node that its expression does not show. -/
theorem view_modify {f : LazyNode τ → LazyNode τ} (hf : ∀ n, (f n).id = n.id)
    (hview : ∀ n, g.find id = some n → (f n).view = n.view) : (g.modify id f).view = g.view := by
  ext1 k
  unfold view
  rw [find_modify hf]
  split_ifs with hk
  · cases hfind : g.find k with
    | none => rfl
    | some n =>
      rw [Option.map_some, Option.map_some, Option.map_some, hview n (hk ▸ hfind)]
  · rfl

theorem view_rehash {order : List LazyNodeId} (hg : g.Keys)
    (h : order.Perm (g.nodes.map LazyNode.id)) : (g.rehash order).view = g.view :=
  view_congr (find_rehash hg h)

theorem view_addRef (g : LazyGraph τ) (k : LazyNodeId) : (g.addRef k).view = g.view := by
  refine view_modify (fun n => ?_) (fun n _ => ?_)
  · rfl
  · rfl

theorem view_addRefs : ∀ (l : List LazyNodeId) (g : LazyGraph τ),
    (l.foldl addRef g).view = g.view := by
  intro l
  induction l with
  | nil => exact fun g => rfl
  | cons k l ih => exact fun g => (ih _).trans (view_addRef g k)

/-- The view after a record call. -/
theorem view_record (g : LazyGraph τ) (node : LazyNode τ) (k : LazyNodeId) :
    (recordNode g node).view k = if k = node.id then some node.view else g.view k := by
  have hview := congrFun (view_addRefs node.inputs g) k
  unfold view recordNode at *
  rw [find_addNode]
  split_ifs
  · rfl
  · exact hview

/-- Recording adds to the view. -/
theorem view_record_extends (hg : g.Keys) {node : LazyNode τ} (hid : node.id = g.nextId)
    {w : View τ Operator LazyNodeId} (h : g.view k = some w) :
    (recordNode g node).view k = some w := by
  have hlt : k < g.nextId := by
    refine hg.lt_of_isSome ?_
    rw [← view_isSome, h]
    rfl
  rw [view_record, if_neg (hid ▸ hlt.ne), h]

end MetalNative
