import MetalNative.Core.Tensor
import MetalNative.Graph.FusionPatterns
import MetalNative.Lib.Keyed
import MetalNative.Lib.TopoSort

namespace MetalNative

/-!
# `LazyGraph`: deferred computations

A translation of `lazy_graph.mm`.  A graph maps node ids to nodes; recording adds nodes, `eval`
executes what a node needs in topological order, `optimize_fusions` rewrites pairs of adjacent
pending operations into fused ones, and `eliminate_dead_code` drops what nobody reads.

* `Kernels` — the tensor operations that `execute_node` calls; each may throw.
* `execNode`, `eval`, `evalAll` — execution.  `executed` logs the nodes that were executed.
* `optimizeFusions`, `eliminateDeadCode` — the passes.
-/

/-- `LazyNodeId`. -/
abbrev LazyNodeId := ℕ

/-- `LazyNodeStatus`. -/
inductive LazyNodeStatus where
  | Pending
  | Scheduled
  | Materialized
  deriving DecidableEq, Repr

/-- `LazyNode`; `τ` is the type of tensors. -/
structure LazyNode (τ : Type) where
  id : LazyNodeId := 0
  opType : OpType := .Unknown
  status : LazyNodeStatus := .Pending
  outputShape : MNShape := []
  outputDtype : MNDType := .Float32
  inputs : List LazyNodeId := []
  scalarParams : List Float := []
  result : Option τ := none
  refCount : UInt32 := 0
  isOutput : Bool := false

/-- `LazyGraph::Impl`, with a log of the nodes that `execute_node` was called on. -/
structure LazyGraph (τ : Type) where
  nodes : List (LazyNode τ) := []
  nextId : LazyNodeId := 1
  executed : List LazyNodeId := []

/-- What the graph calls on tensors. -/
structure Kernels (τ : Type) where
  shape : τ → MNShape
  dtype : τ → MNDType
  add : τ → τ → Except MNException τ
  mul : τ → τ → Except MNException τ
  sub : τ → τ → Except MNException τ
  div : τ → τ → Except MNException τ
  matmul : τ → τ → Except MNException τ
  clamp : τ → Float32 → Float32 → Except MNException τ
  softmax : τ → Int → Except MNException τ
  rmsNorm : τ → τ → Float32 → Except MNException τ
  layerNorm : τ → τ → τ → Float32 → Except MNException τ
  swiglu : τ → τ → Except MNException τ
  fusedResidualNorm : τ → τ → τ → Float32 → Except MNException τ
  exp : τ → Except MNException τ
  log : τ → Except MNException τ
  neg : τ → Except MNException τ
  abs : τ → Except MNException τ
  sqrt : τ → Except MNException τ

/-- `HUGE_VALF`. -/
def HUGE_VALF : Float32 := 1 / 0

variable {τ : Type}

namespace LazyGraph

/-! ### The node map -/

/-- `nodes.find(id)`. -/
def find (g : LazyGraph τ) (id : LazyNodeId) : Option (LazyNode τ) :=
  Keyed.find LazyNode.id g.nodes id

/-- Change the node stored under `id`, if there is one. -/
def modify (g : LazyGraph τ) (id : LazyNodeId) (f : LazyNode τ → LazyNode τ) : LazyGraph τ :=
  { g with nodes := g.nodes.map fun n => if n.id = id then f n else n }

/-- `nodes[node.id] = node` with the id that `allocate_id` gave out. -/
def addNode (g : LazyGraph τ) (node : LazyNode τ) : LazyGraph τ :=
  { g with nodes := Keyed.insert LazyNode.id g.nodes node, nextId := g.nextId + 1 }

/-! ### Recording -/

/-- `ref_count++` for an input. -/
def addRef (g : LazyGraph τ) (inp : LazyNodeId) : LazyGraph τ :=
  g.modify inp fun n => { n with refCount := n.refCount + 1 }

/-- `record_unary`. -/
def recordUnary (g : LazyGraph τ) (op : OpType) (input : LazyNodeId) (outputShape : MNShape)
    (dtype : MNDType) : LazyNodeId × LazyGraph τ :=
  let node : LazyNode τ :=
    { id := g.nextId, opType := op, outputShape, outputDtype := dtype, inputs := [input] }
  (node.id, (g.addRef input).addNode node)

/-- `record_binary`. -/
def recordBinary (g : LazyGraph τ) (op : OpType) (lhs rhs : LazyNodeId) (outputShape : MNShape)
    (dtype : MNDType) : LazyNodeId × LazyGraph τ :=
  let node : LazyNode τ :=
    { id := g.nextId, opType := op, outputShape, outputDtype := dtype, inputs := [lhs, rhs] }
  (node.id, ((g.addRef lhs).addRef rhs).addNode node)

/-- `record_input`. -/
def recordInput (K : Kernels τ) (g : LazyGraph τ) (tensor : τ) : LazyNodeId × LazyGraph τ :=
  let node : LazyNode τ :=
    { id := g.nextId
      opType := .Unknown
      status := .Materialized
      outputShape := K.shape tensor
      outputDtype := K.dtype tensor
      result := some tensor }
  (node.id, g.addNode node)

/-- `mark_output`. -/
def markOutput (g : LazyGraph τ) (id : LazyNodeId) : Outcome (LazyGraph τ) Unit :=
  match g.find id with
  | none => (.error ⟨.InvalidArgument, "LazyGraph::mark_output: node not found"⟩, g)
  | some _ => (.ok (), g.modify id fun n => { n with isOutput := true })

/-- `unmark_output`. -/
def unmarkOutput (g : LazyGraph τ) (id : LazyNodeId) : LazyGraph τ :=
  g.modify id fun n => { n with isOutput := false }

/-! ### Execution -/

/-- The `switch` of `execute_node` on materialized inputs; `none` is `nullptr`. -/
def dispatch (K : Kernels τ) (op : OpType) (params : List Float) (inputs : List τ) :
    Except MNException (Option τ) :=
  let eps (default : Float32) : Float32 := (params.head?.map Float.toFloat32).getD default
  match op, inputs with
  | .Add, [a, b] => some <$> K.add a b
  | .Mul, [a, b] => some <$> K.mul a b
  | .ReLU, [a] => some <$> K.clamp a 0 HUGE_VALF
  | .Softmax, [a] => some <$> K.softmax a (-1)
  | .RMSNorm, a :: b :: _ => some <$> K.rmsNorm a b (eps 1e-6)
  | .LayerNorm, a :: b :: c :: _ => some <$> K.layerNorm a b c (eps 1e-5)
  | .SwiGLU, [a, b] => some <$> K.swiglu a b
  | .FusedResidualRMSNorm, [a, b, c] => some <$> K.fusedResidualNorm a b c (eps 1e-6)
  | .MatMul, [a, b] => some <$> K.matmul a b
  | .Sub, [a, b] => some <$> K.sub a b
  | .Div, [a, b] => some <$> K.div a b
  | .Exp, [a] => some <$> K.exp a
  | .Log, [a] => some <$> K.log a
  | .Neg, [a] => some <$> K.neg a
  | .Abs, [a] => some <$> K.abs a
  | .Sqrt, [a] => some <$> K.sqrt a
  | _, _ => .ok none

/-- The result of a node that is there and materialized. -/
def materializedResult (g : LazyGraph τ) (id : LazyNodeId) : Option τ :=
  match g.find id with
  | none => none
  | some n => if n.status = .Materialized then n.result else none

/-- `execute_node`; `none` is `nullptr`. -/
def execNode (K : Kernels τ) (g : LazyGraph τ) (node : LazyNode τ) :
    Except MNException (Option τ) :=
  if node.opType = .Unknown then .ok node.result
  else
    match node.inputs.mapM g.materializedResult with
    | none => .ok none -- an input is not ready
    | some inputs => dispatch K node.opType node.scalarParams inputs

/-- What the sort sees of a node. -/
def lookup (g : LazyGraph τ) (id : LazyNodeId) : Option (Bool × List LazyNodeId) :=
  (g.find id).map fun n => (decide (n.status = .Materialized), n.inputs)

/-- `topological_sort`; an order that the search gave up on is returned as it is. -/
def topologicalSort (g : LazyGraph τ) (target : LazyNodeId) : List LazyNodeId :=
  (TopoSort.dfs g.lookup (g.nodes.length + 1) target {}).2.order

/-- Mark a node as scheduled and log its execution. -/
def schedule (g : LazyGraph τ) (id : LazyNodeId) : LazyGraph τ :=
  { g.modify id fun n => { n with status := .Scheduled } with executed := g.executed ++ [id] }

/-- Store the result of a node. -/
def materialize (g : LazyGraph τ) (id : LazyNodeId) (t : τ) : LazyGraph τ :=
  g.modify id fun n => { n with result := some t, status := .Materialized }

/-- The loops of `eval` and `eval_all` over an order.  On `nullptr` the first throws what `onNull`
    says and the second goes on. -/
def execOrder (K : Kernels τ) (onNull : OpType → Option MNException) :
    List LazyNodeId → LazyGraph τ → Outcome (LazyGraph τ) Unit
  | [], g => (.ok (), g)
  | id :: rest, g =>
    match g.find id with
    | none => execOrder K onNull rest g
    | some node =>
      if node.status = .Materialized then execOrder K onNull rest g
      else
        let g := g.schedule id
        match execNode K g { node with status := .Scheduled } with
        | .error e => (.error e, g)
        | .ok (some t) => execOrder K onNull rest (g.materialize id t)
        | .ok none =>
          match onNull node.opType with
          | some e => (.error e, g)
          | none => execOrder K onNull rest g

/-- What `eval` throws for a node that could not be executed. -/
def execFailure (op : OpType) : Option MNException :=
  some ⟨.InternalError, "LazyGraph::eval: failed to execute node " ++ opTypeName op⟩

/-- `eval`; it returns what the result pointer of the node refers to. -/
def eval (K : Kernels τ) (g : LazyGraph τ) (id : LazyNodeId) :
    Outcome (LazyGraph τ) (Option τ) :=
  match g.find id with
  | none => (.error ⟨.InvalidArgument, "LazyGraph::eval: node not found"⟩, g)
  | some node =>
    if node.status = .Materialized then (.ok node.result, g)
    else
      let order := g.topologicalSort id
      if order = [] then
        (.error ⟨.InternalError,
          "LazyGraph::eval: topological sort produced empty order (cycle detected?)"⟩, g)
      else
        match execOrder K execFailure order g with
        | (.error e, g) => (.error e, g)
        | (.ok (), g) =>
          match g.find id with
          | some node =>
            if node.status = .Materialized then (.ok node.result, g)
            else (.error ⟨.InternalError,
              "LazyGraph::eval: node not materialized after execution"⟩, g)
          | none => (.ok none, g) -- a node never goes away during `eval`

/-- The loop of `eval_all` over the leaves. -/
def evalLeaves (K : Kernels τ) : List LazyNodeId → LazyGraph τ → Outcome (LazyGraph τ) Unit
  | [], g => (.ok (), g)
  | leaf :: rest, g =>
    match execOrder K (fun _ => none) (g.topologicalSort leaf) g with
    | (.error e, g) => (.error e, g)
    | (.ok (), g) => evalLeaves K rest g

/-- `eval_all`. -/
def evalAll (K : Kernels τ) (g : LazyGraph τ) : Outcome (LazyGraph τ) Unit :=
  let leaves := (g.nodes.filter fun n => n.status = .Pending ∧ n.refCount = 0).map LazyNode.id
  evalLeaves K leaves g

/-! ### Fusion -/

/-- The pending operations, sorted by id. -/
def pendingOps (g : LazyGraph τ) : List (LazyNodeId × OpType) :=
  ((g.nodes.filter fun n => n.status = .Pending).map fun n => (n.id, n.opType)).insertionSort
    fun a b => a.1 ≤ b.1

/-- The fused node for an addition `p` followed by a normalisation `q`. -/
def fusedResidualRMSNorm (fusedId : LazyNodeId) (p q : LazyNode τ) : LazyNode τ :=
  { id := fusedId
    opType := .FusedResidualRMSNorm
    outputShape := q.outputShape
    outputDtype := q.outputDtype
    inputs := p.inputs ++ q.inputs[1]?.toList
    scalarParams := q.scalarParams
    refCount := q.refCount }

/-- The fused node for an activation `p`, stored under `first`, followed by a product `q`. -/
def fusedSwiGLU (fusedId first : LazyNodeId) (p q : LazyNode τ) : LazyNode τ :=
  { id := fusedId
    opType := .SwiGLU
    outputShape := q.outputShape
    outputDtype := q.outputDtype
    inputs := p.inputs.headD 0 :: q.inputs.filter fun inp => inp ≠ first
    refCount := q.refCount }

/-- Point the readers of `old` to `new`. -/
def remapInputs (old new : LazyNodeId) (n : LazyNode τ) : LazyNode τ :=
  { n with inputs := n.inputs.map fun inp => if inp = old then new else inp }

/-- Put `fused` in the place of the nodes `first` and `second`. -/
def replacePair (g : LazyGraph τ) (first second : LazyNodeId) (fused : LazyNode τ) :
    LazyGraph τ :=
  let nodes := g.nodes.map (remapInputs second fused.id)
  let nodes := Keyed.erase LazyNode.id (Keyed.erase LazyNode.id nodes first) second
  { g with nodes := Keyed.insert LazyNode.id nodes fused, nextId := g.nextId + 1 }

/-- The rewrite of one match; `nodes[id]` of a missing id would be a default node that the erasure
    takes away again. -/
def applyMatch (nodeOrder : List LazyNodeId) (st : LazyGraph τ × ℕ) (m : FusionMatch) :
    LazyGraph τ × ℕ :=
  let (g, fusionsApplied) := st
  if m.length < 2 then st
  else
    match (nodeOrder.drop m.startIndex).take m.length with
    | [first, second] =>
      let p := (g.find first).getD {}
      let q := (g.find second).getD {}
      if m.pattern.fusedName = "FusedResidualRMSNorm" then
        (g.replacePair first second (fusedResidualRMSNorm g.nextId p q), fusionsApplied + 1)
      else if m.pattern.fusedName = "FusedSwiGLU" then
        (g.replacePair first second (fusedSwiGLU g.nextId first p q), fusionsApplied + 1)
      else st
    | _ => st

/-- `optimize_fusions`. -/
def optimizeFusions (g : LazyGraph τ) : LazyGraph τ × ℕ :=
  let pending := g.pendingOps
  if pending = [] then (g, 0)
  else
    let opSequence := pending.map Prod.snd
    let nodeOrder := pending.map Prod.fst
    let found := (findAllFusions builtinPatterns opSequence opSequence.length).getD []
    found.foldl (applyMatch nodeOrder) (g, 0)

/-! ### Dead code -/

/-- The test of `eliminate_dead_code`. -/
def isDead (n : LazyNode τ) : Bool :=
  n.status = .Pending ∧ n.refCount = 0 ∧ n.isOutput = false ∧ n.opType ≠ .Unknown

/-- `ref_count--` for an input, unless it is zero. -/
def dropRef (g : LazyGraph τ) (inp : LazyNodeId) : LazyGraph τ :=
  g.modify inp fun n => if n.refCount > 0 then { n with refCount := n.refCount - 1 } else n

/-- Remove one node of `to_remove`. -/
def removeNode (st : LazyGraph τ × ℕ) (id : LazyNodeId) : LazyGraph τ × ℕ :=
  let (g, eliminated) := st
  match g.find id with
  | none => st
  | some node =>
    let g := node.inputs.foldl dropRef g
    ({ g with nodes := Keyed.erase LazyNode.id g.nodes id }, eliminated + 1)

/-- One round of `eliminate_dead_code`. -/
def eliminateRound (g : LazyGraph τ) : LazyGraph τ × ℕ :=
  ((g.nodes.filter isDead).map LazyNode.id).foldl removeNode (g, 0)

/-- The rounds of `eliminate_dead_code`, while one changes something. -/
def eliminateRounds : ℕ → LazyGraph τ × ℕ → LazyGraph τ × ℕ
  | 0, st => st
  | fuel + 1, (g, eliminated) =>
    let (g', removed) := eliminateRound g
    if removed = 0 then (g', eliminated) else eliminateRounds fuel (g', eliminated + removed)

/-- `eliminate_dead_code`; every round but the last removes a node. -/
def eliminateDeadCode (g : LazyGraph τ) : LazyGraph τ × ℕ :=
  eliminateRounds (g.nodes.length + 1) (g, 0)

end LazyGraph

end MetalNative
