import MetalNative.Graph.Meaning
import Mathlib.Data.Finset.Max

namespace MetalNative

open LazyGraph Denotation Run

/-!
# `eval` computes denotations

* `Computes K g k v` — node `k` denotes `v` under the kernels.
* `EvalInv` — materialized nodes hold what they denote and their inputs are materialized.
* `execOrder_spec` — executing an order that is ready.
* `eval_spec`, `evalAll_spec` — the calls.
* `eval_denotation` — what they do in every run.
-/

variable {τ : Type} {K : Kernels τ} {g g' : LazyGraph τ} {n : LazyNode τ} {k id : LazyNodeId}
  {v : τ}

/-! ### What the kernels compute -/

/-- The numbers of inputs with which `execute_node` calls a kernel. -/
def OpType.supports (op : OpType) (inputs : ℕ) : Bool :=
  match op with
  | .Add | .Mul | .SwiGLU | .MatMul | .Sub | .Div => inputs = 2
  | .ReLU | .Softmax | .Exp | .Log | .Neg | .Abs | .Sqrt => inputs = 1
  | .RMSNorm => 2 ≤ inputs
  | .LayerNorm => 3 ≤ inputs
  | .FusedResidualRMSNorm => inputs = 3
  | _ => false

/-- A supported operation is never answered with `nullptr`. -/
theorem dispatch_supported {op : OpType} {params : List Float} {ts : List τ}
    (h : op.supports ts.length = true) : dispatch K op params ts ≠ .ok none := by
  have hmap : ∀ r : Except MNException τ, (some <$> r : Except MNException (Option τ)) ≠
      .ok none := by
    rintro (e | t)
    · intro heq
      cases heq
    · intro heq
      cases heq
  rcases ts with _ | ⟨a, _ | ⟨b, _ | ⟨c, _ | ⟨d, ts⟩⟩⟩⟩ <;> cases op <;>
    first
    | exact hmap _
    | simp [OpType.supports] at h

/-- What an operation computes. -/
def opMeaning (K : Kernels τ) (op : Operator) (ts : List τ) : Option τ :=
  match dispatch K op.1 op.2 ts with
  | .ok r => r
  | .error _ => none

/-- Node `k` denotes `v`. -/
abbrev Computes (K : Kernels τ) (g : LazyGraph τ) (k : LazyNodeId) (v : τ) : Prop :=
  Denotes g.view (fun t => t) (opMeaning K) k v

/-- The kernel of node `k` throws `e` on what the inputs denote. -/
def KernelThrows (K : Kernels τ) (g : LazyGraph τ) (k : LazyNodeId) (e : MNException) : Prop :=
  ∃ op args ts, g.view k = some (.app op args) ∧ List.Forall₂ (Computes K g) args ts ∧
    dispatch K op.1 op.2 ts = .error e

variable {e : MNException}

theorem KernelThrows.not_computes (h : KernelThrows K g k e) :
    ¬ Computes K g k v := by
  obtain ⟨op, args, ts, hview, hargs, hthrow⟩ := h
  intro hv
  obtain ⟨us, hus, hop⟩ := (denotes_app hview).mp hv
  have heq : us = ts := List.right_unique_forall₂' (fun _ _ _ h h' => h.unique h') hus hargs
  rw [heq, opMeaning, hthrow] at hop
  cases hop

theorem KernelThrows.congr (h : KernelThrows K g k e) (hview : g'.view = g.view) :
    KernelThrows K g' k e := by
  unfold KernelThrows Computes
  rw [hview]
  exact h

/-- Whatever a node that denotes needs denotes too. -/
theorem Computes.ancestor (h : Computes K g k v) {j : LazyNodeId}
    (hj : Relation.ReflTransGen (Reads g) k j)
    (hop : ∀ i n, g.find i = some n → n.inputs ≠ [] → n.opType ≠ .Unknown) :
    ∃ w, Computes K g j w := by
  induction hj with
  | refl => exact ⟨v, h⟩
  | tail _ hstep ih =>
    obtain ⟨w, hw⟩ := ih
    obtain ⟨n, hn, hmem⟩ := hstep
    have hview : g.view _ = some (.app (n.opType, n.scalarParams) n.inputs) :=
      view_eq_some.mpr ⟨n, hn, view_of_op (hop _ n hn (List.ne_nil_of_mem hmem))⟩
    obtain ⟨ts, hts, -⟩ := (denotes_app hview).mp hw
    obtain ⟨i, hi, hij⟩ := List.getElem_of_mem hmem
    have hlen := hts.length_eq
    have hget := List.Forall₂.get hts hi (hlen ▸ hi)
    rw [List.get_eq_getElem, hij] at hget
    exact ⟨_, hget⟩

/-! ### The invariant -/

/-- Node `k` is there and materialized. -/
def Done (g : LazyGraph τ) (k : LazyNodeId) : Prop :=
  ∃ n, g.find k = some n ∧ n.status = .Materialized

/-- Node `k` is there and not materialized. -/
def Unmaterialized (g : LazyGraph τ) (k : LazyNodeId) : Prop :=
  ∃ n, g.find k = some n ∧ n.status ≠ .Materialized

/-- What holds of every node.  A node stays scheduled only when its kernel threw. -/
structure NodeInv (K : Kernels τ) (g : LazyGraph τ) (n : LazyNode τ) : Prop where
  supported : n.opType ≠ .Unknown → n.opType.supports n.inputs.length = true
  input : n.opType = .Unknown → n.status = .Materialized ∧ n.inputs = []
  result : n.status = .Materialized → ∃ v, n.result = some v ∧ Computes K g n.id v
  inputs : n.status = .Materialized → ∀ k ∈ n.inputs, Done g k
  stuck : n.status = .Scheduled → ∀ v, ¬ Computes K g n.id v

/-- The invariant of a graph that is recorded and evaluated. -/
structure EvalInv (K : Kernels τ) (g : LazyGraph τ) : Prop where
  shape : GraphShape g
  nodes : ∀ n ∈ g.nodes, NodeInv K g n
  unread : ∀ n ∈ g.nodes, n.id ∉ g.slots → n.refCount = 0

theorem EvalInv.at (hi : EvalInv K g) (hn : g.find k = some n) : NodeInv K g n :=
  hi.nodes n (find_mem hn)

theorem EvalInv.op_of_inputs (hi : EvalInv K g) (i : LazyNodeId) (n : LazyNode τ)
    (hn : g.find i = some n) (hne : n.inputs ≠ []) : n.opType ≠ .Unknown :=
  fun hop => hne ((hi.at hn).input hop).2

variable {a b : LazyNodeId}

theorem EvalInv.present (hi : EvalInv K g) (h : Reads g a b) :
    (g.find b).isSome := by
  obtain ⟨n, hn, hb⟩ := h
  exact hi.shape.closed b (mem_slots.mpr ⟨n, find_mem hn, hb⟩)

theorem done_or_unmaterialized (h : (g.find k).isSome) : Done g k ∨ Unmaterialized g k := by
  obtain ⟨n, hn⟩ := Option.isSome_iff_exists.mp h
  by_cases hs : n.status = .Materialized
  · exact .inl ⟨n, hn, hs⟩
  · exact .inr ⟨n, hn, hs⟩

theorem Unmaterialized.not_done (h : Unmaterialized g k) : ¬ Done g k := by
  obtain ⟨n, hn, hs⟩ := h
  rintro ⟨m, hm, hs'⟩
  rw [hn] at hm
  exact hs ((Option.some.inj hm) ▸ hs')

/-- Readers of an unmaterialized node are unmaterialized. -/
theorem EvalInv.unmaterialized_of_reads (hi : EvalInv K g) (h : Reads g a b)
    (hb : Unmaterialized g b) : Unmaterialized g a := by
  obtain ⟨n, hn, hmem⟩ := h
  exact ⟨n, hn, fun hs => hb.not_done ((hi.at hn).inputs hs b hmem)⟩

/-- The result of a materialized node. -/
theorem EvalInv.materializedResult (hi : EvalInv K g) (h : Done g k) :
    ∃ v, g.materializedResult k = some v ∧ Computes K g k v := by
  obtain ⟨n, hn, hs⟩ := h
  obtain ⟨v, hv, hcomp⟩ := (hi.at hn).result hs
  rw [find_id hn] at hcomp
  refine ⟨v, ?_, hcomp⟩
  simp [LazyGraph.materializedResult, hn, hs, hv]

/-! ### Executing an order -/

/-- What executing the nodes `l` does to a graph. -/
structure Executed (K : Kernels τ) (g : LazyGraph τ) (l : List LazyNodeId) (g' : LazyGraph τ) :
    Prop where
  inv : EvalInv K g'
  records : SameRecords g g'
  view : g'.view = g.view
  log : g'.executed = g.executed ++ l
  done : ∀ k ∈ l, Done g' k
  frame : ∀ k ∉ l, g'.find k = g.find k

theorem Executed.refl (hi : EvalInv K g) : Executed K g [] g :=
  ⟨hi, .refl g, rfl, (List.append_nil _).symm, fun _ h => (List.not_mem_nil h).elim, fun _ _ => rfl⟩

variable {l : List LazyNodeId}

theorem Executed.done_mono (h : Executed K g l g') (hk : Done g k) :
    Done g' k := by
  by_cases hmem : k ∈ l
  · exact h.done k hmem
  · obtain ⟨n, hn, hs⟩ := hk
    exact ⟨n, (h.frame k hmem).trans hn, hs⟩

theorem Executed.trans {l l' : List LazyNodeId} {g'' : LazyGraph τ} (h : Executed K g l g')
    (h' : Executed K g' l' g'') : Executed K g (l ++ l') g'' where
  inv := h'.inv
  records := h.records.trans h'.records
  view := h'.view.trans h.view
  log := by rw [h'.log, h.log, List.append_assoc]
  done := by
    intro k hk
    rcases List.mem_append.mp hk with hk | hk
    · exact h'.done_mono (h.done k hk)
    · exact h'.done k hk
  frame := by
    intro k hk
    rw [List.mem_append, not_or] at hk
    rw [h'.frame k hk.2, h.frame k hk.1]

/-- An order that can be executed: every node is there, unmaterialized, and comes after the inputs
    that are not materialized yet. -/
structure Ready (g : LazyGraph τ) (l : List LazyNodeId) : Prop where
  nodup : l.Nodup
  ready : ∀ l₁ i l₂, l = l₁ ++ i :: l₂ →
    Unmaterialized g i ∧ ∀ j, Reads g i j → Done g j ∨ j ∈ l₁

theorem Ready.tail {i : LazyNodeId} (h : Ready g (i :: l))
    (hx : Executed K g [i] g') : Ready g' l := by
  obtain ⟨hnot, hnodup⟩ := List.nodup_cons.mp h.nodup
  refine ⟨hnodup, fun l₁ j l₂ heq => ?_⟩
  obtain ⟨hopen, hin⟩ := h.ready (i :: l₁) j l₂ (by rw [heq, List.cons_append])
  have hne : j ∉ [i] := by
    intro hj
    rw [List.mem_singleton] at hj
    exact hnot (hj ▸ heq ▸ List.mem_append_right l₁ List.mem_cons_self)
  have hfind := hx.frame j hne
  constructor
  · obtain ⟨n, hn, hs⟩ := hopen
    exact ⟨n, hfind.trans hn, hs⟩
  · rintro k ⟨n, hn, hk⟩
    rcases hin k ⟨n, hfind.symm.trans hn, hk⟩ with hdone | hmem
    · exact .inl (hx.done_mono hdone)
    · rcases List.mem_cons.mp hmem with rfl | hmem
      · exact .inl (hx.done k (List.mem_singleton_self k))
      · exact .inr hmem

/-- Replacing one node keeps the invariant, when the new node meets it. -/
theorem EvalInv.replace (hi : EvalInv K g) (n' : LazyNode τ) (hsame : SameRecords g g')
    (hfind : ∀ j m, g'.find j = some m → m = n' ∨ g.find j = some m) (hview : g'.view = g.view)
    (hdone : ∀ k, Done g k → Done g' k) (hn' : NodeInv K g' n') : EvalInv K g' where
  shape := hi.shape.congr hsame.sameShape
  nodes := by
    intro m hm
    have hkeys := (hi.shape.congr hsame.sameShape).keys
    rcases hfind m.id m (hkeys.find_of_mem hm) with rfl | hm
    · exact hn'
    · have hinv := hi.at hm
      refine ⟨hinv.supported, hinv.input, ?_, fun hs k hk => hdone k (hinv.inputs hs k hk), ?_⟩
      · unfold Computes
        rw [hview]
        exact hinv.result
      · unfold Computes
        rw [hview]
        exact hinv.stuck
  unread := by
    intro m hm hnot
    have hmem : m.recorded ∈ g.nodes.map LazyNode.recorded :=
      hsame.nodes ▸ List.mem_map_of_mem hm
    obtain ⟨m₀, hm₀, heq⟩ := List.mem_map.mp hmem
    have hid : m₀.recorded.id = m.recorded.id := congrArg LazyNode.id heq
    have hcount : m₀.recorded.refCount = m.recorded.refCount := congrArg LazyNode.refCount heq
    rw [hsame.sameShape.slots] at hnot
    exact hcount.symm.trans (hi.unread m₀ hm₀ fun hslot => hnot (hid ▸ hslot))

/-- The node that is being executed, and the node after it. -/
def LazyNode.scheduled (n : LazyNode τ) : LazyNode τ := { n with status := .Scheduled }

def LazyNode.finished (n : LazyNode τ) (t : τ) : LazyNode τ :=
  { n with status := .Materialized, result := some t }

theorem find_schedule (g : LazyGraph τ) (i k : LazyNodeId) :
    (g.schedule i).find k = if k = i then (g.find k).map LazyNode.scheduled else g.find k :=
  find_modify (f := LazyNode.scheduled) (fun _ => rfl) g i k

theorem find_materialize (g : LazyGraph τ) (i k : LazyNodeId) (t : τ) :
    (g.materialize i t).find k
      = if k = i then (g.find k).map (fun n => n.finished t) else g.find k :=
  find_modify (f := fun n => n.finished t) (fun _ => rfl) g i k

/-- Node `k` after its execution. -/
theorem find_executed (hn : g.find k = some n) (t : τ) (j : LazyNodeId) :
    ((g.schedule k).materialize k t).find j = if j = k then some (n.finished t) else g.find j := by
  rw [find_materialize, find_schedule]
  by_cases hj : j = k
  · simp only [hj, if_true, hn, Option.map_some]
    rfl
  · simp only [if_neg hj]

/-- The inputs that `execute_node` gathers for node `k`. -/
theorem EvalInv.gather (hi : EvalInv K g) (hk : ¬ Done g k) :
    ∀ l : List LazyNodeId, (∀ j ∈ l, Done g j) →
      ∃ ts, l.mapM (g.schedule k).materializedResult = some ts ∧
        List.Forall₂ (Computes K g) l ts := by
  intro l
  induction l with
  | nil => exact fun _ => ⟨[], rfl, .nil⟩
  | cons j l ih =>
    intro hdone
    have hj := hdone j List.mem_cons_self
    have hne : j ≠ k := fun h => hk (h ▸ hj)
    obtain ⟨t, ht, hcomp⟩ := hi.materializedResult hj
    obtain ⟨ts, hts, hcomps⟩ := ih fun i hi => hdone i (List.mem_cons_of_mem _ hi)
    have ht' : (g.schedule k).materializedResult j = some t := by
      rw [← ht]
      unfold LazyGraph.materializedResult
      rw [find_schedule, if_neg hne]
    refine ⟨t :: ts, ?_, .cons hcomp hcomps⟩
    rw [mapM_eq_some_iff] at hts ⊢
    exact .cons ht' hts

section Node

variable (hi : EvalInv K g) (hn : g.find k = some n) (hs : n.status ≠ .Materialized)

include hn hs

theorem not_done_of_find : ¬ Done g k := by
  apply Unmaterialized.not_done
  exact ⟨n, hn, hs⟩

include hi

theorem EvalInv.op_of_unmaterialized : n.opType ≠ .Unknown :=
  fun hop => hs ((hi.at hn).input hop).1

/-- What `execute_node` finds for a node whose inputs are materialized. -/
theorem EvalInv.execNode (hin : ∀ j ∈ n.inputs, Done g j) :
    ∃ ts, List.Forall₂ (Computes K g) n.inputs ts ∧ n.opType.supports ts.length = true ∧
      LazyGraph.execNode K (g.schedule k) n.scheduled
        = dispatch K n.opType n.scalarParams ts := by
  have hop := hi.op_of_unmaterialized hn hs
  obtain ⟨ts, hts, hcomp⟩ := hi.gather (not_done_of_find hn hs) n.inputs hin
  refine ⟨ts, hcomp, ?_, ?_⟩
  · rw [← hcomp.length_eq]
    exact (hi.at hn).supported hop
  · have hgather : n.scheduled.inputs.mapM (g.schedule k).materializedResult = some ts := hts
    unfold LazyGraph.execNode
    rw [if_neg (by exact hop)]
    simp only [hgather]
    rfl

theorem EvalInv.view_eq :
    g.view k = some (.app (n.opType, n.scalarParams) n.inputs) :=
  view_eq_some.mpr ⟨n, hn, view_of_op (hi.op_of_unmaterialized hn hs)⟩

/-- A node whose kernel throws stays scheduled. -/
theorem EvalInv.schedule (he : KernelThrows K g k e) :
    EvalInv K (g.schedule k) ∧ (g.schedule k).view = g.view := by
  have hop := hi.op_of_unmaterialized hn hs
  have hview : (g.schedule k).view = g.view := by
    ext1 j
    unfold LazyGraph.view
    rw [find_schedule]
    split_ifs with hj
    · rw [hj, hn, Option.map_some, Option.map_some, Option.map_some, view_of_op hop]
      exact congrArg some (view_of_op hop)
    · rfl
  have hdone : ∀ j, Done g j → Done (g.schedule k) j := by
    rintro j ⟨m, hm, hmat⟩
    have hne : j ≠ k := fun h => not_done_of_find hn hs (h ▸ ⟨m, hm, hmat⟩)
    exact ⟨m, by rw [find_schedule, if_neg hne, hm], hmat⟩
  refine ⟨hi.replace n.scheduled (schedule_sameRecords g k) (fun j m hm => ?_) hview hdone
    ?_, hview⟩
  · rw [find_schedule] at hm
    split_ifs at hm with hj
    · rw [hj, hn] at hm
      exact .inl (Option.some.inj hm).symm
    · exact .inr hm
  · have hinv := hi.at hn
    refine ⟨hinv.supported, fun h => absurd h hop, fun h => ?_, fun h => ?_, fun _ v => ?_⟩
    · cases h
    · cases h
    · unfold Computes
      rw [hview]
      exact find_id hn ▸ he.not_computes

/-- A node whose kernel answers is materialized. -/
theorem EvalInv.materialize (hin : ∀ j ∈ n.inputs, Done g j) (hv : Computes K g k v) :
    Executed K g [k] ((g.schedule k).materialize k v) := by
  have hop := hi.op_of_unmaterialized hn hs
  have hview : ((g.schedule k).materialize k v).view = g.view := by
    ext1 j
    unfold LazyGraph.view
    rw [find_executed hn]
    split_ifs with hj
    · rw [hj, hn, Option.map_some, Option.map_some, view_of_op hop]
      exact congrArg some (view_of_op hop)
    · rfl
  have hself : Done ((g.schedule k).materialize k v) k :=
    ⟨n.finished v, by rw [find_executed hn, if_pos rfl], rfl⟩
  have hdone : ∀ j, Done g j → Done ((g.schedule k).materialize k v) j := by
    rintro j ⟨m, hm, hmat⟩
    have hne : j ≠ k := fun h => not_done_of_find hn hs (h ▸ ⟨m, hm, hmat⟩)
    exact ⟨m, by rw [find_executed hn, if_neg hne, hm], hmat⟩
  have hrecords := (schedule_sameRecords g k).trans (materialize_sameRecords _ k v)
  refine ⟨hi.replace (n.finished v) hrecords (fun j m hm => ?_) hview hdone ?_, hrecords,
    hview, rfl, fun j hj => ?_, fun j hj => ?_⟩
  · rw [find_executed hn] at hm
    split_ifs at hm with hj
    · exact .inl (Option.some.inj hm).symm
    · exact .inr hm
  · have hinv := hi.at hn
    refine ⟨hinv.supported, fun h => absurd h hop, fun _ => ⟨v, rfl, ?_⟩,
      fun _ j hj => hdone j (hin j hj), fun h => ?_⟩
    · unfold Computes
      rw [hview]
      exact (find_id hn).symm ▸ hv
    · cases h
  · rw [List.mem_singleton] at hj
    exact hj ▸ hself
  · rw [List.mem_singleton] at hj
    rw [find_executed hn, if_neg hj]

end Node

section Order

variable {i : LazyNodeId} {l : List LazyNodeId} (onNull : OpType → Option MNException)

theorem execOrder_error (hn : g.find i = some n) (hs : n.status ≠ .Materialized)
    (hexec : LazyGraph.execNode K (g.schedule i) n.scheduled = .error e) :
    execOrder K onNull (i :: l) g = (.error e, g.schedule i) := by
  have hexec' : LazyGraph.execNode K (g.schedule i) { n with status := .Scheduled } = .error e :=
    hexec
  simp only [execOrder, hn, if_neg hs, hexec']

theorem execOrder_some {t : τ} (hn : g.find i = some n) (hs : n.status ≠ .Materialized)
    (hexec : LazyGraph.execNode K (g.schedule i) n.scheduled = .ok (some t)) :
    execOrder K onNull (i :: l) g = execOrder K onNull l ((g.schedule i).materialize i t) := by
  have hexec' : LazyGraph.execNode K (g.schedule i) { n with status := .Scheduled } =
      .ok (some t) := hexec
  simp only [execOrder, hn, if_neg hs, hexec']

end Order

/-- How the execution of the order `l` can go: it goes through, or the kernel of a node throws. -/
inductive Executes (K : Kernels τ) (g : LazyGraph τ) (l : List LazyNodeId) :
    Outcome (LazyGraph τ) Unit → Prop
  | through {g' : LazyGraph τ} : Executed K g l g' → Executes K g l (.ok (), g')
  | threw {g' : LazyGraph τ} {i : LazyNodeId} {e : MNException} : i ∈ l → KernelThrows K g i e →
      EvalInv K g' → SameRecords g g' → g'.view = g.view → Executes K g l (.error e, g')

/-- **Executing an order that is ready.** -/
theorem execOrder_spec (onNull : OpType → Option MNException) :
    ∀ (l : List LazyNodeId) (g : LazyGraph τ), EvalInv K g → Ready g l →
      Executes K g l (execOrder K onNull l g) := by
  intro l
  induction l with
  | nil => exact fun g hi _ => .through (.refl hi)
  | cons i l ih =>
    intro g hi hready
    obtain ⟨⟨n, hn, hs⟩, hin⟩ := hready.ready [] i l rfl
    have hdone : ∀ j ∈ n.inputs, Done g j := by
      intro j hj
      rcases hin j ⟨n, hn, hj⟩ with hdone | hnil
      · exact hdone
      · exact absurd hnil List.not_mem_nil
    obtain ⟨ts, hts, hsupp, hexec⟩ := hi.execNode hn hs hdone
    have hview := hi.view_eq hn hs
    cases hdisp : dispatch K n.opType n.scalarParams ts with
    | error e =>
      rw [execOrder_error onNull hn hs (hexec.trans hdisp)]
      have hthrow : KernelThrows K g i e := ⟨_, _, ts, hview, hts, hdisp⟩
      obtain ⟨hinv, hsame⟩ := hi.schedule hn hs hthrow
      exact .threw List.mem_cons_self hthrow hinv (schedule_sameRecords g i) hsame
    | ok r =>
      cases r with
      | none => exact absurd hdisp (dispatch_supported hsupp)
      | some t =>
        have hcomp : Computes K g i t := by
          refine (denotes_app hview).mpr ⟨ts, hts, ?_⟩
          simp [opMeaning, hdisp]
        have hx := hi.materialize hn hs hdone hcomp
        have hrest := ih _ hx.inv (hready.tail hx)
        rw [execOrder_some onNull hn hs (hexec.trans hdisp)]
        generalize execOrder K onNull l ((g.schedule i).materialize i t) = out at hrest
        cases hrest with
        | through h => exact .through (hx.trans h)
        | threw hj hthrow hinv hrecords hsame =>
          refine .threw (List.mem_cons_of_mem _ hj) (hthrow.congr hx.view.symm) hinv
            (hx.records.trans hrecords) (hsame.trans hx.view)

/-! ### The order for a target -/

theorem unfinished_iff : TopoSort.Unfinished g.lookup k ↔ Unmaterialized g k := by
  constructor
  · rintro ⟨inputs, h⟩
    obtain ⟨n, hn, heq⟩ := Option.map_eq_some_iff.mp h
    exact ⟨n, hn, by simpa using congrArg Prod.fst heq⟩
  · rintro ⟨n, hn, hs⟩
    exact ⟨n.inputs, by simp [lookup, hn, hs]⟩

theorem pulls_iff {i j : LazyNodeId} :
    TopoSort.Pulls g.lookup i j ↔ Unmaterialized g i ∧ Reads g i j := by
  constructor
  · rintro ⟨inputs, h, hj⟩
    refine ⟨unfinished_iff.mp ⟨inputs, h⟩, ?_⟩
    obtain ⟨n, hn, heq⟩ := Option.map_eq_some_iff.mp h
    obtain rfl : n.inputs = inputs := congrArg Prod.snd heq
    exact ⟨n, hn, hj⟩
  · rintro ⟨⟨n, hn, hs⟩, m, hm, hj⟩
    rw [hn] at hm
    obtain rfl := Option.some.inj hm
    exact ⟨n.inputs, by simp [lookup, hn, hs], hj⟩

/-- Ancestors that are not materialized are reached through unmaterialized nodes. -/
theorem EvalInv.pulls_path (hi : EvalInv K g) (hb : Unmaterialized g b)
    (h : Relation.ReflTransGen (Reads g) a b) :
    Unmaterialized g a ∧ Relation.ReflTransGen (TopoSort.Pulls g.lookup) a b := by
  induction h using Relation.ReflTransGen.head_induction_on with
  | refl => exact ⟨hb, .refl⟩
  | head hstep _ ih =>
    have ha := hi.unmaterialized_of_reads hstep ih.1
    exact ⟨ha, .head (pulls_iff.mpr ⟨ha, hstep⟩) ih.2⟩

/-- The order in which the nodes that `id` needs are executed. -/
structure OrderFor (g : LazyGraph τ) (id : LazyNodeId) (l : List LazyNodeId) : Prop where
  nodup : l.Nodup
  inputsFirst : ∀ l₁ i l₂, l = l₁ ++ i :: l₂ → ∀ j, Reads g i j → Unmaterialized g j → j ∈ l₁
  mem : ∀ k, k ∈ l ↔ Unmaterialized g k ∧ Relation.ReflTransGen (Reads g) id k

/-- **`topological_sort`** gives such an order. -/
theorem EvalInv.order (hi : EvalInv K g) (hid : (g.find id).isSome) :
    OrderFor g id (g.topologicalSort id) := by
  obtain ⟨rank, hr⟩ := hi.shape.ranked
  have hrank : TopoSort.Ranked g.lookup rank := by
    refine ⟨fun i j h => ?_, fun i j h => ?_⟩
    · have hpresent := hi.present (pulls_iff.mp h).2
      simpa [lookup] using hpresent
    · exact hr.lt_of_reads (pulls_iff.mp h).2
  have hkeys : ∀ i, (g.lookup i).isSome → i ∈ (g.nodes.map LazyNode.id).toFinset := by
    intro i h
    rw [List.mem_toFinset, ← find_isSome_iff]
    simpa [lookup] using h
  have hfuel : (g.nodes.map LazyNode.id).toFinset.card < g.nodes.length + 1 := by
    have hle := List.toFinset_card_le (g.nodes.map LazyNode.id)
    rw [List.length_map] at hle
    omega
  have htarget : (g.lookup id).isSome := by simpa [lookup] using hid
  obtain ⟨s, hs, hnodup, hordered, hmem⟩ := TopoSort.sort_spec hrank hkeys htarget hfuel
  unfold topologicalSort
  rw [hs]
  refine ⟨hnodup, fun l₁ i l₂ heq j hj hopen => ?_, fun k => ?_⟩
  · refine hordered l₁ i l₂ heq j (pulls_iff.mpr ⟨?_, hj⟩) (unfinished_iff.mpr hopen)
    exact hi.unmaterialized_of_reads hj hopen
  · rw [hmem, unfinished_iff]
    constructor
    · rintro ⟨hopen, hpath⟩
      exact ⟨hopen, Relation.ReflTransGen.mono (fun a b h => (pulls_iff.mp h).2) id k hpath⟩
    · rintro ⟨hopen, hpath⟩
      exact ⟨hopen, (hi.pulls_path hopen hpath).2⟩

theorem OrderFor.ready (h : OrderFor g id l) (hi : EvalInv K g) :
    Ready g l := by
  refine ⟨h.nodup, fun l₁ i l₂ heq => ⟨?_, fun j hj => ?_⟩⟩
  · exact ((h.mem i).mp (heq ▸ List.mem_append_right l₁ List.mem_cons_self)).1
  · rcases done_or_unmaterialized (hi.present hj) with hdone | hopen
    · exact .inl hdone
    · exact .inr (h.inputsFirst l₁ i l₂ heq j hj hopen)

/-- A materialized node needs nothing. -/
theorem EvalInv.order_nil (hi : EvalInv K g) (hid : Done g id) : OrderFor g id [] := by
  refine ⟨List.nodup_nil, fun l₁ i l₂ heq => ?_, fun k => ?_⟩
  · simp at heq
  · refine iff_of_false List.not_mem_nil ?_
    rintro ⟨hopen, hpath⟩
    exact (hi.pulls_path hopen hpath).1.not_done hid

/-! ### The calls -/

/-- How `eval` of a node that is there can go. -/
inductive Evaluates (K : Kernels τ) (g : LazyGraph τ) (id : LazyNodeId) :
    Outcome (LazyGraph τ) (Option τ) → Prop
  | returned {l : List LazyNodeId} {g' : LazyGraph τ} {v : τ} : OrderFor g id l →
      Computes K g id v → Executed K g l g' → Evaluates K g id (.ok (some v), g')
  | threw {g' : LazyGraph τ} {i : LazyNodeId} {e : MNException} :
      Relation.ReflTransGen (Reads g) id i → KernelThrows K g i e → EvalInv K g' →
      SameRecords g g' → g'.view = g.view → Evaluates K g id (.error e, g')

theorem eval_spec (hi : EvalInv K g) (hid : (g.find id).isSome) :
    Evaluates K g id (g.eval K id) := by
  obtain ⟨n, hn⟩ := Option.isSome_iff_exists.mp hid
  unfold eval
  simp only [hn]
  by_cases hs : n.status = .Materialized
  · rw [if_pos hs]
    obtain ⟨v, hv, hcomp⟩ := (hi.at hn).result hs
    rw [find_id hn] at hcomp
    rw [hv]
    exact .returned (hi.order_nil ⟨n, hn, hs⟩) hcomp (.refl hi)
  · rw [if_neg hs]
    have horder := hi.order hid
    have hself : id ∈ g.topologicalSort id := (horder.mem id).mpr ⟨⟨n, hn, hs⟩, .refl⟩
    rw [if_neg (List.ne_nil_of_mem hself)]
    have hexec := execOrder_spec execFailure _ g hi (horder.ready hi)
    generalize execOrder K execFailure (g.topologicalSort id) g = out at hexec
    cases hexec with
    | @through g' hx =>
      obtain ⟨m, hm, hmat⟩ := hx.done id hself
      obtain ⟨v, hv, hcomp⟩ := (hx.inv.at hm).result hmat
      unfold Computes at hcomp
      rw [find_id hm, hx.view] at hcomp
      simp only [hm, hmat, if_true, hv]
      exact .returned horder hcomp hx
    | threw hj hthrow hinv hrecords hview =>
      exact .threw ((horder.mem _).mp hj).2 hthrow hinv hrecords hview

/-- How `eval_all` can go. -/
inductive EvaluatesAll (K : Kernels τ) (g : LazyGraph τ) (leaves : List LazyNodeId) :
    Outcome (LazyGraph τ) Unit → Prop
  | returned {l : List LazyNodeId} {g' : LazyGraph τ} : Executed K g l g' →
      (∀ k ∈ leaves, Done g' k) → EvaluatesAll K g leaves (.ok (), g')
  | threw {g' : LazyGraph τ} {i : LazyNodeId} {e : MNException} : KernelThrows K g i e →
      EvalInv K g' → g'.view = g.view → EvaluatesAll K g leaves (.error e, g')

theorem evalLeaves_spec : ∀ (leaves : List LazyNodeId) (g : LazyGraph τ), EvalInv K g →
    (∀ k ∈ leaves, (g.find k).isSome) → EvaluatesAll K g leaves (evalLeaves K leaves g) := by
  intro leaves
  induction leaves with
  | nil => exact fun g hi _ => .returned (.refl hi) fun _ h => (List.not_mem_nil h).elim
  | cons k leaves ih =>
    intro g hi hall
    have hk := hall k List.mem_cons_self
    have horder := hi.order hk
    have hexec := execOrder_spec (fun _ => none) _ g hi (horder.ready hi)
    rw [evalLeaves]
    generalize execOrder K (fun _ => none) (g.topologicalSort k) g = out at hexec
    cases hexec with
    | threw hj hthrow hinv hrecords hview => exact .threw hthrow hinv hview
    | @through g' hx =>
      have hpresent : ∀ j ∈ leaves, (g'.find j).isSome := by
        intro j hj
        rw [find_isSome_congr hx.records.sameShape]
        exact hall j (List.mem_cons_of_mem _ hj)
      have hkdone : Done g' k := by
        rcases done_or_unmaterialized hk with hdone | hopen
        · exact hx.done_mono hdone
        · exact hx.done k ((horder.mem k).mpr ⟨hopen, .refl⟩)
      have hrest := ih g' hx.inv hpresent
      show EvaluatesAll K g (k :: leaves) (evalLeaves K leaves g')
      generalize evalLeaves K leaves g' = out at hrest
      cases hrest with
      | threw hthrow hinv hview =>
        exact .threw (hthrow.congr hx.view.symm) hinv (hview.trans hx.view)
      | returned hx' hdone =>
        refine .returned (hx.trans hx') fun j hj => ?_
        rcases List.mem_cons.mp hj with rfl | hj
        · exact hx'.done_mono hkdone
        · exact hdone j hj

/-- The node of largest rank among the unmaterialized ones is read by nobody. -/
theorem EvalInv.exists_unread (hi : EvalInv K g) (hopen : ∃ n ∈ g.nodes, n.status ≠ .Materialized) :
    ∃ k, Unmaterialized g k ∧ k ∉ g.slots := by
  obtain ⟨rank, hr⟩ := hi.shape.ranked
  let opened := ((g.nodes.filter fun n => n.status ≠ .Materialized).map LazyNode.id).toFinset
  have hmem : ∀ k, k ∈ opened ↔ ∃ n ∈ g.nodes, n.status ≠ .Materialized ∧ n.id = k := by
    simp [opened, and_assoc]
  obtain ⟨n, hn, hs⟩ := hopen
  obtain ⟨k, hk, hmax⟩ :=
    Finset.exists_max_image opened rank ⟨n.id, (hmem _).mpr ⟨n, hn, hs, rfl⟩⟩
  obtain ⟨m, hm, hsm, rfl⟩ := (hmem k).mp hk
  have hfind := hi.shape.keys.find_of_mem hm
  refine ⟨m.id, ⟨m, hfind, hsm⟩, fun hslot => ?_⟩
  obtain ⟨r, hrm, hin⟩ := mem_slots.mp hslot
  have hreads : Reads g r.id m.id := ⟨r, hi.shape.keys.find_of_mem hrm, hin⟩
  obtain ⟨r', hr', hsr⟩ := hi.unmaterialized_of_reads hreads ⟨m, hfind, hsm⟩
  have hle := hmax r.id ((hmem _).mpr ⟨r', find_mem hr', hsr, find_id hr'⟩)
  exact absurd (hr.lt_of_reads hreads) (not_lt.mpr hle)

/-- An unmaterialized node that denotes and is read by nobody is a leaf. -/
theorem EvalInv.leaf (hi : EvalInv K g) (hopen : Unmaterialized g k) (hslot : k ∉ g.slots)
    (hv : Computes K g k v) :
    k ∈ (g.nodes.filter fun n => n.status = .Pending ∧ n.refCount = 0).map LazyNode.id := by
  obtain ⟨n, hn, hs⟩ := hopen
  have hid := find_id hn
  have hcount : n.refCount = 0 := hi.unread n (find_mem hn) (hid ▸ hslot)
  have hpending : n.status = .Pending := by
    cases hst : n.status with
    | Pending => rfl
    | Scheduled => exact absurd (hid ▸ hv) ((hi.at hn).stuck hst v)
    | Materialized => exact absurd hst hs
  refine List.mem_map.mpr ⟨n, List.mem_filter.mpr ⟨find_mem hn, ?_⟩, hid⟩
  simp [hpending, hcount]

theorem evalAll_invariant (hi : EvalInv K g) :
    EvaluatesAll K g ((g.nodes.filter fun n => n.status = .Pending ∧ n.refCount = 0).map
      LazyNode.id) (g.evalAll K) := by
  refine evalLeaves_spec _ g hi fun k hk => ?_
  obtain ⟨n, hn, rfl⟩ := List.mem_map.mp hk
  rw [hi.shape.keys.find_of_mem (List.mem_filter.mp hn).1]
  rfl

/-- **`eval_all`** materializes every node, when all of them denote. -/
theorem evalAll_spec (hi : EvalInv K g) (hall : ∀ n ∈ g.nodes, ∃ v, Computes K g n.id v) :
    ∃ g', g.evalAll K = (.ok (), g') ∧ ∀ n ∈ g'.nodes, n.status = .Materialized := by
  have hspec := evalAll_invariant hi
  generalize g.evalAll K = out at hspec
  cases hspec with
  | threw hthrow hinv hview =>
    obtain ⟨op, args, ts, hv, -⟩ := id hthrow
    obtain ⟨n, hn, -⟩ := view_eq_some.mp hv
    obtain ⟨v, hcomp⟩ := hall n (find_mem hn)
    rw [find_id hn] at hcomp
    exact absurd hcomp hthrow.not_computes
  | @returned l g' hx hleaves =>
    refine ⟨g', rfl, fun n hn => ?_⟩
    by_contra hs
    obtain ⟨k, hopen, hslot⟩ := hx.inv.exists_unread ⟨n, hn, hs⟩
    -- it was a leaf before, so it has been materialized
    have hpresent : (g.find k).isSome := by
      obtain ⟨m, hm, -⟩ := hopen
      rw [← find_isSome_congr hx.records.sameShape, hm]
      rfl
    obtain ⟨m, hm⟩ := Option.isSome_iff_exists.mp hpresent
    obtain ⟨v, hv⟩ := hall m (find_mem hm)
    rw [find_id hm] at hv
    have hbefore : Unmaterialized g k := by
      rcases done_or_unmaterialized hpresent with hdone | hopen'
      · exact absurd (hx.done_mono hdone) hopen.not_done
      · exact hopen'
    rw [hx.records.sameShape.slots] at hslot
    exact hopen.not_done (hleaves k (hi.leaf hbefore hslot hv))

/-! ### Runs -/

/-- The calls that record operations which `execute_node` supports, and those that evaluate. -/
def Evaluable (_ : LazyGraph τ) : GraphOp τ → Prop
  | .recordInput _ | .eval _ | .evalAll | .rehash _ => True
  | .recordUnary op _ _ _ => op.supports 1 = true
  | .recordBinary op _ _ _ _ => op.supports 2 = true
  | .markOutput _ | .unmarkOutput _ | .optimizeFusions | .eliminateDeadCode => False

instance (g : LazyGraph τ) : (op : GraphOp τ) → Decidable (Evaluable g op)
  | .recordInput _ | .eval _ | .evalAll | .rehash _ => inferInstanceAs (Decidable True)
  | .recordUnary op _ _ _ => inferInstanceAs (Decidable (op.supports 1 = true))
  | .recordBinary op _ _ _ _ => inferInstanceAs (Decidable (op.supports 2 = true))
  | .markOutput _ | .unmarkOutput _ | .optimizeFusions | .eliminateDeadCode =>
    inferInstanceAs (Decidable False)

theorem EvalInv.empty : EvalInv K {} where
  shape := .empty
  nodes := by simp
  unread := by simp

theorem Done.record (hg : g.Keys) (hid : n.id = g.nextId) (h : Done g k) :
    Done (recordNode g n) k := by
  obtain ⟨m, hm, hs⟩ := h
  have hlt : k < g.nextId := by
    refine hg.lt_of_isSome ?_
    rw [hm]
    rfl
  have hsame := foldl_addRef_sameShape n.inputs g
  have hpresent : ((n.inputs.foldl addRef g).find k).isSome := by
    rw [find_isSome_congr hsame, hm]
    rfl
  obtain ⟨m', hm'⟩ := Option.isSome_iff_exists.mp hpresent
  obtain ⟨m₀, hm₀, heq, -⟩ := mem_addRefs n.inputs g m' (find_mem hm')
  have hid₀ : m₀.id = k := by
    rw [← find_id hm', heq]
  have hfind := hg.find_of_mem hm₀
  rw [hid₀, hm] at hfind
  refine ⟨m', ?_, ?_⟩
  · unfold recordNode
    rw [find_addNode, if_neg (hid ▸ hlt.ne), hm']
  · rw [heq, ← Option.some.inj hfind]
    exact hs

/-- Record calls do not change what the nodes denote. -/
theorem computes_record (hg : GraphShape g) (hid : n.id = g.nextId) (hk : (g.find k).isSome) :
    Computes K (recordNode g n) k v ↔ Computes K g k v := by
  constructor
  · intro h
    obtain ⟨rank, hr⟩ := hg.ranked
    refine Denotes.restrict (S := fun j => (g.view j).isSome) ?_ ?_ (by simpa using hk) h
    · intro j hj
      obtain ⟨w, hw⟩ := Option.isSome_iff_exists.mp hj
      rw [hw]
      exact view_record_extends hg.keys hid hw
    · intro j op args _ hview i hi
      exact (hg.view_closed hr hview i hi).1
  · exact Denotes.extend fun j w => view_record_extends hg.keys hid

/-- A node that is recorded meets the invariant. -/
theorem EvalInv.newNode {op : GraphOp τ} (hnode : op.node K g = some n) (hev : Evaluable g op)
    {g' : LazyGraph τ} (hfind : g'.find n.id = some n) : NodeInv K g' n := by
  have hop : ∀ o : OpType, (∃ i, o.supports i = true) → o ≠ .Unknown := by
    rintro o ⟨i, hi⟩ rfl
    cases hi
  cases op with
  | recordInput t =>
    obtain rfl := Option.some.inj hnode
    refine ⟨fun h => absurd rfl h, fun _ => ⟨rfl, rfl⟩, fun _ => ⟨t, rfl, ?_⟩,
      fun _ k hk => (List.not_mem_nil hk).elim, fun h => ?_⟩
    · exact (denotes_leaf (view_eq_some.mpr ⟨_, hfind, rfl⟩)).mpr rfl
    · cases h
  | recordUnary o input outputShape dtype =>
    obtain rfl := Option.some.inj hnode
    refine ⟨fun _ => hev, fun h => absurd h (hop o ⟨1, hev⟩), fun h => ?_, fun h => ?_, fun h => ?_⟩
    · cases h
    · cases h
    · cases h
  | recordBinary o lhs rhs outputShape dtype =>
    obtain rfl := Option.some.inj hnode
    refine ⟨fun _ => hev, fun h => absurd h (hop o ⟨2, hev⟩), fun h => ?_, fun h => ?_, fun h => ?_⟩
    · cases h
    · cases h
    · cases h
  | _ => cases hnode

theorem EvalInv.record (hi : EvalInv K g) {op : GraphOp τ} (hnode : op.node K g = some n)
    (hen : op.Enabled g) (hev : Evaluable g op) : EvalInv K (recordNode g n) := by
  obtain ⟨-, hfresh⟩ := graphAfter_record K hnode
  have hg := hi.shape
  have hsame := foldl_addRef_sameShape n.inputs g
  have hfind : (recordNode g n).find n.id = some n := by
    unfold recordNode
    rw [find_addNode, if_pos rfl]
  refine ⟨hg.record hfresh.id hfresh.nonempty fun k hk => hen.1 k (hfresh.inputs ▸ hk), ?_, ?_⟩
  · intro m hm
    rcases mem_record hg.keys hfresh.id hm with rfl | ⟨m₀, hm₀, heq, -⟩
    · exact newNode hnode hev hfind
    · have hinv := hi.nodes m₀ hm₀
      have hpresent : (g.find m₀.id).isSome := by
        rw [hg.keys.find_of_mem hm₀]
        rfl
      rw [heq]
      refine ⟨hinv.supported, hinv.input, fun hs => ?_, fun hs k hk => ?_, fun hs v hv => ?_⟩
      · obtain ⟨v, hv, hcomp⟩ := hinv.result hs
        exact ⟨v, hv, (computes_record hg hfresh.id hpresent).mpr hcomp⟩
      · exact (hinv.inputs hs k hk).record hg.keys hfresh.id
      · exact hinv.stuck hs v ((computes_record hg hfresh.id hpresent).mp hv)
  · intro m hm hslot
    have hkeys := hg.keys.of_ids hsame.ids hsame.nextId
    unfold recordNode at hslot
    rw [hkeys.slots_addNode (hfresh.id.trans hsame.nextId.symm), hsame.slots, List.mem_append,
      not_or] at hslot
    rcases mem_record hg.keys hfresh.id hm with rfl | ⟨m₀, hm₀, -, hself⟩
    · exact hfresh.refCount
    · obtain rfl := hself hslot.1
      exact hi.unread m hm₀ hslot.2

/-- Evaluating keeps the invariant and the expressions. -/
theorem Evaluates.after {out : Outcome (LazyGraph τ) (Option τ)} (h : Evaluates K g id out) :
    EvalInv K out.2 ∧ out.2.view = g.view := by
  cases h with
  | returned _ _ hx => exact ⟨hx.inv, hx.view⟩
  | threw _ _ hinv _ hview => exact ⟨hinv, hview⟩

theorem EvaluatesAll.after {leaves : List LazyNodeId} {out : Outcome (LazyGraph τ) Unit}
    (h : EvaluatesAll K g leaves out) : EvalInv K out.2 ∧ out.2.view = g.view := by
  cases h with
  | returned hx _ => exact ⟨hx.inv, hx.view⟩
  | threw _ hinv hview => exact ⟨hinv, hview⟩

theorem EvalInv.rehash (hi : EvalInv K g) {order : List LazyNodeId}
    (h : order.Perm (g.nodes.map LazyNode.id)) : EvalInv K (g.rehash order) := by
  have hkeys := hi.shape.keys
  have hfind := find_rehash hkeys h
  refine ⟨hi.shape.rehash h, fun n hn => ?_, fun n hn hslot => ?_⟩
  · have hinv := hi.nodes n ((rehash_perm hkeys h).mem_iff.mp hn)
    refine ⟨hinv.supported, hinv.input, ?_, fun hs k hk => ?_, ?_⟩
    · unfold Computes
      rw [view_rehash hkeys h]
      exact hinv.result
    · unfold Done
      rw [hfind]
      exact hinv.inputs hs k hk
    · unfold Computes
      rw [view_rehash hkeys h]
      exact hinv.stuck
  · rw [(slots_rehash hkeys h).mem_iff] at hslot
    exact hi.unread n ((rehash_perm hkeys h).mem_iff.mp hn) hslot

/-- **Step.**  A call keeps the invariant, and what nodes denote. -/
theorem EvalInv.step (hi : EvalInv K g) {op : GraphOp τ} (hev : Evaluable g op)
    (h : graphStep K g op = some g') :
    EvalInv K g' ∧ ∀ k v, Computes K g k v → Computes K g' k v := by
  obtain ⟨hen, rfl⟩ := graphStep_eq h
  have hsame : ∀ g₁ : LazyGraph τ, g₁.view = g.view → ∀ k v, Computes K g k v →
      Computes K g₁ k v := by
    intro g₁ hview k v hv
    unfold Computes
    rwa [hview]
  cases hnode : op.node K g with
  | some n =>
    obtain ⟨hafter, hfresh⟩ := graphAfter_record K hnode
    rw [hafter]
    refine ⟨hi.record hnode hen hev, fun k v hv => ?_⟩
    exact Denotes.extend (fun j w => view_record_extends hi.shape.keys hfresh.id) hv
  | none =>
    cases op with
    | eval i =>
      show EvalInv K (g.eval K i).2 ∧ ∀ k v, Computes K g k v → Computes K (g.eval K i).2 k v
      by_cases hid : (g.find i).isSome = true
      · obtain ⟨hinv, hview⟩ := (eval_spec hi hid).after
        exact ⟨hinv, hsame _ hview⟩
      · rw [Option.not_isSome_iff_eq_none] at hid
        have hmissing : (g.eval K i).2 = g := by
          unfold eval
          simp [hid]
        rw [hmissing]
        exact ⟨hi, fun _ _ hv => hv⟩
    | evalAll =>
      obtain ⟨hinv, hview⟩ := (evalAll_invariant hi).after
      exact ⟨hinv, hsame _ hview⟩
    | rehash order => exact ⟨hi.rehash hen.2, hsame _ (view_rehash hi.shape.keys hen.2)⟩
    | recordInput t => cases hnode
    | recordUnary o input outputShape dtype => cases hnode
    | recordBinary o lhs rhs outputShape dtype => cases hnode
    | markOutput i => cases hev
    | unmarkOutput i => cases hev
    | optimizeFusions => cases hev
    | eliminateDeadCode => cases hev

/-- **Run.**  Calls keep the invariant, and what nodes denote. -/
theorem EvalInv.run (hi : EvalInv K g) (hrun : Runs (graphStep K) Evaluable g g') :
    EvalInv K g' ∧ ∀ k v, Computes K g k v → Computes K g' k v := by
  refine hrun.invariant (P := fun u => EvalInv K u ∧ ∀ k v, Computes K g k v → Computes K u k v)
    ⟨hi, fun _ _ hv => hv⟩ ?_
  rintro u op w ⟨hu, hkeep⟩ hev hs
  obtain ⟨hw, hstep⟩ := hu.step hev hs
  exact ⟨hw, fun k v hv => hstep k v (hkeep k v hv)⟩

/-- What `eval` does on a node `id` that denotes `v`: it returns `v`, executes the nodes `l` and
    changes nothing else. -/
structure EvalReturns (K : Kernels τ) (g : LazyGraph τ) (id : LazyNodeId) (v : τ)
    (l : List LazyNodeId) (g' : LazyGraph τ) : Prop where
  returns : g.eval K id = (.ok (some v), g')
  order : OrderFor g id l
  executed : g'.executed = g.executed ++ l
  results : ∀ k ∈ l, ∃ n w, g'.find k = some n ∧ n.status = .Materialized ∧ n.result = some w ∧
    Computes K g k w
  frame : ∀ k ∉ l, g'.find k = g.find k

theorem EvalInv.returns (hi : EvalInv K g) (hv : Computes K g id v) :
    ∃ l g', EvalReturns K g id v l g' := by
  have hid : (g.find id).isSome := by
    rw [← view_isSome]
    exact hv.view_isSome
  have hspec := eval_spec hi hid
  generalize hout : g.eval K id = out at hspec
  cases hspec with
  | threw hpath hthrow hinv hrecords hview =>
    obtain ⟨w, hw⟩ := hv.ancestor hpath hi.op_of_inputs
    exact absurd hw hthrow.not_computes
  | @returned l g' v' horder hv' hx =>
    obtain rfl := hv.unique hv'
    refine ⟨l, g', hout, horder, hx.log, fun k hk => ?_, hx.frame⟩
    obtain ⟨n, hn, hs⟩ := hx.done k hk
    obtain ⟨w, hw, hcomp⟩ := (hx.inv.at hn).result hs
    unfold Computes at hcomp
    rw [hx.view, find_id hn] at hcomp
    exact ⟨n, w, hn, hs, hw, hcomp⟩

/-- `eval` is the recursive denotation, and `eval_all` reaches every node. -/
structure EvalDenotes (K : Kernels τ) (g : LazyGraph τ) : Prop where
  /-- A node denotes a tensor unless a kernel throws on what it needs. -/
  total : ∀ id, (g.find id).isSome → (∃ v, Computes K g id v) ∨
    ∃ i e, Relation.ReflTransGen (Reads g) id i ∧ KernelThrows K g i e
  returns : ∀ id v, Computes K g id v → ∃ l g', EvalReturns K g id v l g'
  /-- No call in between changes what `eval` returns. -/
  stable : ∀ id v, Computes K g id v → ∀ g', Runs (graphStep K) Evaluable g g' →
    ∃ g'', g'.eval K id = (.ok (some v), g'')
  all : (∀ n ∈ g.nodes, ∃ v, Computes K g n.id v) →
    ∃ g', g.evalAll K = (.ok (), g') ∧ ∀ n ∈ g'.nodes, n.status = .Materialized

/-- Two inputs, a shared sum, and nodes that are recorded after a part has been evaluated. -/
def sharedSumCalls : List (GraphOp ℤ) :=
  [.recordInput 2, .recordInput 3, .recordBinary .Add 1 2 [1] .Int64,
    .recordBinary .Mul 3 3 [1] .Int64, .eval 3, .rehash [2, 4, 1, 3],
    .recordUnary .Neg 4 [1] .Int64, .recordBinary .Sub 5 3 [1] .Int64]

end MetalNative
