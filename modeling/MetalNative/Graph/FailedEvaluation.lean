import MetalNative.Graph.DeadCode
import MetalNative.Graph.Evaluation

namespace MetalNative

open LazyGraph LazyNode List Option

/-!
# Evaluation that fails

`eval` and `eval_all` mark a node as scheduled before they execute it.  When `execute_node` throws
or returns `nullptr`, the mark stays.

* `Obtained` — a node got its result during a call; `Retryable` — every other node is as it was, and
  the passes that read statuses see it as before.
* `Attempts K g l g'` — what executing the nodes `l` does, whatever the kernels answer.
* `evaluation_retryable` — a call leaves the graph retryable exactly when every node at which it
  failed had been left scheduled before.
-/

variable {τ : Type} {K : Kernels τ} {g g' g'' : LazyGraph τ} {n : LazyNode τ} {k id : LazyNodeId}
  {t : τ} {l l' : List LazyNodeId}

/-! ### What is wanted -/

namespace LazyGraph

/-- `pending_count`. -/
def pendingCount (g : LazyGraph τ) : ℕ := (g.nodes.filter fun n => n.status = .Pending).length

/-- The leaves that `eval_all` starts from. -/
def leafIds (g : LazyGraph τ) : List LazyNodeId :=
  (g.nodes.filter fun n => n.status = .Pending ∧ n.refCount = 0).map LazyNode.id

end LazyGraph

/-- The node got its result. -/
def Obtained (K : Kernels τ) (g g' : LazyGraph τ) (k : LazyNodeId) : Prop :=
  ∃ n t, g.find k = some n ∧ n.status ≠ .Materialized ∧ g'.find k = some (n.finished t) ∧
    execNode K g' n.scheduled = .ok (some t)

/-- How many pending nodes got their results. -/
noncomputable def obtainedCount (K : Kernels τ) (g g' : LazyGraph τ) : ℕ :=
  open Classical in
    ((g.nodes.filter fun n => n.status = .Pending).filter fun n => Obtained K g g' n.id).length

/-- After a call every node has its result or is as it was, and the passes that look for pending
    nodes treat it so. -/
structure Retryable (K : Kernels τ) (g g' : LazyGraph τ) : Prop where
  nodes : ∀ k, g'.find k = g.find k ∨ Obtained K g g' k
  retried : ∀ k, ¬ Obtained K g g' k → (Done g' k ↔ Done g k)
  fused : ∀ k, ¬ Obtained K g g' k → ∀ op, (k, op) ∈ g'.pendingOps ↔ (k, op) ∈ g.pendingOps
  eliminated : ∀ k, ¬ Obtained K g g' k → (k ∈ g'.deadIds ↔ k ∈ g.deadIds)
  leaves : ∀ k, ¬ Obtained K g g' k → (k ∈ g'.leafIds ↔ k ∈ g.leafIds)
  counted : g'.pendingCount + obtainedCount K g g' = g.pendingCount

/-! ### Executing some nodes -/

/-- What executing the nodes `l` in turn does.  A node that is executed has its result or is
    scheduled, and the other nodes are as they were. -/
structure Attempts (K : Kernels τ) (g : LazyGraph τ) (l : List LazyNodeId) (g' : LazyGraph τ) :
    Prop where
  log : g'.executed = g.executed ++ l
  ids : g'.nodes.map LazyNode.id = g.nodes.map LazyNode.id
  frame : ∀ k ∉ l, g'.find k = g.find k
  outcome : ∀ k ∈ l, ∃ n, g.find k = some n ∧ n.status ≠ .Materialized ∧
    (g'.find k = some n.scheduled ∨
      ∃ t, g'.find k = some (n.finished t) ∧ execNode K g' n.scheduled = .ok (some t))
  keeps : ∀ k t, g.materializedResult k = some t → g'.materializedResult k = some t

theorem Attempts.refl (g : LazyGraph τ) : Attempts K g [] g where
  log := (append_nil _).symm
  ids := rfl
  frame _ _ := rfl
  outcome _ hk := (not_mem_nil hk).elim
  keeps _ _ ht := ht

/-- A node that could be executed gives the same result when more nodes are materialized. -/
theorem execNode_mono (hkeeps : ∀ k t, g.materializedResult k = some t →
    g'.materializedResult k = some t) (h : execNode K g n = .ok (some t)) :
    execNode K g' n = .ok (some t) := by
  have hgather : ∀ (l : List LazyNodeId) (ts : List τ), l.mapM g.materializedResult = some ts →
      l.mapM g'.materializedResult = some ts := by
    intro l ts hts
    rw [ Denotation.mapM_eq_some_iff] at hts ⊢
    exact hts.imp fun k t => hkeeps k t
  unfold execNode at h ⊢
  split_ifs at h ⊢ with hop
  · exact h
  · cases hts : n.inputs.mapM g.materializedResult with
    | none =>
      simp only [hts] at h
      cases h
    | some ts =>
      simp only [hts] at h
      simp only [hgather _ _ hts]
      exact h

theorem Attempts.trans (h : Attempts K g l g') (h' : Attempts K g' l' g'') :
    Attempts K g (l ++ l') g'' where
  log := by rw [h'.log, h.log, append_assoc]
  ids := h'.ids.trans h.ids
  frame := by
    intro k hk
    rw [mem_append, not_or] at hk
    rw [h'.frame k hk.2, h.frame k hk.1]
  outcome := by
    intro k hk
    by_cases hlater : k ∈ l'
    · obtain ⟨n', hn', hopen, hout⟩ := h'.outcome k hlater
      by_cases hearlier : k ∈ l
      · -- executed before, and without a result
        obtain ⟨n, hn, hopen₀, hfirst | ⟨t, hfirst, -⟩⟩ := h.outcome k hearlier
        · obtain rfl : n.scheduled = n' := some.inj (hfirst.symm.trans hn')
          exact ⟨n, hn, hopen₀, hout⟩
        · obtain rfl : n.finished t = n' := some.inj (hfirst.symm.trans hn')
          exact absurd rfl hopen
      · -- executed by the second call only
        rw [h.frame k hearlier] at hn'
        exact ⟨n', hn', hopen, hout⟩
    · -- executed by the first call only: what it computed from is still there
      obtain ⟨n, hn, hopen, hout⟩ := h.outcome k ((mem_append.mp hk).resolve_right hlater)
      refine ⟨n, hn, hopen, ?_⟩
      rw [h'.frame k hlater]
      rcases hout with hout | ⟨t, hout, hexec⟩
      · exact .inl hout
      · exact .inr ⟨t, hout, execNode_mono h'.keeps hexec⟩
  keeps k t ht := h'.keeps k t (h.keeps k t ht)

section One

variable (hn : g.find k = some n) (hopen : n.status ≠ .Materialized)

include hn hopen

/-- Scheduling hides no result. -/
theorem materializedResult_schedule {j : LazyNodeId} (hj : g.materializedResult j = some t) :
    (g.schedule k).materializedResult j = some t := by
  have hne : j ≠ k := by
    rintro rfl
    unfold materializedResult at hj
    simp [hn, hopen] at hj
  unfold materializedResult at hj ⊢
  rwa [find_schedule, if_neg hne]

/-- A node whose execution fails. -/
theorem Attempts.failed : Attempts K g [k] (g.schedule k) where
  log := rfl
  ids := map_modify LazyNode.id (f := LazyNode.scheduled) (fun _ => rfl) g k
  frame := by
    intro j hj
    rw [find_schedule, if_neg (by simpa using hj)]
  outcome := by
    intro j hj
    obtain rfl := mem_singleton.mp hj
    refine ⟨n, hn, hopen, .inl ?_⟩
    rw [find_schedule, if_pos rfl, hn, map_some]
  keeps j t hj := materializedResult_schedule hn hopen hj

omit hopen in
/-- Storing a result hides no other. -/
theorem materializedResult_materialize {j : LazyNodeId} {u : τ}
    (hj : (g.schedule k).materializedResult j = some u) :
    ((g.schedule k).materialize k t).materializedResult j = some u := by
  have hne : j ≠ k := by
    rintro rfl
    unfold materializedResult at hj
    simp [find_schedule, hn, scheduled] at hj
  unfold materializedResult at hj ⊢
  rwa [find_materialize, if_neg hne]

/-- A node whose execution gives a result. -/
theorem Attempts.succeeded (hexec : execNode K (g.schedule k) n.scheduled = .ok (some t)) :
    Attempts K g [k] ((g.schedule k).materialize k t) where
  log := rfl
  ids := by
    have hfirst := map_modify LazyNode.id (f := LazyNode.scheduled) (fun _ => rfl) g k
    have hsecond := map_modify LazyNode.id (f := fun n => n.finished t) (fun _ => rfl)
      (g.schedule k) k
    exact hsecond.trans hfirst
  frame := by
    intro j hj
    rw [find_executed hn, if_neg (by simpa using hj)]
  outcome := by
    intro j hj
    obtain rfl := mem_singleton.mp hj
    refine ⟨n, hn, hopen, .inr ⟨t, ?_, ?_⟩⟩
    · rw [find_executed hn, if_pos rfl]
    · exact execNode_mono (fun i u hi => materializedResult_materialize hn hi) hexec
  keeps j u hj :=
    materializedResult_materialize hn (materializedResult_schedule hn hopen hj)

end One

/-- **The loops over an order** execute some of its nodes. -/
theorem execOrder_attempts (K : Kernels τ) (onNull : OpType → Option MNException) :
    ∀ (order : List LazyNodeId) (g : LazyGraph τ),
      ∃ l, Attempts K g l (execOrder K onNull order g).2 := by
  intro order
  induction order with
  | nil => exact fun g => ⟨[], .refl g⟩
  | cons k rest ih =>
    intro g
    rw [execOrder]
    cases hn : g.find k with
    | none => exact ih g
    | some n =>
      by_cases hdone : n.status = .Materialized
      · simp only [if_pos hdone]
        exact ih g
      · simp only [if_neg hdone]
        cases hexec : execNode K (g.schedule k) { n with status := .Scheduled } with
        | error e =>
          -- the exception ends the loops, and the node stays scheduled
          exact ⟨[k], .failed hn hdone⟩
        | ok r =>
          cases r with
          | some t =>
            obtain ⟨l, hl⟩ := ih ((g.schedule k).materialize k t)
            exact ⟨[k] ++ l, (Attempts.succeeded hn hdone hexec).trans hl⟩
          | none =>
            cases honNull : onNull n.opType with
            | some e =>
              exact ⟨[k], .failed hn hdone⟩
            | none =>
              -- `eval_all` goes on after a `nullptr`
              obtain ⟨l, hl⟩ := ih (g.schedule k)
              exact ⟨[k] ++ l, (Attempts.failed hn hdone).trans hl⟩

/-! ### Calls -/

/-- A call that evaluates. -/
inductive EvalCall where
  | eval (id : LazyNodeId)
  | evalAll

/-- The graph that a call leaves, whether it returns or throws. -/
def EvalCall.after (K : Kernels τ) (g : LazyGraph τ) : EvalCall → LazyGraph τ
  | .eval id => (g.eval K id).2
  | .evalAll => (g.evalAll K).2

theorem eval_attempts (K : Kernels τ) (g : LazyGraph τ) (id : LazyNodeId) :
    ∃ l, Attempts K g l (g.eval K id).2 := by
  unfold eval
  cases hn : g.find id with
  | none => exact ⟨[], .refl g⟩
  | some n =>
    dsimp only
    split_ifs
    · exact ⟨[], .refl g⟩
    · exact ⟨[], .refl g⟩
    · obtain ⟨l, hl⟩ := execOrder_attempts K execFailure (g.topologicalSort id) g
      refine ⟨l, ?_⟩
      rcases hexec : execOrder K execFailure (g.topologicalSort id) g with ⟨e | u, g₁⟩
      · rw [hexec] at hl
        exact hl
      · rw [hexec] at hl
        dsimp only
        cases g₁.find id with
        | none => exact hl
        | some m =>
          dsimp only
          split_ifs
          · exact hl
          · exact hl

theorem evalAll_attempts (K : Kernels τ) (g : LazyGraph τ) :
    ∃ l, Attempts K g l (g.evalAll K).2 := by
  have hleaves : ∀ (leaves : List LazyNodeId) (g : LazyGraph τ),
      ∃ l, Attempts K g l (evalLeaves K leaves g).2 := by
    intro leaves
    induction leaves with
    | nil => exact fun g => ⟨[], .refl g⟩
    | cons leaf rest ih =>
      intro g
      obtain ⟨l, hl⟩ := execOrder_attempts K (fun _ => none) (g.topologicalSort leaf) g
      unfold evalLeaves
      rcases hexec : execOrder K (fun _ => none) (g.topologicalSort leaf) g with ⟨e | u, g₁⟩
      · rw [hexec] at hl
        exact ⟨l, hl⟩
      · rw [hexec] at hl
        obtain ⟨l', hl'⟩ := ih g₁
        exact ⟨l ++ l', hl.trans hl'⟩
  exact hleaves _ g

/-- **Every call** executes some nodes. -/
theorem EvalCall.attempts (K : Kernels τ) (g : LazyGraph τ) (call : EvalCall) :
    ∃ l, Attempts K g l (call.after K g) := by
  cases call with
  | eval id => exact eval_attempts K g id
  | evalAll => exact evalAll_attempts K g

/-- `execute_node` was called on the node, and gave it no result. -/
def FailedAt (g g' : LazyGraph τ) (k : LazyNodeId) : Prop :=
  k ∈ g'.executed.drop g.executed.length ∧ ¬ Done g' k

/-- The node had been left scheduled. -/
def LeftScheduled (g : LazyGraph τ) (k : LazyNodeId) : Prop :=
  ∃ n, g.find k = some n ∧ n.status = .Scheduled

/-! ### What the passes read -/

section Passes

variable (hd : Keyed.Distinct LazyNode.id g.nodes)

include hd

theorem pendingOps_iff_find {op : OpType} : (k, op) ∈ g.pendingOps ↔
    ∃ n, g.find k = some n ∧ n.status = .Pending ∧ n.opType = op := by
  rw [mem_pendingOps]
  constructor
  · rintro ⟨n, hn, hs, hid, hop⟩
    exact ⟨n, hd.find_eq_some.mpr ⟨hn, hid⟩, hs, hop⟩
  · rintro ⟨n, hn, hs, hop⟩
    exact ⟨n, find_mem hn, hs, find_id hn, hop⟩

/-- The ids of the nodes that meet a test. -/
theorem mem_filter_ids {q : LazyNode τ → Bool} : k ∈ (g.nodes.filter q).map LazyNode.id ↔
    ∃ n, g.find k = some n ∧ q n = true := by
  rw [List.mem_map]
  constructor
  · rintro ⟨n, hn, rfl⟩
    obtain ⟨hn, hq⟩ := mem_filter.mp hn
    exact ⟨n, hd.find_eq_some.mpr ⟨hn, rfl⟩, hq⟩
  · rintro ⟨n, hn, hq⟩
    exact ⟨n, mem_filter.mpr ⟨find_mem hn, hq⟩, find_id hn⟩

variable (hd' : Keyed.Distinct LazyNode.id g'.nodes)
  (hnodes : ∀ k, g'.find k = g.find k ∨ Obtained K g g' k)

include hd' hnodes

/-- The nodes that were pending are pending, or got their results. -/
theorem pendingCount_obtained :
    g'.pendingCount + obtainedCount K g g' = g.pendingCount := by
  classical
  -- what is pending now was pending before, and has got no result
  have hpending : (g'.nodes.filter fun n => n.status = .Pending).map LazyNode.id
      |>.Perm ((g.nodes.filter fun n => n.status = .Pending ∧ ¬ Obtained K g g' n.id).map
        LazyNode.id) := by
    refine (perm_ext_iff_of_nodup (hd'.sublist (filter_sublist.map _))
      (hd.sublist (filter_sublist.map _))).mpr ?_
    intro k
    rw [mem_filter_ids hd', mem_filter_ids hd]
    constructor
    · rintro ⟨n, hn, hs⟩
      have hnot : ¬ Obtained K g g' k := by
        rintro ⟨m, t, -, -, hm, -⟩
        obtain rfl := some.inj (hn.symm.trans hm)
        simp [finished] at hs
      have hsame := (hnodes k).resolve_right hnot
      rw [hsame] at hn
      refine ⟨n, hn, ?_⟩
      rw [find_id hn]
      simpa [hnot] using hs
    · rintro ⟨n, hn, hs⟩
      rw [decide_eq_true_eq, find_id hn] at hs
      have hsame := (hnodes k).resolve_right hs.2
      exact ⟨n, hsame.trans hn, decide_eq_true hs.1⟩
  have hlen := hpending.length_eq
  rw [length_map, length_map] at hlen
  -- of what was pending before, some have got a result
  have hsplit := (filter_append_perm (fun n : LazyNode τ => decide (Obtained K g g' n.id))
    (g.nodes.filter fun n => n.status = .Pending)).length_eq
  rw [length_append] at hsplit
  have hrest : ((g.nodes.filter fun n => n.status = .Pending).filter fun n =>
      !decide (Obtained K g g' n.id)) = g.nodes.filter fun n =>
        n.status = .Pending ∧ ¬ Obtained K g g' n.id := by
    rw [List.filter_filter]
    apply filter_congr
    intro n _
    rw [Bool.decide_and, decide_not, Bool.and_comm]
  rw [hrest] at hsplit
  unfold pendingCount obtainedCount
  omega

/-- Nodes that are as they were are treated as before. -/
theorem Retryable.of_nodes : Retryable K g g' := by
  have hsame : ∀ k, ¬ Obtained K g g' k → g'.find k = g.find k :=
    fun k hk => (hnodes k).resolve_right hk
  refine ⟨hnodes, ?_, ?_, ?_, ?_, pendingCount_obtained hd hd' hnodes⟩
  · intro k hk
    unfold Done
    rw [hsame k hk]
  · intro k hk op
    rw [pendingOps_iff_find hd', pendingOps_iff_find hd, hsame k hk]
  · intro k hk
    unfold deadIds
    rw [mem_filter_ids hd', mem_filter_ids hd, hsame k hk]
  · intro k hk
    unfold leafIds
    rw [mem_filter_ids hd', mem_filter_ids hd, hsame k hk]

end Passes

/-- A node that is scheduled stays as it is when it is scheduled again. -/
theorem LazyNode.scheduled_self (h : n.status = .Scheduled) : n.scheduled = n := by
  unfold scheduled
  rw [← h]

/-- **A call that evaluates** leaves the graph retryable exactly when every node at which it failed
    had been left scheduled before. -/
theorem evaluation_retryable (K : Kernels τ) (hd : Keyed.Distinct LazyNode.id g.nodes)
    (call : EvalCall) : Retryable K g (call.after K g) ↔
      ∀ k, FailedAt g (call.after K g) k → LeftScheduled g k := by
  obtain ⟨l, hl⟩ := call.attempts K g
  generalize call.after K g = g' at hl
  have hd' : Keyed.Distinct LazyNode.id g'.nodes := by
    unfold Keyed.Distinct
    rw [hl.ids]
    exact hd
  have hlog : g'.executed.drop g.executed.length = l := by rw [hl.log, drop_left]
  constructor
  · -- a failed node is scheduled now; it is as it was, so it was scheduled before
    intro h k hfailed
    obtain ⟨hk, hopen⟩ := hfailed
    rw [hlog] at hk
    obtain ⟨n, hn, -, hout | ⟨t, hout, -⟩⟩ := hl.outcome k hk
    · rcases h.nodes k with hsame | ⟨m, t, -, -, hm, -⟩
      · exact ⟨n.scheduled, hsame.symm.trans hout, rfl⟩
      · exact absurd ⟨m.finished t, hm, rfl⟩ hopen
    · exact absurd ⟨n.finished t, hout, rfl⟩ hopen
  · intro h
    apply Retryable.of_nodes hd hd'
    intro k
    by_cases hk : k ∈ l
    · obtain ⟨n, hn, hopen, hout | ⟨t, hout, hexec⟩⟩ := hl.outcome k hk
      · -- scheduling it again has changed nothing
        left
        have hfailed : FailedAt g g' k := by
          refine ⟨hlog ▸ hk, ?_⟩
          rintro ⟨m, hm, hs⟩
          obtain rfl := some.inj (hout.symm.trans hm)
          cases hs
        obtain ⟨m, hm, hs⟩ := h k hfailed
        obtain rfl : n = m := some.inj (hn.symm.trans hm)
        rw [hout, hn, scheduled_self hs]
      · exact .inr ⟨n, t, hn, hopen, hout, hexec⟩
    · exact .inl (hl.frame k hk)

/-- An activation that no kernel is called for. -/
def siluCalls : List (GraphOp ℤ) := [.recordInput 3, .recordUnary .SiLU 1 [1] .Int64]

/-- Evaluating the activation again fails again, and changes nothing. -/
theorem evaluation_retryable_again :
    ∃ g, Run.exec (graphStep scalarKernels) {} (siluCalls ++ [.eval 2]) = some g ∧
      ((EvalCall.eval 2).after scalarKernels g).executed = [2, 2] ∧
      Retryable scalarKernels g ((EvalCall.eval 2).after scalarKernels g) := by
  have hsome : (Run.exec (graphStep scalarKernels) {} (siluCalls ++ [.eval 2])).isSome = true := by
    decide
  obtain ⟨g, hg⟩ := isSome_iff_exists.mp hsome
  have hafter : (Run.exec (graphStep scalarKernels) {} (siluCalls ++ [.eval 2])).map
      (fun g => (g.nodes.map LazyNode.id, g.executed, (g.find 2).map LazyNode.status,
        ((EvalCall.eval 2).after scalarKernels g).executed))
        = some ([2, 1], [2], some .Scheduled, [2, 2]) := by decide
  rw [hg, map_some, some.injEq, Prod.mk.injEq, Prod.mk.injEq,
    Prod.mk.injEq] at hafter
  obtain ⟨hids, hbefore, hstatus, hlog⟩ := hafter
  have hd : Keyed.Distinct LazyNode.id g.nodes := by
    unfold Keyed.Distinct
    rw [hids]
    decide
  refine ⟨g, hg, hlog, (evaluation_retryable scalarKernels hd (.eval 2)).mpr ?_⟩
  rintro k ⟨hk, -⟩
  rw [hlog, hbefore] at hk
  obtain rfl : k = 2 := by simpa using hk
  exact map_eq_some_iff.mp hstatus

/-- A node whose evaluation has failed is not pending any more. -/
theorem failed_node_not_pending :
    ∃ g, Run.exec (graphStep scalarKernels) {} siluCalls = some g ∧
      (g.eval scalarKernels 2).1.toOption = none ∧ g.pendingCount = 1 ∧
      (g.eval scalarKernels 2).2.pendingCount = 0 ∧
      ¬ Retryable scalarKernels g ((EvalCall.eval 2).after scalarKernels g) := by
  have hsome : (Run.exec (graphStep scalarKernels) {} siluCalls).isSome = true := by decide
  obtain ⟨g, hg⟩ := isSome_iff_exists.mp hsome
  have hafter : (Run.exec (graphStep scalarKernels) {} siluCalls).map
      (fun g => ((g.eval scalarKernels 2).1.toOption, g.pendingCount,
        (g.eval scalarKernels 2).2.pendingCount, (g.find 2).map status,
        ((EvalCall.eval 2).after scalarKernels g |>.find 2).map status))
        = some (none, 1, 0, some .Pending, some .Scheduled) := by decide
  rw [hg, map_some, some.injEq, Prod.mk.injEq, Prod.mk.injEq, Prod.mk.injEq,
    Prod.mk.injEq] at hafter
  obtain ⟨hthrows, hbefore, hcount, hpending, hscheduled⟩ := hafter
  refine ⟨g, hg, hthrows, hbefore, hcount, ?_⟩
  intro h
  rcases h.nodes 2 with hsame | ⟨n, t, -, -, hn, -⟩
  · rw [hsame, hpending] at hscheduled
    cases hscheduled
  · rw [hn] at hscheduled
    cases hscheduled

end MetalNative
