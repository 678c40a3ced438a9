import MetalNative.Graph.DeadCode

namespace MetalNative

open LazyGraph Denotation Run FusionPair Option List

/-!
# When `optimize_fusions` preserves meaning

* `Lawful`, `SameMeaning` — interpretations of the operations, and nodes that no lawful
  interpretation tells apart.
* `SameExpr` — nodes that unfold to the same term once the fused operations are expanded;
  `sameMeaning_iff` says that this is the same.
* `FusionSafe` — the pairs that a pass rewrites are not marked, not read from outside, and compute
  the pattern.
* `fusion_preserves_meaning` — the pass preserves meaning exactly on these graphs.
* `outputs_keep_meaning` — outputs keep theirs through whole runs with passes in between.
-/

variable {τ : Type} {g g' : LazyGraph τ} {pairs : List FusionPair} {pr : FusionPair}
  {n : LazyNode τ} {k : LazyNodeId}

/-! ### Meaning -/

/-- The laws that tie the fused operations to the ones they replace. -/
structure Lawful {β : Type} (I : Operator → List β → β) : Prop where
  residualNorm : ∀ params x r w, I (.FusedResidualRMSNorm, params) [x, r, w]
    = I (.RMSNorm, params) [I (.Add, []) [x, r], w]
  swiGLU : ∀ gate up, I (.SwiGLU, []) [gate, up] = I (.Mul, []) [I (.SiLU, []) [gate], up]

/-- Node `a` of `g` and node `b` of `g'` denote the same under every lawful interpretation. -/
def SameMeaning (g : LazyGraph τ) (a : LazyNodeId) (g' : LazyGraph τ) (b : LazyNodeId) : Prop :=
  ∀ (β : Type) (val : τ → β) (I : Operator → List β → β), Lawful I →
    ∃ v, Denotes g.view val (fun op vs => some (I op vs)) a v ∧
      Denotes g'.view val (fun op vs => some (I op vs)) b v

/-- An operation on terms, with the fused operations expanded. -/
def expand (op : Operator) (ts : List (Term τ Operator)) : Term τ Operator :=
  match op, ts with
  | (.FusedResidualRMSNorm, params), [x, r, w] =>
    .app (.RMSNorm, params) [.app (.Add, []) [x, r], w]
  | (.SwiGLU, []), [gate, up] => .app (.Mul, []) [.app (.SiLU, []) [gate], up]
  | op, ts => .app op ts

/-- Node `k` unfolds to `t`. -/
abbrev Expr (g : LazyGraph τ) (k : LazyNodeId) (t : Term τ Operator) : Prop :=
  Unfolds g.view expand k t

/-- Two nodes unfold to the same term. -/
def SameExpr (g : LazyGraph τ) (a b : LazyNodeId) : Prop := ∃ t, Expr g a t ∧ Expr g b t

theorem expand_plain (op : Operator) {ts : List (Term τ Operator)} (h : op.1.isFused = false) :
    expand op ts = .app op ts := by
  unfold expand
  split
  · cases h
  · cases h
  · rfl

/-- Terms satisfy the laws. -/
theorem lawful_expand : Lawful (expand (τ := τ)) := by
  refine ⟨fun params x r w => ?_, fun gate up => ?_⟩
  · rw [expand_plain (.RMSNorm, params) rfl, expand_plain (.Add, []) rfl, expand]
  · rw [expand_plain (.Mul, []) rfl, expand_plain (.SiLU, []) rfl, expand]

/-- Expanding does not change the value. -/
theorem eval_expand {β : Type} {val : τ → β} {I : Operator → List β → β} (hI : Lawful I)
    (op : Operator) (ts : List (Term τ Operator)) :
    (expand op ts).eval val I = I op (ts.map (Term.eval val I)) := by
  unfold expand
  split
  · simp [Term.eval, hI.residualNorm]
  · simp [Term.eval, hI.swiGLU]
  · simp [Term.eval]

/-- **Meaning is the term.**  No lawful interpretation tells two nodes apart exactly when they
    unfold to the same term. -/
theorem sameMeaning_iff {a b : LazyNodeId} :
    SameMeaning g a g' b ↔ ∃ t, Expr g a t ∧ Expr g' b t := by
  constructor
  · exact fun h => h _ Term.leaf expand lawful_expand
  · rintro ⟨t, ha, hb⟩ β val I hI
    exact ⟨t.eval val I, ha.eval (eval_expand hI), hb.eval (eval_expand hI)⟩

theorem GraphShape.exists_expr (hg : GraphShape g) (hk : (g.find k).isSome) :
    ∃ t, Expr g k t := by
  obtain ⟨rank, hr⟩ := hg.ranked
  refine Denotes.of_ranked rank (fun i op args hview => hg.view_closed hr hview) ?_ ?_
  · exact fun i op args ts _ _ => ⟨_, rfl⟩
  · rwa [view_isSome]

/-! ### The property and its condition -/

/-- The node whose tensor a node of the rewritten graph stands for. -/
def origin (g : LazyGraph τ) (k : LazyNodeId) : LazyNodeId :=
  (((fusionPairs g).find? fun pr => pr.fused = k).map FusionPair.second).getD k

/-- The pass preserves meaning: marked nodes resolve, mean the same and stay protected, and so
    mean the nodes that remain and the nodes that are referred to. -/
structure MeaningPreserved (g : LazyGraph τ) : Prop where
  outputs : ∀ n ∈ g.nodes, n.isOutput = true →
    (∃ n', g.optimizeFusions.1.find n.id = some n' ∧ n'.isOutput = true) ∧
      (g.optimizeFusions.1.eliminateDeadCode.1.find n.id).isSome ∧
      SameMeaning g n.id g.optimizeFusions.1 n.id
  remaining : ∀ k, (g.find k).isSome → (g.optimizeFusions.1.find k).isSome →
    SameMeaning g k g.optimizeFusions.1 k
  referenced : ∀ n ∈ g.optimizeFusions.1.nodes, ∀ k ∈ n.inputs,
    (g.optimizeFusions.1.find k).isSome ∧ SameMeaning g (origin g k) g.optimizeFusions.1 k

/-- The nodes of a pair compute its pattern. -/
def FusesRight (g : LazyGraph τ) (pr : FusionPair) : Prop :=
  match pr.kind with
  | .residualNorm => ∃ x r a w, (pr.firstNode g).inputs = [x, r] ∧
      (pr.secondNode g).inputs = [a, w] ∧ SameExpr g a pr.first
  | .swiGLU => ∃ x a b, (pr.firstNode g).inputs = [x] ∧ (pr.secondNode g).inputs = [a, b] ∧
      (a = pr.first ↔ b ≠ pr.first) ∧ SameExpr g a pr.first

/-- The condition on `optimize_fusions`. -/
structure FusionSafe (g : LazyGraph τ) : Prop where
  unmarked : ∀ pr ∈ fusionPairs g,
    (pr.firstNode g).isOutput = false ∧ (pr.secondNode g).isOutput = false
  unread : ∀ pr ∈ fusionPairs g,
    g.slots.count pr.first = (droppedSlots g (fusionPairs g)).count pr.first
  right : ∀ pr ∈ fusionPairs g,
    g.slots.count pr.second ≠ (droppedSlots g (fusionPairs g)).count pr.second → FusesRight g pr

/-! ### Views -/

theorem view_renameInputs {op : Operator} {args : List LazyNodeId} (h : n.view = .app op args) :
    (renameInputs pairs n).view = .app op (args.map (renamed pairs)) := by
  obtain rfl := inputs_of_view h
  unfold LazyNode.view at h ⊢
  split at h
  · cases h
  · rename_i hnot
    obtain ⟨rfl, -⟩ := View.app.inj h
    split
    · rename_i t hop hres
      exact absurd hres (hnot t hop)
    · rfl

theorem view_renameInputs_leaf {t : τ} (h : n.view = .leaf t) :
    (renameInputs pairs n).view = .leaf t := by
  unfold LazyNode.view at h ⊢
  split at h
  · rename_i t' hop hres
    rw [← View.leaf.inj h]
    split
    · rename_i u hop' hres'
      exact congrArg View.leaf (some.inj (hres'.symm.trans hres))
    · rename_i hnot
      exact absurd hres (hnot t' hop)
  · cases h

/-- A fused node is an operation on the inputs that the fusion keeps. -/
theorem view_fused (pr : FusionPair) (g : LazyGraph τ)
    (hsecond : (pr.secondNode g).scalarParams = []) :
    (pr.node g).view = .app (pr.kind.fusedOp, []) (pr.node g).inputs := by
  have hop : (pr.node g).opType = pr.kind.fusedOp := by
    unfold node build
    cases pr.kind <;> rfl
  have hparams : (pr.node g).scalarParams = [] := by
    unfold node build
    cases pr.kind with
    | residualNorm => exact hsecond
    | swiGLU => rfl
  have hplain : (pr.node g).opType ≠ .Unknown := by
    rw [hop]
    cases pr.kind <;> decide
  rw [view_of_op hplain, hop, hparams]

/-- The nodes of a pair are operations on their inputs. -/
theorem FusionPair.Fits.view_first (h : pr.Fits g) (hparams : (pr.firstNode g).scalarParams = []) :
    g.view pr.first = some (.app (pr.kind.firstOp, []) (pr.firstNode g).inputs) := by
  refine view_eq_some.mpr ⟨_, h.first_mem, ?_⟩
  have hplain : (pr.firstNode g).opType ≠ .Unknown := by
    rw [h.firstOp]
    cases pr.kind <;> decide
  rw [view_of_op hplain, h.firstOp, hparams]

theorem FusionPair.Fits.view_second (h : pr.Fits g)
    (hparams : (pr.secondNode g).scalarParams = []) :
    g.view pr.second = some (.app (pr.kind.secondOp, []) (pr.secondNode g).inputs) := by
  refine view_eq_some.mpr ⟨_, h.second_mem, ?_⟩
  have hplain : (pr.secondNode g).opType ≠ .Unknown := by
    rw [h.secondOp]
    cases pr.kind <;> decide
  rw [view_of_op hplain, h.secondOp, hparams]

variable {t : Term τ Operator}

/-- The term of an operation. -/
theorem expr_app {op : Operator} {args : List LazyNodeId}
    (h : g.view k = some (.app op args)) :
    Expr g k t ↔ ∃ ts, Forall₂ (Expr g) args ts ∧ expand op ts = t := by
  simp only [Expr, Unfolds, denotes_app h, some.injEq]

theorem FusionKind.expand_first (kind : FusionKind) (ts : List (Term τ Operator)) :
    expand (kind.firstOp, []) ts = .app (kind.firstOp, []) ts :=
  expand_plain _ kind.plain.1

theorem FusionKind.expand_second (kind : FusionKind) (ts : List (Term τ Operator)) :
    expand (kind.secondOp, []) ts = .app (kind.secondOp, []) ts :=
  expand_plain _ kind.plain.2

/-! ### When the fused node means the second node -/

section Lists

variable {α β : Type} {R : α → β → Prop} {a b : α} {x y : β}

theorem forall₂_single {ys : List β} (h : Forall₂ R [a] ys) : ∃ x, ys = [x] ∧ R a x := by
  obtain ⟨x, l, hx, hl, rfl⟩ := forall₂_cons_left_iff.mp h
  exact ⟨x, by rw [forall₂_nil_left_iff.mp hl], hx⟩

theorem forall₂_pair {ys : List β} (h : Forall₂ R [a, b] ys) :
    ∃ x y, ys = [x, y] ∧ R a x ∧ R b y := by
  obtain ⟨x, l, hx, hl, rfl⟩ := forall₂_cons_left_iff.mp h
  obtain ⟨y, rfl, hy⟩ := forall₂_single hl
  exact ⟨x, y, rfl, hx, hy⟩

theorem pair_forall₂ {xs : List α} (h : Forall₂ R xs [x, y]) :
    ∃ a b, xs = [a, b] ∧ R a x ∧ R b y := by
  obtain ⟨a, b, rfl, ha, hb⟩ := forall₂_pair (R := fun y x => R x y) h.flip
  exact ⟨a, b, rfl, ha, hb⟩

end Lists

theorem expand_residualNorm_inv {ts us : List (Term τ Operator)}
    (h : expand (.FusedResidualRMSNorm, []) ts = .app (.RMSNorm, []) us) :
    ∃ x r w, ts = [x, r, w] ∧ us = [.app (.Add, []) [x, r], w] := by
  unfold expand at h
  split at h
  · rename_i params x r w heq
    obtain ⟨-, hus⟩ := Term.app.inj h
    exact ⟨x, r, w, rfl, hus.symm⟩
  · rename_i heq
    cases (Prod.mk.inj heq).1
  · cases (Prod.mk.inj (Term.app.inj h).1).1

theorem expand_swiGLU_inv {ts us : List (Term τ Operator)}
    (h : expand (.SwiGLU, []) ts = .app (.Mul, []) us) :
    ∃ gate up, ts = [gate, up] ∧ us = [.app (.SiLU, []) [gate], up] := by
  unfold expand at h
  split at h
  · rename_i heq
    cases (Prod.mk.inj heq).1
  · rename_i gate up heq
    obtain ⟨-, hus⟩ := Term.app.inj h
    exact ⟨gate, up, rfl, hus.symm⟩
  · cases (Prod.mk.inj (Term.app.inj h).1).1

/-- The graph of a run that records. -/
structure RecordedGraph (g : LazyGraph τ) : Prop where
  shape : GraphShape g
  params : ∀ n ∈ g.nodes, n.scalarParams = []

section Pair

variable (hi : RecordedGraph g) (h : pr.Fits g)

include hi h

theorem expr_first :
    Expr g pr.first t ↔ ∃ ts, Forall₂ (Expr g) (pr.firstNode g).inputs ts ∧
      t = .app (pr.kind.firstOp, []) ts := by
  rw [expr_app (h.view_first (hi.params _ (find_mem h.first_mem)))]
  simp only [FusionKind.expand_first, eq_comm]

theorem expr_second :
    Expr g pr.second t ↔ ∃ ts, Forall₂ (Expr g) (pr.secondNode g).inputs ts ∧
      t = .app (pr.kind.secondOp, []) ts := by
  rw [expr_app (h.view_second (hi.params _ (find_mem h.second_mem)))]
  simp only [FusionKind.expand_second, eq_comm]

theorem exists_expr_second_input (hk : k ∈ (pr.secondNode g).inputs) : ∃ t, Expr g k t :=
  hi.shape.exists_expr (hi.shape.closed k (mem_slots.mpr ⟨_, find_mem h.second_mem, hk⟩))

/-- A pair that fuses right unfolds to the term of its fused node. -/
theorem FusesRight.expr (hright : FusesRight g pr) :
    ∃ ts, Forall₂ (Expr g) (pr.node g).inputs ts ∧
      Expr g pr.second (expand (pr.kind.fusedOp, []) ts) := by
  have hfirst := fun t => (expr_first hi h (t := t))
  have hsecond := fun t => (expr_second hi h (t := t))
  have hinput := fun k hk => exists_expr_second_input hi h (k := k) hk
  unfold FusesRight at hright
  unfold node build
  generalize hp : pr.firstNode g = p at *
  generalize hq : pr.secondNode g = q at *
  cases hkind : pr.kind with
  | residualNorm =>
    simp only [hkind] at hright hfirst hsecond ⊢
    obtain ⟨x, r, a, w, hpin, hqin, t, ha, ht⟩ := hright
    rw [hpin] at hfirst
    rw [hqin] at hsecond hinput
    obtain ⟨ss, hss, heq⟩ := (hfirst t).mp ht
    obtain ⟨tx, tr, rfl, hx, hr⟩ := forall₂_pair hss
    obtain ⟨tw, hw⟩ := hinput w (by simp)
    refine ⟨[tx, tr, tw], ?_, (hsecond _).mpr ⟨[t, tw], .cons ha (.cons hw .nil), ?_⟩⟩
    · show Forall₂ (Expr g) (p.inputs ++ q.inputs[1]?.toList) _
      rw [hpin, hqin]
      exact .cons hx (.cons hr (.cons hw .nil))
    · rw [heq]
      rfl
  | swiGLU =>
    simp only [hkind] at hright hfirst hsecond ⊢
    obtain ⟨x, a, b, hpin, hqin, hone, t, ha, ht⟩ := hright
    rw [hpin] at hfirst
    rw [hqin] at hsecond hinput
    obtain ⟨ss, hss, heq⟩ := (hfirst t).mp ht
    obtain ⟨tx, rfl, hx⟩ := forall₂_single hss
    show ∃ ts, Forall₂ (Expr g)
      (p.inputs.headD 0 :: q.inputs.filter fun inp => inp ≠ pr.first) ts ∧ _
    rw [hpin, hqin]
    by_cases hafirst : a = pr.first
    · have hb := hone.mp hafirst
      obtain ⟨tb, htb⟩ := hinput b (by simp)
      have hfilter : [a, b].filter (fun inp => decide (inp ≠ pr.first)) = [b] := by
        simp [hafirst, hb]
      rw [hfilter]
      refine ⟨[tx, tb], .cons hx (.cons htb .nil),
        (hsecond _).mpr ⟨[t, tb], .cons ha (.cons htb .nil), ?_⟩⟩
      rw [heq]
      rfl
    · have hb : b = pr.first := by
        by_contra hb
        exact hafirst (hone.mpr hb)
      have hfilter : [a, b].filter (fun inp => decide (inp ≠ pr.first)) = [a] := by
        simp [hafirst, hb]
      rw [hfilter]
      refine ⟨[tx, t], .cons hx (.cons ha .nil),
        (hsecond _).mpr ⟨[t, t], .cons ha (.cons (hb ▸ ht) .nil), ?_⟩⟩
      rw [heq]
      rfl

/-- Only such a pair does. -/
theorem FusesRight.of_expr {ts : List (Term τ Operator)} (hne : (pr.firstNode g).inputs ≠ [])
    (hts : Forall₂ (Expr g) (pr.node g).inputs ts)
    (ht : Expr g pr.second (expand (pr.kind.fusedOp, []) ts)) : FusesRight g pr := by
  have hfirst := fun t => (expr_first hi h (t := t))
  have hsecond := fun t => (expr_second hi h (t := t))
  unfold FusesRight
  unfold node build at hts
  generalize hp : pr.firstNode g = p at *
  generalize hq : pr.secondNode g = q at *
  cases hkind : pr.kind with
  | residualNorm =>
    simp only [hkind] at hfirst hsecond hts ht ⊢
    replace hts : Forall₂ (Expr g) (p.inputs ++ q.inputs[1]?.toList) ts := hts
    obtain ⟨us, hus, heq⟩ := (hsecond _).mp ht
    obtain ⟨tx, tr, tw, rfl, rfl⟩ := expand_residualNorm_inv heq
    obtain ⟨a, w, hqin, ha, hw⟩ := pair_forall₂ hus
    have hlen := hts.length_eq
    rw [hqin] at hts hlen
    obtain ⟨x, r, hpin⟩ : ∃ x r, p.inputs = [x, r] := by
      rw [← length_eq_two]
      simpa using hlen
    rw [hpin] at hts hfirst
    obtain ⟨hx, hr⟩ : Expr g x tx ∧ Expr g r tr := by
      simp only [cons_append, nil_append, forall₂_cons] at hts
      exact ⟨hts.1, hts.2.1⟩
    exact ⟨x, r, a, w, hpin, hqin, _, ha, (hfirst _).mpr ⟨_, .cons hx (.cons hr .nil), rfl⟩⟩
  | swiGLU =>
    simp only [hkind] at hfirst hsecond hts ht ⊢
    replace hts : Forall₂ (Expr g)
      (p.inputs.headD 0 :: q.inputs.filter fun inp => inp ≠ pr.first) ts := hts
    obtain ⟨us, hus, heq⟩ := (hsecond _).mp ht
    obtain ⟨tg, tu, rfl, rfl⟩ := expand_swiGLU_inv heq
    obtain ⟨a, b, hqin, ha, hb⟩ := pair_forall₂ hus
    obtain ⟨x, xs, hpin⟩ := exists_cons_of_ne_nil hne
    rw [hpin] at hts hfirst
    rw [hqin, headD_cons, forall₂_cons] at hts
    obtain ⟨hx, hup⟩ := hts
    -- the activation has one input, when it unfolds to the term of the gate
    have hxs : Expr g pr.first (.app (.SiLU, []) [tg]) → xs = [] := by
      intro hpr
      obtain ⟨ss, hss, heq⟩ := (hfirst _).mp hpr
      obtain rfl := (Term.app.inj heq).2
      exact length_eq_zero_iff.mp (by simpa using hss.length_eq)
    by_cases hafirst : a = pr.first
    · have hbne : b ≠ pr.first := by
        intro hbfirst
        have hlen := hup.length_eq
        simp [hafirst, hbfirst] at hlen
      refine ⟨x, a, b, ?_, hqin, iff_of_true hafirst hbne, _, ha, hafirst ▸ ha⟩
      rw [hpin, hxs (hafirst ▸ ha)]
    · have hbfirst : b = pr.first := by
        by_contra hbne
        have hlen := hup.length_eq
        simp [hafirst, hbne] at hlen
      have hfilter : [a, b].filter (fun inp => decide (inp ≠ pr.first)) = [a] := by
        simp [hafirst, hbfirst]
      rw [hfilter, forall₂_cons] at hup
      obtain rfl := ha.unique hup.1
      refine ⟨x, a, b, ?_, hqin, iff_of_false hafirst (not_not.mpr hbfirst), _, ha, hbfirst ▸ hb⟩
      rw [hpin, hxs (hbfirst ▸ hb)]

end Pair

/-- The number of inputs of the first operation of a pattern. -/
def FusionKind.firstArity : FusionKind → ℕ
  | residualNorm => 2
  | swiGLU => 1

/-- The second node of a pair reads the first one where the pattern has it. -/
def OnEdge (g : LazyGraph τ) (pr : FusionPair) : Prop :=
  (pr.firstNode g).inputs.length = pr.kind.firstArity ∧ (pr.secondNode g).inputs.length = 2 ∧
    (pr.secondNode g).inputs[0]? = some pr.first ∧
    (pr.kind = .swiGLU → (pr.secondNode g).inputs[1]? ≠ some pr.first)

instance (g : LazyGraph τ) (pr : FusionPair) : Decidable (OnEdge g pr) :=
  inferInstanceAs (Decidable (_ ∧ _ ∧ _ ∧ _))

/-- Pairs along an edge of the graph fuse right. -/
theorem OnEdge.fusesRight (hg : GraphShape g) (h : pr.Fits g) (hedge : OnEdge g pr) :
    FusesRight g pr := by
  have hsame : SameExpr g pr.first pr.first := by
    obtain ⟨t, ht⟩ := hg.exists_expr (k := pr.first) (by rw [h.first_mem]; rfl)
    exact ⟨t, ht, ht⟩
  obtain ⟨hp, hq, hread, hother⟩ := hedge
  obtain ⟨a, b, hq⟩ := length_eq_two.mp hq
  obtain rfl : a = pr.first := by simpa [hq] using hread
  unfold FusesRight
  cases hkind : pr.kind with
  | residualNorm =>
    obtain ⟨x, r, hp⟩ := length_eq_two.mp (hkind ▸ hp)
    exact ⟨x, r, _, b, hp, hq, hsame⟩
  | swiGLU =>
    obtain ⟨x, hp⟩ := length_eq_one_iff.mp (hkind ▸ hp)
    have hb : b ≠ pr.first := by simpa [hq] using hother hkind
    exact ⟨x, _, b, hp, hq, iff_of_true rfl hb, hsame⟩

/-! ### A safe pass preserves meaning -/

/-- The nodes of `g` that the rewritten graph still has a node for. -/
def Survives (g : LazyGraph τ) (k : LazyNodeId) : Prop :=
  (∃ n ∈ g.nodes, n.id = k ∧ Kept (fusionPairs g) n) ∨
    ∃ pr ∈ fusionPairs g, k = pr.second ∧ FusesRight g pr

/-- What the pass leaves a reader of survives, when the pass is safe. -/
theorem FusionSafe.survives (hg : GraphShape g) (hs : FusionSafe g)
    (hk : k ∈ keptSlots g (fusionPairs g)) : Survives g k := by
  have h := hg.fusable
  rcases find_cases (fusionPairs g) (hg.find_keptSlot h hk) with
    ⟨pr, hpr, rfl⟩ | ⟨pr, hpr, rfl⟩ | hkept
  · exact absurd hk ((h.dropped_iff hg.keys).mp (hs.unread pr hpr))
  · refine .inr ⟨pr, hpr, rfl, hs.right pr hpr fun heq => ?_⟩
    exact (h.dropped_iff hg.keys).mp heq hk
  · exact .inl hkept

theorem mem_keptSlots_of_kept (hn : n ∈ g.nodes) (hkept : Kept pairs n) (hk : k ∈ n.inputs) :
    k ∈ keptSlots g pairs := by
  refine mem_append_right _ (mem_flatMap.mpr ⟨n, mem_filter.mpr ⟨hn, ?_⟩, hk⟩)
  simpa using hkept

theorem mem_keptSlots_of_fused (hpr : pr ∈ pairs) (hk : k ∈ (pr.node g).inputs) :
    k ∈ keptSlots g pairs :=
  mem_append_left _ (mem_flatMap.mpr ⟨pr, hpr, hk⟩)

/-- Survivors unfold to the same term after a safe pass. -/
theorem FusionSafe.expr (hi : RecordedGraph g) (hs : FusionSafe g)
    (hk : Survives g k) (ht : Expr g k t) :
    Expr g.optimizeFusions.1 (renamed (fusionPairs g) k) t := by
  have hg := hi.shape
  have h := hg.fusable
  obtain ⟨hnodes, hkeys⟩ := hg.optimizeFusions_nodes
  obtain ⟨rank, hr⟩ := hg.ranked
  -- by induction on the rank: the arguments of survivors survive and have smaller ranks
  induction hrank : rank k using Nat.strongRecOn generalizing k t with
  | _ r ih =>
    have hargs : ∀ (args : List LazyNodeId) (ts : List (Term τ Operator)),
        (∀ j ∈ args, j ∈ keptSlots g (fusionPairs g) ∧ rank j < r) →
        Forall₂ (Expr g) args ts →
        Forall₂ (Expr g.optimizeFusions.1) (args.map (renamed (fusionPairs g))) ts := by
      intro args ts hmem hts
      rw [forall₂_map_left_iff]
      refine forall₂_imp_mem (fun j hj u hu => ?_) hts
      exact ih (rank j) (hmem j hj).2 (hs.survives hg (hmem j hj).1) hu rfl
    rcases hk with ⟨n, hn, rfl, hkept⟩ | ⟨pr, hpr, rfl, hright⟩
    · rw [(h.renamed_eq_kept hkept (hg.keys.lt_next n hn)).mpr rfl]
      have hfind := Fusable.find_kept hkeys hnodes hn hkept
      have hbefore := hg.keys.find_of_mem hn
      cases hview : n.view with
      | leaf a =>
        have hleaf := (denotes_leaf (view_eq_some.mpr ⟨n, hbefore, hview⟩)).mp ht
        exact (denotes_leaf (view_eq_some.mpr ⟨_, hfind, view_renameInputs_leaf hview⟩)).mpr hleaf
      | app op args =>
        obtain ⟨ts, hts, heq⟩ := (expr_app (view_eq_some.mpr ⟨n, hbefore, hview⟩)).mp ht
        refine (expr_app (view_eq_some.mpr ⟨_, hfind, view_renameInputs hview⟩)).mpr ⟨ts, ?_, heq⟩
        refine hargs args ts (fun j hj => ?_) hts
        rw [inputs_of_view hview] at hj
        exact ⟨mem_keptSlots_of_kept hn hkept hj, hrank ▸ hr.lt n hn j hj⟩
    · rw [h.renamed_second hpr]
      have hfits := h.fits pr hpr
      have hfind := Fusable.find_fused hkeys hnodes hpr
      have hview := view_fused pr g (hi.params _ (find_mem hfits.second_mem))
      obtain ⟨ts, hts, hterm⟩ := hright.expr hi hfits
      rw [ht.unique hterm]
      refine (expr_app (view_eq_some.mpr ⟨_, hfind, view_renameInputs hview⟩)).mpr ⟨ts, ?_, rfl⟩
      refine hargs _ ts (fun j hj => ⟨mem_keptSlots_of_fused hpr hj, ?_⟩) hts
      have hplain := hr.plain _ (find_mem hfits.second_mem) (hfits.secondOp ▸ pr.kind.plain.2)
      rw [find_id hfits.second_mem] at hplain
      have hlt := hr.fused_lt hfits (h.nonempty pr hpr) hj
      rwa [← hrank, hplain]

theorem FusionSafe.sameMeaning (hi : RecordedGraph g) (hs : FusionSafe g) (hk : Survives g k) :
    SameMeaning g k g.optimizeFusions.1 (renamed (fusionPairs g) k) := by
  have hpresent : (g.find k).isSome := by
    rcases hk with ⟨n, hn, rfl, -⟩ | ⟨pr, hpr, rfl, -⟩
    · rw [hi.shape.keys.find_of_mem hn]
      rfl
    · rw [(hi.shape.fusable.fits pr hpr).second_mem]
      rfl
  obtain ⟨t, ht⟩ := hi.shape.exists_expr hpresent
  exact sameMeaning_iff.mpr ⟨t, ht, hs.expr hi hk ht⟩

/-! ### Marked nodes and dead code -/

/-- Node `k` is there and marked. -/
def Marked (g : LazyGraph τ) (k : LazyNodeId) : Prop :=
  ∃ n, g.find k = some n ∧ n.isOutput = true

theorem Marked.dropRef {j : LazyNodeId} (h : Marked g k) : Marked (g.dropRef j) k := by
  obtain ⟨n, hn, hout⟩ := h
  unfold LazyGraph.dropRef Marked
  rw [find_modify (fun n => by split_ifs <;> rfl), hn]
  split_ifs
  · refine ⟨_, rfl, ?_⟩
    beta_reduce
    split_ifs <;> exact hout
  · exact ⟨n, rfl, hout⟩

theorem Marked.dropRefs (h : Marked g k) (l : List LazyNodeId) :
    Marked (l.foldl LazyGraph.dropRef g) k := by
  induction l generalizing g with
  | nil => exact h
  | cons j l ih => exact ih h.dropRef

/-- Removing other nodes. -/
theorem Marked.removeAll : ∀ (ids : List LazyNodeId) (g : LazyGraph τ) (count : ℕ), g.Keys →
    Marked g k → k ∉ ids →
      (ids.foldl removeNode (g, count)).1.Keys ∧ Marked (ids.foldl removeNode (g, count)).1 k := by
  intro ids
  induction ids with
  | nil => exact fun g count hg h _ => ⟨hg, h⟩
  | cons id ids ih =>
    intro g count hg h hnot
    rw [mem_cons, not_or] at hnot
    rw [foldl_cons]
    cases hfind : g.find id with
    | none =>
      have hsame : removeNode (g, count) id = (g, count) := by
        unfold removeNode
        simp only [hfind]
      rw [hsame]
      exact ih g count hg h hnot.2
    | some node =>
      rw [removeNode_eq hfind]
      have hsame := foldl_dropRef_sameShape node.inputs g
      have hkeys := hg.of_ids hsame.ids hsame.nextId
      refine ih _ _ ⟨hkeys.distinct.erase id, fun m hm => ?_⟩ ?_ hnot.2
      · exact hkeys.lt_next m (Keyed.mem_erase.mp hm).1
      · obtain ⟨n, hn, hout⟩ := h.dropRefs node.inputs
        refine ⟨n, ?_, hout⟩
        show Keyed.find LazyNode.id (Keyed.erase LazyNode.id _ id) k = some n
        rw [Keyed.find_erase_ne hnot.1]
        exact hn

/-- **Dead-code elimination keeps marked nodes.** -/
theorem Marked.eliminate (hg : g.Keys) (h : Marked g k) : Marked g.eliminateDeadCode.1 k := by
  unfold eliminateDeadCode
  generalize g.nodes.length + 1 = fuel
  generalize 0 = eliminated
  induction fuel generalizing g eliminated with
  | zero => exact h
  | succ fuel ih =>
    have hnot : k ∉ (g.nodes.filter isDead).map LazyNode.id := by
      intro hmem
      obtain ⟨m, hm, rfl⟩ := mem_map.mp hmem
      obtain ⟨hm, hdead⟩ := mem_filter.mp hm
      obtain ⟨n, hn, hout⟩ := h
      rw [hg.find_of_mem hm] at hn
      obtain rfl := some.inj hn
      simp [isDead, hout] at hdead
    obtain ⟨hkeys, hmarked⟩ := Marked.removeAll _ g 0 hg h hnot
    have hdef : eliminateRounds (fuel + 1) (g, eliminated) =
        if (eliminateRound g).2 = 0 then ((eliminateRound g).1, eliminated)
        else eliminateRounds fuel ((eliminateRound g).1, eliminated + (eliminateRound g).2) := rfl
    rw [hdef]
    split_ifs with hnone
    · exact hmarked
    · exact ih hkeys hmarked _

/-! ### The condition is exact -/

theorem Fusable.origin_fused (h : Fusable g (fusionPairs g)) (hpr : pr ∈ fusionPairs g) :
    origin g pr.fused = pr.second :=
  fusedRank_fused h (fun k => k) hpr

theorem Fusable.origin_renamed (h : Fusable g (fusionPairs g)) (hk : k < g.nextId) :
    origin g (renamed (fusionPairs g) k) = k := by
  rcases renamed_cases (fusionPairs g) k with ⟨pr, hpr, rfl, heq⟩ | ⟨-, heq⟩
  · rw [heq, h.origin_fused hpr]
  · rw [heq]
    exact fusedRank_of_lt h (fun k => k) hk

/-- What the rewritten graph refers to is the new name of a slot that is kept. -/
theorem GraphShape.mem_slots_after (hg : GraphShape g) : k ∈ g.optimizeFusions.1.slots ↔
    ∃ j ∈ keptSlots g (fusionPairs g), renamed (fusionPairs g) j = k := by
  have hslots : g.optimizeFusions.1.slots
      = (substituted g (fusionPairs g)).flatMap LazyNode.inputs := by
    unfold slots
    rw [hg.optimizeFusions_nodes.1]
  rw [hslots, (substituted_slots g _).mem_iff, List.mem_map]

theorem FusionSafe.preserves (hi : RecordedGraph g) (hs : FusionSafe g) : MeaningPreserved g := by
  have hg := hi.shape
  have h := hg.fusable
  obtain ⟨hnodes, hkeys⟩ := hg.optimizeFusions_nodes
  have hkept : ∀ n ∈ g.nodes, Kept (fusionPairs g) n →
      SameMeaning g n.id g.optimizeFusions.1 n.id := by
    intro n hn hkept
    have hsame := hs.sameMeaning hi (.inl ⟨n, hn, rfl, hkept⟩)
    rwa [(h.renamed_eq_kept hkept (hg.keys.lt_next n hn)).mpr rfl] at hsame
  refine ⟨fun n hn hout => ?_, fun k hk hk' => ?_, fun n hn k hk => ?_⟩
  · have hstays : Kept (fusionPairs g) n := by
      have hfind := hg.keys.find_of_mem hn
      intro pr hpr
      obtain ⟨hfirst, hsecond⟩ := hs.unmarked pr hpr
      constructor
      · intro hid
        rw [hid, (h.fits pr hpr).first_mem] at hfind
        rw [some.inj hfind, hout] at hfirst
        cases hfirst
      · intro hid
        rw [hid, (h.fits pr hpr).second_mem] at hfind
        rw [some.inj hfind, hout] at hsecond
        cases hsecond
    have hfind := Fusable.find_kept hkeys hnodes hn hstays
    have hmarked : Marked g.optimizeFusions.1 n.id := ⟨_, hfind, hout⟩
    obtain ⟨m, hm, -⟩ := hmarked.eliminate hkeys
    exact ⟨hmarked, isSome_iff_exists.mpr ⟨m, hm⟩, hkept n hn hstays⟩
  · rcases find_cases (fusionPairs g) hk with ⟨pr, hpr, rfl⟩ | ⟨pr, hpr, rfl⟩ | ⟨n, hn, rfl, hstays⟩
    · rw [h.find_erased hg.keys hnodes hpr (.inl rfl)] at hk'
      cases hk'
    · rw [h.find_erased hg.keys hnodes hpr (.inr rfl)] at hk'
      cases hk'
    · exact hkept n hn hstays
  · obtain ⟨j, hj, rfl⟩ := hg.mem_slots_after.mp (mem_slots.mpr ⟨n, hn, hk⟩)
    have hlt := hg.keys.lt_of_isSome (hg.find_keptSlot h hj)
    have hsurvives := hs.survives hg hj
    rw [h.origin_renamed hlt]
    refine ⟨?_, hs.sameMeaning hi hsurvives⟩
    rcases hsurvives with ⟨m, hm, rfl, hstays⟩ | ⟨pr, hpr, rfl, -⟩
    · rw [(h.renamed_eq_kept hstays hlt).mpr rfl, Fusable.find_kept hkeys hnodes hm hstays]
      rfl
    · rw [h.renamed_second hpr, Fusable.find_fused hkeys hnodes hpr]
      rfl

/-- The term of a kept slot, read off the rewritten graph. -/
theorem MeaningPreserved.expr_slot (hg : GraphShape g) (hm : MeaningPreserved g)
    (hk : k ∈ keptSlots g (fusionPairs g))
    (ht : Expr g.optimizeFusions.1 (renamed (fusionPairs g) k) t) : Expr g k t := by
  obtain ⟨n, hn, hin⟩ := mem_slots.mp (hg.mem_slots_after.mpr ⟨k, hk, rfl⟩)
  have hsame := (hm.referenced n hn _ hin).2
  rw [hg.fusable.origin_renamed (hg.keys.lt_of_isSome (hg.find_keptSlot hg.fusable hk))] at hsame
  obtain ⟨u, hu, hu'⟩ := sameMeaning_iff.mp hsame
  rwa [ht.unique hu']

theorem MeaningPreserved.safe (hi : RecordedGraph g) (hm : MeaningPreserved g) : FusionSafe g := by
  have hg := hi.shape
  have h := hg.fusable
  obtain ⟨hnodes, hkeys⟩ := hg.optimizeFusions_nodes
  have herased : ∀ pr ∈ fusionPairs g, ∀ k, k = pr.first ∨ k = pr.second →
      g.optimizeFusions.1.find k = none := fun pr hpr k hk => h.find_erased hg.keys hnodes hpr hk
  -- a marked node would not resolve
  have hunmarked : ∀ pr ∈ fusionPairs g, ∀ k n, (k = pr.first ∨ k = pr.second) →
      g.find k = some n → n.isOutput = false := by
    intro pr hpr k n hk hn
    by_contra hout
    obtain ⟨⟨m, hfind, -⟩, -⟩ := hm.outputs n (find_mem hn) (by simpa using hout)
    rw [find_id hn, herased pr hpr k hk] at hfind
    cases hfind
  refine ⟨fun pr hpr => ?_, fun pr hpr => ?_, fun pr hpr hne => ?_⟩
  · have hfits := h.fits pr hpr
    exact ⟨hunmarked pr hpr _ _ (.inl rfl) hfits.first_mem,
      hunmarked pr hpr _ _ (.inr rfl) hfits.second_mem⟩
  · refine (h.dropped_iff hg.keys).mpr fun hk => ?_
    obtain ⟨n, hn, hin⟩ := mem_slots.mp (hg.mem_slots_after.mpr ⟨_, hk, rfl⟩)
    have hfound := (hm.referenced n hn _ hin).1
    rw [renamed_of_not_mem fun a ha => (h.first_ne_second hpr ha).symm,
      herased pr hpr _ (.inl rfl)] at hfound
    cases hfound
  · -- the fused node is referred to, so it means what the second node meant
    have hk : pr.second ∈ keptSlots g (fusionPairs g) := by
      by_contra hk
      exact hne ((h.dropped_iff hg.keys).mpr hk)
    have hfits := h.fits pr hpr
    have hview := view_fused pr g (hi.params _ (find_mem hfits.second_mem))
    have hfind := Fusable.find_fused hkeys hnodes hpr
    obtain ⟨n, hn, hin⟩ := mem_slots.mp (hg.mem_slots_after.mpr ⟨_, hk, rfl⟩)
    have hsame := (hm.referenced n hn _ hin).2
    rw [h.renamed_second hpr, h.origin_fused hpr] at hsame
    obtain ⟨t, ht, ht'⟩ := sameMeaning_iff.mp hsame
    obtain ⟨ts, hts, rfl⟩ := (expr_app (view_eq_some.mpr
      ⟨_, hfind, view_renameInputs hview⟩)).mp ht'
    rw [forall₂_map_left_iff] at hts
    refine FusesRight.of_expr hi hfits (h.nonempty pr hpr) (forall₂_imp_mem ?_ hts) ht
    exact fun j hj u hu => hm.expr_slot hg (mem_keptSlots_of_fused hpr hj) hu

/-! ### Runs -/

/-- The calls that record and mark. -/
def Records (_ : LazyGraph τ) : GraphOp τ → Prop
  | .recordInput _ | .recordUnary .. | .recordBinary .. | .markOutput _ | .rehash _ => True
  | .unmarkOutput _ | .optimizeFusions | .eliminateDeadCode | .eval _ | .evalAll => False

instance (g : LazyGraph τ) : (op : GraphOp τ) → Decidable (Records g op)
  | .recordInput _ | .recordUnary .. | .recordBinary .. | .markOutput _ | .rehash _ =>
    inferInstanceAs (Decidable True)
  | .unmarkOutput _ | .optimizeFusions | .eliminateDeadCode | .eval _ | .evalAll =>
    inferInstanceAs (Decidable False)

theorem RecordedGraph.empty : RecordedGraph ({} : LazyGraph τ) where
  shape := .empty
  params := by simp

theorem RecordedGraph.step (K : Kernels τ) (hi : RecordedGraph g) {op : GraphOp τ}
    (hrec : Records g op) (h : graphStep K g op = some g') : RecordedGraph g' := by
  obtain ⟨hen, rfl⟩ := graphStep_eq h
  have hpass : op ≠ .optimizeFusions ∧ op ≠ .eliminateDeadCode := by
    constructor
    · rintro rfl
      exact hrec
    · rintro rfl
      exact hrec
  refine ⟨hi.shape.call K hen hpass, ?_⟩
  cases hnode : op.node K g with
  | some n =>
    obtain ⟨hafter, hfresh⟩ := graphAfter_record K hnode
    rw [hafter]
    intro m hm
    rcases mem_record hi.shape.keys hfresh.id hm with rfl | ⟨m₀, hm₀, heq, -⟩
    · exact hfresh.params
    · rw [heq]
      exact hi.params m₀ hm₀
  | none =>
    cases op with
    | markOutput i =>
      show ∀ n ∈ (g.markOutput i).2.nodes, n.scalarParams = []
      unfold markOutput
      cases hfind : g.find i with
      | none => exact hi.params
      | some n =>
        intro m hm
        obtain ⟨m₀, hm₀, rfl⟩ := mem_modify.mp hm
        split_ifs
        · exact hi.params m₀ hm₀
        · exact hi.params m₀ hm₀
    | rehash order =>
      intro n hn
      exact hi.params n ((rehash_perm hi.shape.keys hen.2).mem_iff.mp hn)
    | recordInput t => cases hnode
    | recordUnary o input outputShape dtype => cases hnode
    | recordBinary o lhs rhs outputShape dtype => cases hnode
    | unmarkOutput i => exact hrec.elim
    | optimizeFusions => exact hrec.elim
    | eliminateDeadCode => exact hrec.elim
    | eval i => exact hrec.elim
    | evalAll => exact hrec.elim

theorem RecordedGraph.run (K : Kernels τ) (hrun : Runs (graphStep K) Records {} g) :
    RecordedGraph g :=
  hrun.invariant RecordedGraph.empty fun _ _ _ hu hrec hs => hu.step K hrec hs

/-- **Fusion preserves meaning** exactly on the graphs that are safe to fuse. -/
theorem fusion_preserves_meaning (K : Kernels τ) (hrun : Runs (graphStep K) Records {} g) :
    MeaningPreserved g ↔ FusionSafe g := by
  have hi := RecordedGraph.run K hrun
  exact ⟨fun hm => hm.safe hi, fun hs => hs.preserves hi⟩

/-- A residual block and a gated activation, each ending in a marked activation. -/
def gatedCalls : List (GraphOp ℤ) :=
  [.recordInput 1, .recordInput 2, .recordBinary .Add 1 2 [1] .Int64,
    .recordBinary .RMSNorm 3 2 [1] .Int64, .recordUnary .SiLU 4 [1] .Int64,
    .recordBinary .Mul 5 1 [1] .Int64, .recordUnary .ReLU 6 [1] .Int64, .markOutput 7]

theorem fusion_preserves_meaning_gated :
    ∃ g, exec (graphStep scalarKernels) {} gatedCalls = some g ∧
      g.optimizeFusions.1.nodes.map (fun n => (n.id, n.opType, n.inputs)) =
        [(9, .SwiGLU, [8, 1]), (8, .FusedResidualRMSNorm, [1, 2, 2]), (7, .ReLU, [9]),
          (2, .Unknown, []), (1, .Unknown, [])] ∧ MeaningPreserved g := by
  have hsome : (exec (graphStep scalarKernels) {} gatedCalls).isSome = true := by decide
  obtain ⟨g, hg⟩ := isSome_iff_exists.mp hsome
  have hrec : GuardedAlong (graphStep scalarKernels) Records {} gatedCalls := by decide
  have hnodes : (exec (graphStep scalarKernels) {} gatedCalls).map (fun g =>
      g.optimizeFusions.1.nodes.map fun n => (n.id, n.opType, n.inputs))
        = some [(9, .SwiGLU, [8, 1]), (8, .FusedResidualRMSNorm, [1, 2, 2]), (7, .ReLU, [9]),
          (2, .Unknown, []), (1, .Unknown, [])] := by decide
  have hpairs : ∀ g ∈ exec (graphStep scalarKernels) {} gatedCalls, ∀ pr ∈ fusionPairs g,
      ((pr.firstNode g).isOutput = false ∧ (pr.secondNode g).isOutput = false) ∧
        g.slots.count pr.first = (droppedSlots g (fusionPairs g)).count pr.first ∧
        OnEdge g pr := by decide
  rw [hg, map_some, some.injEq] at hnodes
  have hsafe := hpairs g hg
  have hrun := runs_exec hg hrec
  have hi := RecordedGraph.run scalarKernels hrun
  refine ⟨g, hg, hnodes, (fusion_preserves_meaning scalarKernels hrun).mpr ⟨?_, ?_, ?_⟩⟩
  · exact fun pr hpr => (hsafe pr hpr).1
  · exact fun pr hpr => (hsafe pr hpr).2.1
  · exact fun pr hpr _ => (hsafe pr hpr).2.2.fusesRight hi.shape (hi.shape.fusable.fits pr hpr)

/-- A residual block whose output is marked. -/
def markedNormCalls : List (GraphOp ℤ) :=
  [.recordInput 1, .recordInput 2, .recordBinary .Add 1 2 [1] .Int64,
    .recordBinary .RMSNorm 3 2 [1] .Int64, .markOutput 4]

/-- `optimize_fusions` erases a marked node. -/
theorem marked_output_erased :
    ∃ g, Reaches (graphStep scalarKernels) {} g ∧ (g.find 4).map LazyNode.isOutput = some true ∧
      (g.optimizeFusions.1.find 4).isSome = false ∧
      g.optimizeFusions.1.nodes.all (fun n => !n.isOutput) = true ∧ ¬ MeaningPreserved g := by
  have hsome : (exec (graphStep scalarKernels) {} markedNormCalls).isSome = true := by decide
  obtain ⟨g, hg⟩ := isSome_iff_exists.mp hsome
  have hafter : (exec (graphStep scalarKernels) {} markedNormCalls).map (fun g =>
      ((g.find 4).map LazyNode.isOutput, (g.optimizeFusions.1.find 4).isSome,
        g.optimizeFusions.1.nodes.all fun n => !n.isOutput))
        = some (some true, false, true) := by decide
  rw [hg, map_some, some.injEq, Prod.mk.injEq, Prod.mk.injEq] at hafter
  obtain ⟨hmark, hgone, hall⟩ := hafter
  refine ⟨g, reaches_exec hg, hmark, hgone, hall, fun hm => ?_⟩
  obtain ⟨n, hn, hout⟩ := map_eq_some_iff.mp hmark
  obtain ⟨⟨m, hfind, -⟩, -⟩ := hm.outputs n (find_mem hn) hout
  rw [find_id hn] at hfind
  rw [hfind] at hgone
  cases hgone

/-! ### Runs with passes -/

/-- The calls that record, mark and optimize; no counter wraps around, and `optimize_fusions` is
    called where it is safe. -/
def Optimizes (g : LazyGraph τ) (op : GraphOp τ) : Prop :=
  KeepsCounts g op ∧ (Records g op ∨ op = .eliminateDeadCode ∨ op = .optimizeFusions ∧ FusionSafe g)

/-- An update that keeps the marks. -/
theorem Marked.modify {f : LazyNode τ → LazyNode τ} (hid : ∀ n, (f n).id = n.id)
    (hf : ∀ n, n.isOutput = true → (f n).isOutput = true) (h : Marked g k) (id : LazyNodeId) :
    Marked (g.modify id f) k := by
  obtain ⟨n, hn, hout⟩ := h
  unfold Marked
  rw [find_modify hid, hn]
  split_ifs
  · exact ⟨_, rfl, hf n hout⟩
  · exact ⟨n, rfl, hout⟩

theorem Marked.addRefs (h : Marked g k) (l : List LazyNodeId) : Marked (l.foldl addRef g) k := by
  induction l generalizing g with
  | nil => exact h
  | cons j l ih =>
    exact ih (h.modify (f := fun n => { n with refCount := n.refCount + 1 }) (fun _ => rfl)
      (fun _ hout => hout) j)

/-- Recording and marking keep the marks, and add to the expressions. -/
theorem Marked.records (K : Kernels τ) {op : GraphOp τ} (hg : GraphShape g) (hrec : Records g op)
    (hen : op.Enabled g) (hm : Marked g k) : Marked (graphAfter K g op) k ∧
      ∀ j w, g.view j = some w → (graphAfter K g op).view j = some w := by
  cases hnode : op.node K g with
  | some n =>
    obtain ⟨hafter, hfresh⟩ := graphAfter_record K hnode
    rw [hafter]
    refine ⟨?_, fun j w => view_record_extends hg.keys hfresh.id⟩
    obtain ⟨m, hm', hout⟩ := hm.addRefs n.inputs
    obtain ⟨a, ha, -⟩ := hm
    have hlt : k < g.nextId := hg.keys.lt_of_isSome (by rw [ha]; rfl)
    refine ⟨m, ?_, hout⟩
    unfold recordNode
    rw [find_addNode, if_neg (hfresh.id ▸ hlt.ne), hm']
  | none =>
    cases op with
    | markOutput i =>
      show Marked (g.markOutput i).2 k ∧ ∀ j w, _ → (g.markOutput i).2.view j = some w
      unfold markOutput
      cases g.find i with
      | none => exact ⟨hm, fun _ _ h => h⟩
      | some a =>
        let mark (n : LazyNode τ) : LazyNode τ := { n with isOutput := true }
        refine ⟨hm.modify (f := mark) (fun _ => rfl) (fun _ _ => rfl) i, fun j w h => ?_⟩
        exact (congrFun (view_modify (f := mark) (fun _ => rfl) fun _ _ => rfl) j).trans h
    | rehash order =>
      obtain ⟨n, hn, hout⟩ := hm
      refine ⟨⟨n, (find_rehash hg.keys hen.2 k).trans hn, hout⟩, fun j w h => ?_⟩
      exact (congrFun (view_rehash hg.keys hen.2) j).trans h
    | recordInput | recordUnary | recordBinary => cases hnode
    | unmarkOutput | optimizeFusions | eliminateDeadCode | eval | evalAll => exact hrec.elim

theorem Marked.exists_expr (hm : Marked g k) (hg : GraphShape g) : ∃ t, Expr g k t := by
  obtain ⟨n, hn, -⟩ := hm
  exact hg.exists_expr (by rw [hn]; rfl)

/-- **Step.**  A call keeps the invariant, the marks, and what marked nodes mean. -/
theorem RecordedGraph.optimizes (K : Kernels τ) {op : GraphOp τ} (hi : GraphInv g)
    (hr : RecordedGraph g) (ho : Optimizes g op) (h : graphStep K g op = some g') :
    GraphInv g' ∧ RecordedGraph g' ∧
      ∀ k, Marked g k → Marked g' k ∧ SameMeaning g k g' k := by
  obtain ⟨hkeep, hpass⟩ := ho
  have hi' := hi.step K hkeep h
  refine ⟨hi', ?_⟩
  obtain ⟨hen, heq⟩ := graphStep_eq h
  rcases hpass with hrec | rfl | ⟨rfl, hsafe⟩
  · refine ⟨hr.step K hrec h, fun k hm => ?_⟩
    obtain ⟨hm', hview⟩ := hm.records K hi.shape hrec hen
    obtain ⟨t, ht⟩ := hm.exists_expr hi.shape
    subst heq
    exact ⟨hm', sameMeaning_iff.mpr ⟨t, ht, ht.extend hview⟩⟩
  · have hp := hi.pruned
    subst heq
    refine ⟨⟨hi'.shape, fun m hm => ?_⟩, fun k hm => ?_⟩
    · obtain ⟨n, hn, heq⟩ := hp.kept _ _ (hi'.shape.keys.find_of_mem hm)
      rw [heq]
      exact hr.params n (find_mem hn)
    · have hm' := hm.eliminate hi.shape.keys
      obtain ⟨t, ht⟩ := hm.exists_expr hi.shape
      have hleft : (g.eliminateDeadCode.1.find k).isSome := by
        obtain ⟨n, hn, -⟩ := hm'
        rw [hn]
        rfl
      exact ⟨hm', sameMeaning_iff.mpr ⟨t, ht, (hp.denotes_iff hleft).mp ht⟩⟩
  · subst heq
    refine ⟨⟨hi'.shape, fun m hm => ?_⟩, fun k hm => ?_⟩
    · have hmem : m ∈ g.optimizeFusions.1.nodes := hm
      rw [hi.shape.optimizeFusions_nodes.1, mem_substituted] at hmem
      rcases hmem with ⟨pr, hpr, rfl⟩ | ⟨n, hn, -, rfl⟩
      · have hparams := hr.params _ (find_mem (hi.shape.fusable.fits pr hpr).second_mem)
        show (pr.node g).scalarParams = []
        unfold node build
        cases pr.kind with
        | residualNorm => exact hparams
        | swiGLU => rfl
      · exact hr.params n hn
    · obtain ⟨n, hn, hout⟩ := hm
      obtain ⟨hfound, -, hsame⟩ := (hsafe.preserves hr).outputs n (find_mem hn) hout
      rw [find_id hn] at hfound hsame
      exact ⟨hfound, hsame⟩

/-- **Outputs keep their meaning**, whatever is recorded, marked, fused where that is safe, and
    eliminated in between. -/
theorem outputs_keep_meaning (K : Kernels τ) (hrun : Runs (graphStep K) Optimizes {} g)
    (hk : Marked g k) (hlater : Runs (graphStep K) Optimizes g g') :
    Marked g' k ∧ SameMeaning g k g' k := by
  have hi := hrun.invariant (P := fun u => GraphInv u ∧ RecordedGraph u) ⟨.init, .empty⟩
    fun _ _ _ hu ho hs => (hu.2.optimizes K hu.1 ho hs).imp_right And.left
  obtain ⟨t, ht⟩ := hk.exists_expr hi.2.shape
  have hlast := hlater.invariant (P := fun u => (GraphInv u ∧ RecordedGraph u) ∧
    Marked u k ∧ Expr u k t) ⟨hi, hk, ht⟩ ?_
  · exact ⟨hlast.2.1, sameMeaning_iff.mpr ⟨t, ht, hlast.2.2⟩⟩
  · rintro u op v ⟨⟨hu, hr⟩, hm, hexpr⟩ ho hs
    obtain ⟨hv, hrv, hkeeps⟩ := hr.optimizes K hu ho hs
    obtain ⟨hm', hsame⟩ := hkeeps k hm
    obtain ⟨t', ht', hv'⟩ := sameMeaning_iff.mp hsame
    obtain rfl := hexpr.unique ht'
    exact ⟨⟨hv, hrv⟩, hm', hv'⟩

/-- The output of a chain, when the dead code beside it is eliminated. -/
theorem outputs_keep_meaning_square :
    ∃ g, exec (graphStep scalarKernels) {} deadSquareCalls = some g ∧
      Marked g.eliminateDeadCode.1 5 ∧ SameMeaning g 5 g.eliminateDeadCode.1 5 := by
  have hmark : (exec (graphStep scalarKernels) {} deadSquareCalls).map
      (fun g => (g.find 5).map LazyNode.isOutput) = some (some true) := by decide
  have hrec : GuardedAlong (graphStep scalarKernels) (fun g op => KeepsCounts g op ∧ Records g op)
      {} deadSquareCalls := by decide
  obtain ⟨g, hg, hout⟩ := map_eq_some_iff.mp hmark
  obtain ⟨n, hn, hout⟩ := map_eq_some_iff.mp hout
  have hrun : Runs (graphStep scalarKernels) Optimizes {} g :=
    (runs_exec hg hrec).mono fun _ _ h => ⟨h.1, .inl h.2⟩
  have hkeep : KeepsCounts g .eliminateDeadCode :=
    ⟨fun h => Bool.noConfusion h, fun _ h => absurd h not_mem_nil⟩
  have hlater : Runs (graphStep scalarKernels) Optimizes g g.eliminateDeadCode.1 :=
    .tail .refl ⟨hkeep, .inr (.inl rfl)⟩ rfl
  exact ⟨g, hg, outputs_keep_meaning scalarKernels hrun ⟨n, hn, hout⟩ hlater⟩

end MetalNative
