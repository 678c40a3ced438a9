import Mathlib.Data.List.Forall2
import Mathlib.Order.Basic

namespace Denotation

/-!
# Denotations of expression graphs

A graph of expressions over `ι` is a partial function to views: a node is a leaf or an operator
applied to other nodes.  `denote` evaluates a node with fuel, under a value for every leaf and a
partial interpretation of every operator; `Denotes` is its limit.

* `Denotes.unique`, `denotes_leaf`, `denotes_app` — the equations of the limit.
* `Denotes.induct` — induction on the evaluation.
* `Denotes.map` — evaluation commutes with homomorphisms.
* `Denotes.extend`, `Denotes.restrict` — graphs that agree on what a node needs.
* `Denotes.of_ranked` — closed acyclic graphs denote under total interpretations.
* `Unfolds.eval` — a node evaluates to the value of the term that it unfolds to.
-/

/-- A node of an expression graph. -/
inductive View (α ω ι : Type*) where
  | leaf (a : α)
  | app (op : ω) (args : List ι)

variable {α β γ ω ι : Type*}

/-- Evaluate node `i`; `none` when the fuel runs out, a node is missing or an operator is not
    defined on its arguments. -/
def denote (view : ι → Option (View α ω ι)) (leafVal : α → β) (I : ω → List β → Option β) :
    ℕ → ι → Option β
  | 0, _ => none
  | fuel + 1, i =>
    match view i with
    | none => none
    | some (.leaf a) => some (leafVal a)
    | some (.app op args) => (args.mapM (denote view leafVal I fuel)).bind (I op)

/-- Node `i` evaluates to `v`. -/
def Denotes (view : ι → Option (View α ω ι)) (leafVal : α → β) (I : ω → List β → Option β)
    (i : ι) (v : β) : Prop := ∃ fuel, denote view leafVal I fuel i = some v

variable {view : ι → Option (View α ω ι)} {leafVal : α → β} {I : ω → List β → Option β}
variable {i : ι} {v w : β}

/-! ### Fuel -/

/-- `mapM` succeeds with the list of the elements' results. -/
theorem mapM_eq_some_iff {f : ι → Option β} {l : List ι} {vs : List β} :
    l.mapM f = some vs ↔ List.Forall₂ (fun i v => f i = some v) l vs := by
  induction l generalizing vs with
  | nil => simp [eq_comm]
  | cons i l ih =>
    rw [List.mapM_cons]
    simp only [Option.bind_eq_bind, Option.bind_eq_some_iff, Option.pure_def, Option.some.injEq]
    constructor
    · rintro ⟨v, hv, ws, hws, rfl⟩
      exact .cons hv (ih.mp hws)
    · intro h
      obtain ⟨v, ws, hv, hws, rfl⟩ := List.forall₂_cons_left_iff.mp h
      exact ⟨v, hv, ws, ih.mpr hws, rfl⟩

/-- What holds of the elements carries over along the list. -/
theorem forall₂_imp_mem {R S : ι → β → Prop} {l : List ι} {vs : List β}
    (h : ∀ i ∈ l, ∀ v, R i v → S i v) (hl : List.Forall₂ R l vs) : List.Forall₂ S l vs := by
  induction hl with
  | nil => exact .nil
  | cons hv _ ih =>
    exact .cons (h _ List.mem_cons_self _ hv) (ih fun i hi => h i (List.mem_cons_of_mem _ hi))

/-- More fuel gives the same value. -/
theorem denote_succ {fuel : ℕ} (h : denote view leafVal I fuel i = some v) :
    denote view leafVal I (fuel + 1) i = some v := by
  induction fuel generalizing i v with
  | zero => cases h
  | succ fuel ih =>
    rw [denote] at h ⊢
    cases hview : view i with
    | none => simp [hview] at h
    | some w =>
      cases w with
      | leaf a => simpa [hview] using h
      | app op args =>
        simp only [hview, Option.bind_eq_some_iff] at h ⊢
        obtain ⟨vs, hvs, hop⟩ := h
        refine ⟨vs, ?_, hop⟩
        rw [mapM_eq_some_iff] at hvs ⊢
        exact hvs.imp fun _ _ => ih

theorem denote_mono {fuel fuel' : ℕ} (hle : fuel ≤ fuel')
    (h : denote view leafVal I fuel i = some v) : denote view leafVal I fuel' i = some v := by
  induction hle with
  | refl => exact h
  | step _ ih => exact denote_succ ih

theorem Denotes.unique (h : Denotes view leafVal I i v) (h' : Denotes view leafVal I i w) :
    v = w := by
  obtain ⟨fuel, h⟩ := h
  obtain ⟨fuel', h'⟩ := h'
  have h₁ := denote_mono (Nat.le_max_left fuel fuel') h
  have h₂ := denote_mono (Nat.le_max_right fuel fuel') h'
  exact Option.some.inj (h₁.symm.trans h₂)

/-- Finitely many nodes evaluate with one amount of fuel. -/
theorem exists_fuel {args : List ι} {vs : List β}
    (h : List.Forall₂ (Denotes view leafVal I) args vs) :
    ∃ fuel, List.Forall₂ (fun i v => denote view leafVal I fuel i = some v) args vs := by
  induction h with
  | nil => exact ⟨0, .nil⟩
  | cons hv _ ih =>
    obtain ⟨fuel, hv⟩ := hv
    obtain ⟨fuel', hvs⟩ := ih
    refine ⟨max fuel fuel', .cons (denote_mono (Nat.le_max_left ..) hv) ?_⟩
    exact hvs.imp fun _ _ => denote_mono (Nat.le_max_right ..)

/-! ### The equations -/

theorem Denotes.view_isSome (h : Denotes view leafVal I i v) : (view i).isSome := by
  obtain ⟨fuel, h⟩ := h
  cases fuel with
  | zero => cases h
  | succ fuel =>
    rw [denote] at h
    cases hview : view i with
    | none => simp [hview] at h
    | some _ => rfl

theorem denotes_leaf {a : α} (hview : view i = some (.leaf a)) :
    Denotes view leafVal I i v ↔ v = leafVal a := by
  constructor
  · rintro ⟨fuel, h⟩
    cases fuel with
    | zero => cases h
    | succ fuel =>
      simp only [denote, hview, Option.some.injEq] at h
      exact h.symm
  · rintro rfl
    exact ⟨1, by simp [denote, hview]⟩

theorem denotes_app {op : ω} {args : List ι} (hview : view i = some (.app op args)) :
    Denotes view leafVal I i v ↔
      ∃ vs, List.Forall₂ (Denotes view leafVal I) args vs ∧ I op vs = some v := by
  constructor
  · rintro ⟨fuel, h⟩
    cases fuel with
    | zero => cases h
    | succ fuel =>
      simp only [denote, hview, Option.bind_eq_some_iff] at h
      obtain ⟨vs, hvs, hop⟩ := h
      exact ⟨vs, (mapM_eq_some_iff.mp hvs).imp fun _ _ h => ⟨fuel, h⟩, hop⟩
  · rintro ⟨vs, hvs, hop⟩
    obtain ⟨fuel, hvs⟩ := exists_fuel hvs
    refine ⟨fuel + 1, ?_⟩
    simp only [denote, hview, Option.bind_eq_some_iff]
    exact ⟨vs, mapM_eq_some_iff.mpr hvs, hop⟩

/-- **Induction on the evaluation** of a node. -/
theorem Denotes.induct {P : ι → β → Prop} (h : Denotes view leafVal I i v)
    (leaf : ∀ i a, view i = some (.leaf a) → P i (leafVal a))
    (app : ∀ i op args vs v, view i = some (.app op args) →
      List.Forall₂ (Denotes view leafVal I) args vs → List.Forall₂ P args vs →
        I op vs = some v → P i v) : P i v := by
  obtain ⟨fuel, h⟩ := h
  induction fuel generalizing i v with
  | zero => cases h
  | succ fuel ih =>
    rw [denote] at h
    cases hview : view i with
    | none => simp [hview] at h
    | some w =>
      cases w with
      | leaf a =>
        simp only [hview, Option.some.injEq] at h
        exact h ▸ leaf i a hview
      | app op args =>
        simp only [hview, Option.bind_eq_some_iff] at h
        obtain ⟨vs, hvs, hop⟩ := h
        rw [mapM_eq_some_iff] at hvs
        exact app i op args vs v hview (hvs.imp fun _ _ h => ⟨fuel, h⟩)
          (hvs.imp fun _ _ => ih) hop

/-! ### Changing the values and the graph -/

/-- A homomorphism of interpretations maps denotations to denotations. -/
theorem Denotes.map {J : ω → List γ → Option γ} (φ : β → γ)
    (hφ : ∀ op vs v, I op vs = some v → J op (vs.map φ) = some (φ v))
    (h : Denotes view leafVal I i v) : Denotes view (φ ∘ leafVal) J i (φ v) := by
  refine h.induct (P := fun i v => Denotes view (φ ∘ leafVal) J i (φ v)) ?_ ?_
  · intro i a hview
    exact (denotes_leaf hview).mpr rfl
  · intro i op args vs v hview _ hargs hop
    refine (denotes_app hview).mpr ⟨vs.map φ, ?_, hφ op vs v hop⟩
    exact List.forall₂_map_right_iff.mpr hargs

/-- A graph that extends another one gives its nodes the same values. -/
theorem Denotes.extend {view' : ι → Option (View α ω ι)}
    (hview : ∀ i w, view i = some w → view' i = some w) (h : Denotes view leafVal I i v) :
    Denotes view' leafVal I i v := by
  refine h.induct (P := Denotes view' leafVal I) ?_ ?_
  · intro i a h
    exact (denotes_leaf (hview _ _ h)).mpr rfl
  · intro i op args vs v h _ hargs hop
    exact (denotes_app (hview _ _ h)).mpr ⟨vs, hargs, hop⟩

/-- Nodes of a closed set on which two graphs agree have the same values. -/
theorem Denotes.restrict {view' : ι → Option (View α ω ι)} {S : ι → Prop}
    (hagree : ∀ i, S i → view' i = view i)
    (hclosed : ∀ i op args, S i → view i = some (.app op args) → ∀ j ∈ args, S j)
    (hi : S i) (h : Denotes view' leafVal I i v) : Denotes view leafVal I i v := by
  refine h.induct (P := fun i v => S i → Denotes view leafVal I i v) ?_ ?_ hi
  · intro i a hview hS
    exact (denotes_leaf ((hagree i hS).symm.trans hview)).mpr rfl
  · intro i op args vs v hview _ hargs hop hS
    have hview' := (hagree i hS).symm.trans hview
    refine (denotes_app hview').mpr ⟨vs, ?_, hop⟩
    have hmem := hclosed i op args hS hview'
    refine forall₂_imp_mem (R := fun i v => S i → Denotes view leafVal I i v) ?_ hargs
    exact fun j hj v hv => hv (hmem j hj)

/-- **Totality.**  In a closed graph with a rank that falls along the arguments every node denotes,
    when the operators are defined on what they are applied to. -/
theorem Denotes.of_ranked (rank : ι → ℕ)
    (hclosed : ∀ i op args, view i = some (.app op args) →
      ∀ j ∈ args, (view j).isSome ∧ rank j < rank i)
    (hdef : ∀ i op args vs, view i = some (.app op args) →
      List.Forall₂ (Denotes view leafVal I) args vs → ∃ v, I op vs = some v)
    (hi : (view i).isSome) : ∃ v, Denotes view leafVal I i v := by
  induction hr : rank i using Nat.strongRecOn generalizing i with
  | _ r ih =>
    cases hview : view i with
    | none =>
      rw [hview] at hi
      cases hi
    | some w =>
      cases w with
      | leaf a => exact ⟨_, (denotes_leaf hview).mpr rfl⟩
      | app op args =>
        have hargs : ∀ l : List ι, (∀ j ∈ l, j ∈ args) →
            ∃ vs, List.Forall₂ (Denotes view leafVal I) l vs := by
          intro l
          induction l with
          | nil => exact fun _ => ⟨[], .nil⟩
          | cons j l ihl =>
            intro hl
            obtain ⟨hj, hlt⟩ := hclosed i op args hview j (hl j List.mem_cons_self)
            obtain ⟨v, hv⟩ := ih (rank j) (hr ▸ hlt) hj rfl
            obtain ⟨vs, hvs⟩ := ihl fun k hk => hl k (List.mem_cons_of_mem _ hk)
            exact ⟨v :: vs, .cons hv hvs⟩
        obtain ⟨vs, hvs⟩ := hargs args fun _ h => h
        obtain ⟨v, hv⟩ := hdef i op args vs hview hvs
        exact ⟨v, (denotes_app hview).mpr ⟨vs, hvs, hv⟩⟩

/-! ### Terms -/

/-- Terms over leaves `α` and operators `ω`. -/
inductive Term (α ω : Type*) where
  | leaf (a : α)
  | app (op : ω) (args : List (Term α ω))

/-- The value of a term under a total interpretation. -/
def Term.eval (leafVal : α → β) (I : ω → List β → β) : Term α ω → β
  | .leaf a => leafVal a
  | .app op args => I op (args.map (Term.eval leafVal I))

/-- Node `i` unfolds to `t`, where `mk` builds the terms. -/
abbrev Unfolds (view : ι → Option (View α ω ι)) (mk : ω → List (Term α ω) → Term α ω) (i : ι)
    (t : Term α ω) : Prop :=
  Denotes view Term.leaf (fun op ts => some (mk op ts)) i t

/-- **Unfolding is initial**: a node evaluates to the value of its term, when `mk` respects the
    interpretation. -/
theorem Unfolds.eval {mk : ω → List (Term α ω) → Term α ω} {t : Term α ω} {J : ω → List β → β}
    (hmk : ∀ op ts, (mk op ts).eval leafVal J = J op (ts.map (Term.eval leafVal J)))
    (h : Unfolds view mk i t) :
    Denotes view leafVal (fun op vs => some (J op vs)) i (t.eval leafVal J) := by
  have hleaf : leafVal = Term.eval leafVal J ∘ Term.leaf := by
    ext a
    simp [Term.eval]
  have hmap := h.map (J := fun op vs => some (J op vs)) (Term.eval leafVal J) ?_
  · rwa [← hleaf] at hmap
  · rintro op ts t heq
    rw [← Option.some.inj heq, hmk]

end Denotation
