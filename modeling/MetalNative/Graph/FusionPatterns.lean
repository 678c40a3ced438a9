import MetalNative.Core.Error

namespace MetalNative

/-!
# `FusionRegistry`: fusible sequences of operations

A translation of `fusion_patterns.mm`.  The registry holds patterns in the order of their
registration; `find_all_fusions` scans a sequence of operations from left to right and takes the
first registered pattern that matches at each position.

* `FusionMatch.Valid` — the operations of a match are those of its pattern.
* `findAllFusions_isSome` — the scan ends when no pattern is empty.
* `findAllFusions_spec` — its matches are valid and in order, without overlap.
-/

/-- `OpType`: the operations a graph node or a fusion pattern can name. -/
inductive OpType where
  | Unknown
  | Conv2D
  | BatchNorm
  | ReLU
  | GELU
  | Softmax
  | MatMul
  | Linear
  | BiasAdd
  | LayerNorm
  | Add
  | Mul
  | SiLU
  | RMSNorm
  | FusedResidualRMSNorm
  | RoPE
  | SwiGLU
  | Residual
  | Sub
  | Div
  | Exp
  | Log
  | Neg
  | Abs
  | Sqrt
  deriving DecidableEq, Repr

/-- `op_type_name`. -/
def opTypeName : OpType → String
  | .Unknown => "Unknown"
  | .Conv2D => "Conv2D"
  | .BatchNorm => "BatchNorm"
  | .ReLU => "ReLU"
  | .GELU => "GELU"
  | .Softmax => "Softmax"
  | .MatMul => "MatMul"
  | .Linear => "Linear"
  | .BiasAdd => "BiasAdd"
  | .LayerNorm => "LayerNorm"
  | .Add => "Add"
  | .Mul => "Mul"
  | .SiLU => "SiLU"
  | .RMSNorm => "RMSNorm"
  | .FusedResidualRMSNorm => "FusedResidualRMSNorm"
  | .RoPE => "RoPE"
  | .SwiGLU => "SwiGLU"
  | .Residual => "Residual"
  | .Sub => "Sub"
  | .Div => "Div"
  | .Exp => "Exp"
  | .Log => "Log"
  | .Neg => "Neg"
  | .Abs => "Abs"
  | .Sqrt => "Sqrt"

/-- `FusionPattern`, without the speed-up estimate that no decision reads. -/
structure FusionPattern where
  sequence : List OpType
  fusedName : String
  deriving DecidableEq, Repr

/-- A `FusionMatch` with `matched` set. -/
structure FusionMatch where
  startIndex : ℕ
  length : ℕ
  pattern : FusionPattern
  deriving DecidableEq, Repr

/-! ### Matching -/

/-- `matches_at`. -/
def matchesAt (ops : List OpType) (start : ℕ) (pattern : FusionPattern) : Bool :=
  if start + pattern.sequence.length > ops.length then false
  else (List.range pattern.sequence.length).all fun i =>
    ops[start + i]? == pattern.sequence[i]?

/-- `try_fuse`; `none` is a result that did not match. -/
def tryFuse (patterns : List FusionPattern) (ops : List OpType) (startIndex : ℕ) :
    Option FusionMatch :=
  if startIndex ≥ ops.length then none
  else (patterns.find? (matchesAt ops startIndex)).map fun pattern =>
    { startIndex, length := pattern.sequence.length, pattern }

/-- The loop of `find_all_fusions` from position `i`; `none` when it is not over after `fuel`
    rounds. -/
def scanFusions (patterns : List FusionPattern) (ops : List OpType) :
    ℕ → ℕ → Option (List FusionMatch)
  | 0, i => if i < ops.length then none else some []
  | fuel + 1, i =>
    if i < ops.length then
      match tryFuse patterns ops i with
      | some m => (scanFusions patterns ops fuel (i + m.length)).map (m :: ·)
      | none => scanFusions patterns ops fuel (i + 1)
    else some []

/-- `find_all_fusions`. -/
def findAllFusions (patterns : List FusionPattern) (ops : List OpType) (fuel : ℕ) :
    Option (List FusionMatch) :=
  scanFusions patterns ops fuel 0

/-- `register_builtin_patterns`. -/
def builtinPatterns : List FusionPattern :=
  [⟨[.Add, .RMSNorm], "FusedResidualRMSNorm"⟩,
   ⟨[.Add, .LayerNorm], "FusedResidualLayerNorm"⟩,
   ⟨[.MatMul, .BiasAdd, .GELU], "FusedGEMMBiasGELU"⟩,
   ⟨[.MatMul, .GELU], "FusedMatMulGELU"⟩,
   ⟨[.SiLU, .Mul], "FusedSwiGLU"⟩,
   ⟨[.Conv2D, .BatchNorm, .ReLU], "FusedConvBNReLU"⟩,
   ⟨[.Conv2D, .ReLU], "FusedConvReLU"⟩,
   ⟨[.Linear, .GELU], "FusedLinearGELU"⟩,
   ⟨[.MatMul, .BiasAdd, .ReLU], "FusedGEMMBiasReLU"⟩,
   ⟨[.MatMul, .BiasAdd], "FusedGEMMBias"⟩,
   ⟨[.Conv2D, .BatchNorm], "FusedConvBN"⟩]

/-! ### What a scan finds -/

variable {patterns : List FusionPattern} {ops : List OpType}

/-- A match inside the sequence, whose operations are those of a registered pattern. -/
structure FusionMatch.Valid (m : FusionMatch) (patterns : List FusionPattern)
    (ops : List OpType) : Prop where
  registered : m.pattern ∈ patterns
  length_eq : m.length = m.pattern.sequence.length
  inside : m.startIndex + m.length ≤ ops.length
  ops_eq : ∀ i < m.length, ops[m.startIndex + i]? = m.pattern.sequence[i]?

theorem matchesAt_iff {start : ℕ} {pattern : FusionPattern} :
    matchesAt ops start pattern = true ↔
      start + pattern.sequence.length ≤ ops.length ∧
        ∀ i < pattern.sequence.length, ops[start + i]? = pattern.sequence[i]? := by
  unfold matchesAt
  split_ifs with hlong
  · simp only [false_iff]
    intro h
    omega
  · simp only [List.all_eq_true, List.mem_range, beq_iff_eq]
    exact ⟨fun h => ⟨by omega, h⟩, fun h => h.2⟩

/-- A match starts where it was looked for. -/
theorem tryFuse_spec {i : ℕ} {m : FusionMatch} (h : tryFuse patterns ops i = some m) :
    m.Valid patterns ops ∧ m.startIndex = i := by
  unfold tryFuse at h
  split_ifs at h with hi
  obtain ⟨pattern, hfind, rfl⟩ := Option.map_eq_some_iff.mp h
  obtain ⟨hlong, hops⟩ := matchesAt_iff.mp (List.find?_some hfind)
  exact ⟨⟨List.mem_of_find?_eq_some hfind, rfl, hlong, hops⟩, rfl⟩

/-- Without an empty pattern each round advances, and the scan ends. -/
theorem scanFusions_isSome (hne : ∀ p ∈ patterns, p.sequence ≠ []) :
    ∀ (fuel i : ℕ), ops.length ≤ i + fuel → (scanFusions patterns ops fuel i).isSome := by
  intro fuel
  induction fuel with
  | zero =>
    intro i hi
    rw [scanFusions, if_neg (by omega)]
    rfl
  | succ fuel ih =>
    intro i hi
    rw [scanFusions]
    split_ifs with hlt
    · cases hm : tryFuse patterns ops i with
      | none => exact ih (i + 1) (by omega)
      | some m =>
        have hvalid := (tryFuse_spec hm).1
        have hpos := List.length_pos_of_ne_nil (hne _ hvalid.registered)
        have hlen := hvalid.length_eq
        simp only [Option.isSome_map]
        exact ih (i + m.length) (by omega)
    · rfl

theorem findAllFusions_isSome (hne : ∀ p ∈ patterns, p.sequence ≠ []) :
    (findAllFusions patterns ops ops.length).isSome :=
  scanFusions_isSome hne _ _ (by omega)

/-- The matches found from position `i` are valid, start no earlier and do not overlap. -/
theorem scanFusions_spec : ∀ (fuel i : ℕ) (ms : List FusionMatch),
    scanFusions patterns ops fuel i = some ms →
      (∀ m ∈ ms, m.Valid patterns ops ∧ i ≤ m.startIndex) ∧
        ms.Pairwise fun m m' => m.startIndex + m.length ≤ m'.startIndex := by
  intro fuel
  induction fuel with
  | zero =>
    intro i ms h
    rw [scanFusions] at h
    split_ifs at h
    obtain rfl := Option.some.inj h
    simp
  | succ fuel ih =>
    intro i ms h
    rw [scanFusions] at h
    split_ifs at h with hlt
    · cases hm : tryFuse patterns ops i with
      | none =>
        simp only [hm] at h
        obtain ⟨hall, hpair⟩ := ih _ _ h
        refine ⟨fun m hmem => ?_, hpair⟩
        obtain ⟨hvalid, hle⟩ := hall m hmem
        exact ⟨hvalid, by omega⟩
      | some m =>
        simp only [hm, Option.map_eq_some_iff] at h
        obtain ⟨rest, hrest, rfl⟩ := h
        obtain ⟨hvalid, hstart⟩ := tryFuse_spec hm
        obtain ⟨hall, hpair⟩ := ih _ _ hrest
        refine ⟨?_, List.pairwise_cons.mpr ⟨?_, hpair⟩⟩
        · intro m' hmem
          rcases List.mem_cons.mp hmem with rfl | hmem
          · exact ⟨hvalid, hstart.ge⟩
          · obtain ⟨hvalid', hle⟩ := hall m' hmem
            exact ⟨hvalid', by omega⟩
        · intro m' hmem
          have := (hall m' hmem).2
          omega
    · obtain rfl := Option.some.inj h
      simp

/-- **The scan.**  Its matches are valid and in order, without overlap. -/
theorem findAllFusions_spec {fuel : ℕ} {ms : List FusionMatch}
    (h : findAllFusions patterns ops fuel = some ms) :
    (∀ m ∈ ms, m.Valid patterns ops) ∧
      ms.Pairwise fun m m' => m.startIndex + m.length ≤ m'.startIndex := by
  obtain ⟨hall, hpair⟩ := scanFusions_spec fuel 0 ms h
  exact ⟨fun m hm => (hall m hm).1, hpair⟩

/-- No built-in pattern is empty. -/
theorem builtinPatterns_ne_nil : ∀ p ∈ builtinPatterns, p.sequence ≠ [] := by decide

end MetalNative
