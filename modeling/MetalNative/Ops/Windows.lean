import MetalNative.Ops.Pooling
import Mathlib.Data.Set.Card

namespace MetalNative

/-!
# The windows of convolutions and poolings

The output of a convolution or a pooling has one element for each position of the window along a
dimension.  The hosts compute that number from an `int64_t` size and `size_t` parameters, in
`size_t`.

* `windowPositions` — the positions of a window.
* `SoundWindow` — what the computation of an output size must satisfy: no division by zero, no
  exact value that a `size_t` or the final `int64_t` does not hold, and the right number.
* `WindowFits` — when it does.
* `window_arithmetic` — the three operators throw or compute soundly exactly where they refuse the
  call or the window fits.
-/

/-! ### Windows -/

/-- The positions at which a window lies inside the padded input. -/
def windowPositions (size kernel stride padding dilation : ℤ) : Set ℕ :=
  {p : ℕ | p * stride + dilation * (kernel - 1) + 1 ≤ size + 2 * padding}

/-- The computation of an output size.  `values` are the exact values of its steps and `result` the
    last of them; `output` is what the code gets. -/
structure SoundWindow (values : List ℤ) (stride result output : ℤ) (positions : Set ℕ) : Prop where
  divides : stride ≠ 0
  unsigned : ∀ v ∈ values, 0 ≤ v ∧ v < 2 ^ 64
  signed : result < 2 ^ 63
  counts : positions.encard = output.toNat
  one_le : 1 ≤ output

/-- The window fits: the stride is not zero, the padded input holds a window of `extent` elements
    and is a `size_t`, and the number of positions is an `int64_t`. -/
def WindowFits (size extent stride padding : ℕ) : Prop :=
  0 < stride ∧ extent ≤ size + 2 * padding ∧ size + 2 * padding < 2 ^ 64 ∧
    size + 2 * padding - extent < stride * (2 ^ 63 - 1)

section Window

variable {size extent stride padding : ℕ}

/-- The positions are the numbers below the quotient. -/
theorem encard_positions (hstride : 0 < stride) (h : extent ≤ size + 2 * padding) :
    {p : ℕ | p * stride + extent ≤ size + 2 * padding}.encard
      = (((size + 2 * padding - extent) / stride + 1 : ℕ) : ℕ∞) := by
  have hset : {p : ℕ | p * stride + extent ≤ size + 2 * padding}
      = (Finset.range ((size + 2 * padding - extent) / stride + 1) : Set ℕ) := by
    ext p
    rw [Set.mem_ofPred_eq, Finset.coe_range, Set.mem_Iio, Nat.lt_succ_iff,
      Nat.le_div_iff_mul_le hstride]
    omega
  rw [hset, Set.encard_coe_eq_coe_finsetCard, Finset.card_range]

/-- The quotient is below `2 ^ 63 - 1` where the window fits. -/
theorem WindowFits.quotient_lt (h : WindowFits size extent stride padding) :
    (size + 2 * padding - extent) / stride + 1 < 2 ^ 63 := by
  obtain ⟨hstride, -, -, hlt⟩ := h
  have hdiv : (size + 2 * padding - extent) / stride < 2 ^ 63 - 1 := by
    rwa [Nat.div_lt_iff_lt_mul hstride, Nat.mul_comm (2 ^ 63 - 1) stride]
  omega

/-- And only there. -/
theorem lt_of_quotient_lt (hstride : 0 < stride)
    (h : (size + 2 * padding - extent) / stride + 1 < 2 ^ 63) :
    size + 2 * padding - extent < stride * (2 ^ 63 - 1) := by
  have hdiv : (size + 2 * padding - extent) / stride < 2 ^ 63 - 1 := by omega
  rwa [Nat.div_lt_iff_lt_mul hstride, Nat.mul_comm (2 ^ 63 - 1) stride] at hdiv

end Window

/-! ### Pooling -/

section Pool

variable {size : ℕ} {kernel stride padding : UInt64}

/-- The exact values of the steps of `poolOutput`. -/
def poolValues (size kernel stride padding : ℤ) : List ℤ :=
  [2 * padding, size + 2 * padding, size + 2 * padding - kernel,
    (size + 2 * padding - kernel) / stride, (size + 2 * padding - kernel) / stride + 1]

/-- Where the window fits, the code computes the number of its positions. -/
theorem poolOutput_eq (h : WindowFits size kernel.toNat stride.toNat padding.toNat) :
    poolOutput size kernel stride padding
      = ((size + 2 * padding.toNat - kernel.toNat) / stride.toNat + 1 : ℕ) := by
  have hquotient := h.quotient_lt
  obtain ⟨-, hle, hlt, -⟩ := h
  have hsum : (UInt64.ofNat size + 2 * padding).toNat = size + 2 * padding.toNat := by
    rw [UInt64.toNat_add, UInt64.toNat_mul, UInt64.toNat_ofNat']
    have htwo : (2 : UInt64).toNat = 2 := rfl
    rw [htwo]
    omega
  have hsub : (UInt64.ofNat size + 2 * padding - kernel).toNat
      = size + 2 * padding.toNat - kernel.toNat := by
    rw [UInt64.toNat_sub_of_le _ _ (by rw [UInt64.le_iff_toNat_le, hsum]; exact hle), hsum]
  have hlast : ((UInt64.ofNat size + 2 * padding - kernel) / stride + 1).toNat
      = (size + 2 * padding.toNat - kernel.toNat) / stride.toNat + 1 := by
    rw [UInt64.toNat_add, UInt64.toNat_div, hsub]
    exact Nat.mod_eq_of_lt (Nat.lt_trans hquotient (by decide))
  unfold poolOutput
  rw [hlast]
  exact toInt64_natCast hquotient

/-- The computation of a pooling. -/
def SoundPool (size : ℕ) (kernel stride padding : UInt64) : Prop :=
  SoundWindow (poolValues size kernel.toNat stride.toNat padding.toNat) stride.toNat
    ((size + 2 * padding.toNat - kernel.toNat : ℤ) / stride.toNat + 1)
    (poolOutput size kernel stride padding)
    (windowPositions size kernel.toNat stride.toNat padding.toNat 1)

/-- **Pooling** computes soundly exactly where the window fits. -/
theorem soundPool_iff :
    SoundPool size kernel stride padding
      ↔ WindowFits size kernel.toNat stride.toNat padding.toNat := by
  constructor
  · rintro ⟨hdivides, hunsigned, hsigned, -, -⟩
    have hstride : 0 < stride.toNat := by omega
    have hpadded := hunsigned (size + 2 * padding.toNat) (by simp [poolValues])
    have hroom := hunsigned (size + 2 * padding.toNat - kernel.toNat) (by simp [poolValues])
    refine ⟨hstride, by omega, by omega, lt_of_quotient_lt hstride ?_⟩
    -- the exact quotient is that of natural numbers
    have hcast : ((size : ℤ) + 2 * padding.toNat - kernel.toNat)
        = ((size + 2 * padding.toNat - kernel.toNat : ℕ) : ℤ) := by omega
    rw [hcast, ← Int.natCast_div] at hsigned
    omega
  · intro h
    have hquotient := h.quotient_lt
    have houtput := poolOutput_eq h
    obtain ⟨hstride, hle, hlt, -⟩ := h
    have hcast : ((size : ℤ) + 2 * padding.toNat - kernel.toNat)
        = ((size + 2 * padding.toNat - kernel.toNat : ℕ) : ℤ) := by omega
    have hpositions : windowPositions size kernel.toNat stride.toNat padding.toNat 1
        = {p : ℕ | p * stride.toNat + kernel.toNat ≤ size + 2 * padding.toNat} := by
      ext p
      unfold windowPositions
      rw [Set.mem_ofPred_eq, Set.mem_ofPred_eq, ← Int.ofNat_le]
      push_cast
      constructor <;> intro hp <;> linarith
    have hcount := encard_positions hstride hle
    unfold SoundPool poolValues
    rw [hpositions, houtput, hcast, ← Int.natCast_div]
    -- the quotient is a number like the others
    generalize (size + 2 * padding.toNat - kernel.toNat) / stride.toNat = q at hquotient hcount ⊢
    constructor
    · omega
    · intro v hv
      simp only [List.mem_cons, List.not_mem_nil, or_false] at hv
      rcases hv with rfl | rfl | rfl | rfl | rfl <;> omega
    · omega
    · rw [hcount, Int.toNat_natCast]
    · omega

end Pool

/-! ### Convolution -/

/-- `H_out` and `W_out` of `conv2d`: the `int64_t` differences and sums are converted to a
    `size_t`. -/
def convOutput (size kernel : ℕ) (stride padding dilation : UInt64) : ℤ :=
  toInt64 ((UInt64.ofNat size + 2 * padding - dilation * (UInt64.ofNat kernel - 1) - 1) / stride
    + 1).toNat

section Conv

variable {size kernel : ℕ} {stride padding dilation : UInt64}

/-- The exact values of the steps of `convOutput`. -/
def convValues (size kernel stride padding dilation : ℤ) : List ℤ :=
  [2 * padding, size + 2 * padding, kernel - 1, dilation * (kernel - 1),
    size + 2 * padding - dilation * (kernel - 1), size + 2 * padding - dilation * (kernel - 1) - 1,
    (size + 2 * padding - dilation * (kernel - 1) - 1) / stride,
    (size + 2 * padding - dilation * (kernel - 1) - 1) / stride + 1]

/-- The elements between the ends of a window. -/
def windowExtent (kernel dilation : ℕ) : ℕ := dilation * (kernel - 1) + 1

/-- Where the window fits, the code computes the number of its positions. -/
theorem convOutput_eq (hkernel : 1 ≤ kernel) (hsize : kernel < 2 ^ 63)
    (h : WindowFits size (windowExtent kernel dilation.toNat) stride.toNat padding.toNat) :
    convOutput size kernel stride padding dilation
      = ((size + 2 * padding.toNat - windowExtent kernel dilation.toNat) / stride.toNat +
        1 : ℕ) := by
  have hquotient := h.quotient_lt
  obtain ⟨-, hle, hlt, -⟩ := h
  unfold windowExtent at hle hquotient ⊢
  have hone : (1 : UInt64).toNat = 1 := rfl
  have htwo : (2 : UInt64).toNat = 2 := rfl
  have hsum : (UInt64.ofNat size + 2 * padding).toNat = size + 2 * padding.toNat := by
    rw [UInt64.toNat_add, UInt64.toNat_mul, UInt64.toNat_ofNat', htwo]
    omega
  have hpred : (UInt64.ofNat kernel - 1).toNat = kernel - 1 := by
    have hofNat : (UInt64.ofNat kernel).toNat = kernel := by
      rw [UInt64.toNat_ofNat']
      omega
    rw [UInt64.toNat_sub_of_le _ _ (by rw [UInt64.le_iff_toNat_le, hofNat, hone]; exact hkernel),
      hofNat, hone]
  have hproduct : (dilation * (UInt64.ofNat kernel - 1)).toNat
      = dilation.toNat * (kernel - 1) := by
    rw [UInt64.toNat_mul, hpred]
    apply Nat.mod_eq_of_lt
    omega
  have hsub : (UInt64.ofNat size + 2 * padding - dilation * (UInt64.ofNat kernel - 1)).toNat
      = size + 2 * padding.toNat - dilation.toNat * (kernel - 1) := by
    rw [UInt64.toNat_sub_of_le _ _ (by rw [UInt64.le_iff_toNat_le, hsum, hproduct]; omega), hsum,
      hproduct]
  have hsub' : (UInt64.ofNat size + 2 * padding - dilation * (UInt64.ofNat kernel - 1) - 1).toNat
      = size + 2 * padding.toNat - (dilation.toNat * (kernel - 1) + 1) := by
    rw [UInt64.toNat_sub_of_le _ _ (by rw [UInt64.le_iff_toNat_le, hsub, hone]; omega), hsub, hone]
    omega
  have hlast : ((UInt64.ofNat size + 2 * padding - dilation * (UInt64.ofNat kernel - 1) - 1)
        / stride + 1).toNat
      = (size + 2 * padding.toNat - (dilation.toNat * (kernel - 1) + 1)) / stride.toNat + 1 := by
    rw [UInt64.toNat_add, UInt64.toNat_div, hsub']
    exact Nat.mod_eq_of_lt (Nat.lt_trans hquotient (by decide))
  unfold convOutput
  rw [hlast]
  exact toInt64_natCast hquotient

/-- The computation of a convolution. -/
def SoundConv (size kernel : ℕ) (stride padding dilation : UInt64) : Prop :=
  SoundWindow (convValues size kernel stride.toNat padding.toNat dilation.toNat) stride.toNat
    ((size + 2 * padding.toNat - dilation.toNat * (kernel - 1) - 1 : ℤ) / stride.toNat + 1)
    (convOutput size kernel stride padding dilation)
    (windowPositions size kernel stride.toNat padding.toNat dilation.toNat)

/-- **Convolution** computes soundly exactly where the kernel is not empty and its window fits. -/
theorem soundConv_iff (hsize : kernel < 2 ^ 63) :
    SoundConv size kernel stride padding dilation ↔
      1 ≤ kernel ∧
        WindowFits size (windowExtent kernel dilation.toNat) stride.toNat padding.toNat := by
  constructor
  · rintro ⟨hdivides, hunsigned, hsigned, -, -⟩
    have hstride : 0 < stride.toNat := by omega
    have hkernel := hunsigned (kernel - 1) (by simp [convValues])
    have hpadded := hunsigned (size + 2 * padding.toNat) (by simp [convValues])
    have hroom := hunsigned (size + 2 * padding.toNat - dilation.toNat * (kernel - 1) - 1)
      (by simp [convValues])
    have hone : 1 ≤ kernel := by omega
    have hpred : ((kernel : ℤ) - 1) = ((kernel - 1 : ℕ) : ℤ) := by omega
    rw [hpred, ← Nat.cast_mul] at hroom hsigned
    refine ⟨hone, hstride, ?_, by omega, lt_of_quotient_lt hstride ?_⟩
    · unfold windowExtent
      omega
    · have hcast : ((size : ℤ) + 2 * padding.toNat - (dilation.toNat * (kernel - 1) : ℕ) - 1)
          = ((size + 2 * padding.toNat - windowExtent kernel dilation.toNat : ℕ) : ℤ) := by
        unfold windowExtent
        omega
      rw [hcast, ← Int.natCast_div] at hsigned
      omega
  · rintro ⟨hkernel, h⟩
    have hquotient := h.quotient_lt
    have houtput := convOutput_eq hkernel hsize h
    obtain ⟨hstride, hle, hlt, -⟩ := h
    have hpred : ((kernel : ℤ) - 1) = ((kernel - 1 : ℕ) : ℤ) := by omega
    have hcast : ((size : ℤ) + 2 * padding.toNat - (dilation.toNat * (kernel - 1) : ℕ) - 1)
        = ((size + 2 * padding.toNat - windowExtent kernel dilation.toNat : ℕ) : ℤ) := by
      unfold windowExtent at hle ⊢
      omega
    have hpositions : windowPositions size kernel stride.toNat padding.toNat dilation.toNat
        = {p : ℕ | p * stride.toNat + windowExtent kernel dilation.toNat
            ≤ size + 2 * padding.toNat} := by
      ext p
      unfold windowPositions windowExtent
      rw [Set.mem_ofPred_eq, Set.mem_ofPred_eq, ← Int.ofNat_le, hpred]
      push_cast
      constructor <;> intro hp <;> linarith
    have hcount := encard_positions hstride hle
    unfold SoundConv convValues
    rw [hpositions, houtput, hpred, ← Nat.cast_mul, hcast, ← Int.natCast_div]
    -- the quotient is a number like the others
    generalize (size + 2 * padding.toNat - windowExtent kernel dilation.toNat) / stride.toNat = q
      at hquotient hcount ⊢
    unfold windowExtent at hle hcount ⊢
    constructor
    · omega
    · intro v hv
      simp only [List.mem_cons, List.not_mem_nil, or_false] at hv
      rcases hv with rfl | rfl | rfl | rfl | rfl | rfl | rfl | rfl <;> omega
    · omega
    · rw [hcount, Int.toNat_natCast]
    · omega

end Conv

/-! ### The calls -/

/-- What the callees of `conv2d` answer. -/
structure ConvAnswers where
  /-- The key is in the cache. -/
  cached : Bool := false
  /-- The tensor at the end of a new graph is not `nil`. -/
  graph : Bool := true
  allocate : MNShape → MNDType → Except MNException Unit
  /-- The command pipeline, and the exception of `encodeToCommandBuffer` that is turned into an
      `InternalError`. -/
  encode : Except MNException Unit := .ok ()

namespace Conv2dCall

variable {α : Type}

/-- The size of the output along spatial dimension `i`. -/
def outputAt (c : Conv2dCall α) (i : ℕ) : ℤ :=
  convOutput (c.input.dim (2 + i)) (c.weight.dim (2 + i)) (c.strideAt i) (c.paddingAt i)
    (c.dilationAt i)

/-- `output_shape`. -/
def outputShape (c : Conv2dCall α) : MNShape :=
  [c.input.dim 0, c.weight.dim 0, c.outputAt 0, c.outputAt 1]

/-- The graph from the cache, or a new one. -/
def obtainGraph (c : Conv2dCall α) (a : ConvAnswers) : Except MNException Unit :=
  if a.cached then .ok ()
  else do
    let _graph ← c.build
    if a.graph = false then throw ⟨.InternalError, "conv2d: MPSGraph operation failed"⟩

/-- The data type of the bias, where there is one. -/
def biasDatatype (c : Conv2dCall α) : Except MNException Unit :=
  if c.hasBias then (toMpsDatatype c.bias.dtype).map fun _ => () else .ok ()

/-- `conv2d`, up to the shape that it returns. -/
def run (c : Conv2dCall α) (a : ConvAnswers) : Except MNException MNShape := do
  c.check
  c.obtainGraph a
  let _dataType ← toMpsDatatype c.input.dtype
  emptyTensorCheck c.outputShape c.input.dtype (a.allocate c.outputShape c.input.dtype)
  c.biasDatatype
  a.encode
  return c.outputShape

/-- The call is refused by a check, for a data type, or by a callee. -/
inductive Refused (c : Conv2dCall α) (a : ConvAnswers) : Prop
  | check (h : ∃ e, c.check = .error e)
  | graph (h : ∃ e, c.obtainGraph a = .error e)
  | dtype (h : ∃ e, toMpsDatatype c.input.dtype = .error e)
  | allocate (h : ∃ e, emptyTensorCheck c.outputShape c.input.dtype
      (a.allocate c.outputShape c.input.dtype) = .error e)
  | bias (h : ∃ e, c.biasDatatype = .error e)
  | encode (h : ∃ e, a.encode = .error e)

/-- The computation of the output size along spatial dimension `i`. -/
def SoundAt (c : Conv2dCall α) (i : ℕ) : Prop :=
  SoundConv (c.input.dim (2 + i)) (c.weight.dim (2 + i)) (c.strideAt i) (c.paddingAt i)
    (c.dilationAt i)

/-- The kernel is not empty, and its window fits. -/
def FitsAt (c : Conv2dCall α) (i : ℕ) : Prop :=
  1 ≤ c.weight.dim (2 + i) ∧
    WindowFits (c.input.dim (2 + i)) (windowExtent (c.weight.dim (2 + i)) (c.dilationAt i).toNat)
      (c.strideAt i).toNat (c.paddingAt i).toNat

variable {c : Conv2dCall α} {a : ConvAnswers}

/-- A call throws exactly where it is refused. -/
theorem run_error : (∃ e, c.run a = .error e) ↔ c.Refused a := by
  unfold run
  constructor
  · rintro ⟨e, he⟩
    by_contra hno
    -- what is not refused returns
    have hok : ∀ r : Except MNException Unit, (¬ ∃ e, r = .error e) → r = .ok () := by
      rintro (e | u) hr
      · exact absurd ⟨e, rfl⟩ hr
      · rfl
    rw [hok _ fun h => hno (.check h), hok _ fun h => hno (.graph h),
      hok _ fun h => hno (.allocate h), hok _ fun h => hno (.bias h),
      hok _ fun h => hno (.encode h)] at he
    cases hdtype : toMpsDatatype c.input.dtype with
    | error e => exact hno (.dtype ⟨e, hdtype⟩)
    | ok dataType =>
      rw [hdtype] at he
      cases he
  · intro hrefused
    cases hcheck : c.check with
    | error e => exact ⟨e, rfl⟩
    | ok u =>
      cases hgraph : c.obtainGraph a with
      | error e => exact ⟨e, rfl⟩
      | ok u =>
        cases hdtype : toMpsDatatype c.input.dtype with
        | error e => exact ⟨e, rfl⟩
        | ok dataType =>
          cases hallocate : emptyTensorCheck c.outputShape c.input.dtype
              (a.allocate c.outputShape c.input.dtype) with
          | error e => exact ⟨e, rfl⟩
          | ok u =>
            cases hbias : c.biasDatatype with
            | error e => exact ⟨e, rfl⟩
            | ok u =>
              cases hencode : a.encode with
              | error e => exact ⟨e, rfl⟩
              | ok u =>
                exfalso
                cases hrefused with
                | check h => simp [hcheck] at h
                | graph h => simp [hgraph] at h
                | dtype h => simp [hdtype] at h
                | allocate h => simp [hallocate] at h
                | bias h => simp [hbias] at h
                | encode h => simp [hencode] at h

theorem soundAt_iff (i : ℕ) : c.SoundAt i ↔ c.FitsAt i := by
  apply soundConv_iff
  unfold MNTensor.dim
  rw [List.getD_eq_getElem?_getD]
  cases hget : c.weight.dims[2 + i]? with
  | none => decide
  | some d => exact c.weight.dims_lt d (List.mem_of_getElem? hget)

end Conv2dCall

namespace PoolCall

variable {α : Type}

/-- The call is refused by a check, for a data type, or by a callee. -/
inductive Refused (name : String) (c : PoolCall α) (a : GraphAnswers α) : Prop
  | check (h : ∃ e, c.check name = .error e)
  | dtype (h : ∃ e, poolDatatype c.input.dtype = .error e)
  | graph (h : a.graph = false)
  | allocate (h : ∃ e, newTensor c.outputShape c.input.dtype a = .error e)
  | results (h : a.results = false)

/-- The computation of the output size along spatial dimension `i`. -/
def SoundAt (c : PoolCall α) (i : ℕ) : Prop :=
  SoundPool (c.input.dim (2 + i)) (c.kernelAt i) (c.strideAt i) (c.paddingAt i)

/-- The window fits. -/
def FitsAt (c : PoolCall α) (i : ℕ) : Prop :=
  WindowFits (c.input.dim (2 + i)) (c.kernelAt i).toNat (c.strideAt i).toNat (c.paddingAt i).toNat

variable {name : String} {c : PoolCall α} {a : GraphAnswers α}

/-- A call throws exactly where it is refused. -/
theorem pool2d_error : (∃ e, c.pool2d name a = .error e) ↔ c.Refused name a := by
  have hreturns : (∃ e, c.pool2d name a = .error e) ↔ ¬ ∃ r, c.pool2d name a = .ok r := by
    cases c.pool2d name a with
    | error | ok => simp
  rw [hreturns]
  simp only [pool2d_eq_ok]
  constructor
  · intro hno
    by_contra hnot
    have hcheck : c.check name = .ok () := by
      cases h : c.check name with
      | error e => exact absurd (.check ⟨e, h⟩) hnot
      | ok u => rfl
    have hdtype : ∃ dataType, poolDatatype c.input.dtype = .ok dataType := by
      cases h : poolDatatype c.input.dtype with
      | error e => exact absurd (.dtype ⟨e, h⟩) hnot
      | ok dataType => exact ⟨dataType, rfl⟩
    have hgraph : a.graph = true := by
      by_contra h
      exact hnot (.graph (by simpa using h))
    have hresults : a.results = true := by
      by_contra h
      exact hnot (.results (by simpa using h))
    cases hnew : newTensor c.outputShape c.input.dtype a with
    | error e => exact hnot (.allocate ⟨e, hnew⟩)
    | ok r => exact hno ⟨r, hcheck, hdtype, hgraph, hresults, hnew⟩
  · rintro hrefused ⟨r, hcheck, ⟨dataType, hdtype⟩, hgraph, hresults, hnew⟩
    cases hrefused with
    | check h => simp [hcheck] at h
    | dtype h => simp [hdtype] at h
    | graph h => simp [hgraph] at h
    | allocate h => simp [hnew] at h
    | results h => simp [hresults] at h

theorem soundAt_iff (i : ℕ) : c.SoundAt i ↔ c.FitsAt i := soundPool_iff

end PoolCall

/-- **The sizes of the outputs.**  A call of `conv2d`, `max_pool2d` or `avg_pool2d` throws, or
    computes the two sizes of its output soundly, exactly where it is refused or the windows fit. -/
theorem window_arithmetic (α : Type) :
    (∀ (c : Conv2dCall α) (a : ConvAnswers),
      ((∃ e, c.run a = .error e) ∨ (c.SoundAt 0 ∧ c.SoundAt 1))
        ↔ (c.Refused a ∨ (c.FitsAt 0 ∧ c.FitsAt 1))) ∧
    (∀ (c : PoolCall α) (a : GraphAnswers α),
      ((∃ e, c.maxPool2d a = .error e) ∨ (c.SoundAt 0 ∧ c.SoundAt 1))
        ↔ (c.Refused "max_pool2d" a ∨ (c.FitsAt 0 ∧ c.FitsAt 1))) ∧
    (∀ (c : PoolCall α) (a : GraphAnswers α),
      ((∃ e, c.avgPool2d a = .error e) ∨ (c.SoundAt 0 ∧ c.SoundAt 1))
        ↔ (c.Refused "avg_pool2d" a ∨ (c.FitsAt 0 ∧ c.FitsAt 1))) := by
  refine ⟨fun c a => ?_, fun c a => ?_, fun c a => ?_⟩
  · rw [Conv2dCall.run_error, Conv2dCall.soundAt_iff, Conv2dCall.soundAt_iff]
  · unfold PoolCall.maxPool2d
    rw [PoolCall.pool2d_error, PoolCall.soundAt_iff, PoolCall.soundAt_iff]
  · unfold PoolCall.avgPool2d
    rw [PoolCall.pool2d_error, PoolCall.soundAt_iff, PoolCall.soundAt_iff]

/-- A pooling of two rows and columns with a window of four. -/
def wideWindow : PoolCall Unit where
  input :=
    { buffer := fun _ => ()
      dims := [1, 1, 2, 2]
      strides := [4, 4, 2, 1]
      dtype := .Float32
      dims_lt := by decide
      numel_lt := by decide }
  kernel_size := [4, 4]
  stride := [1, 1]
  padding := [0, 0]

/-- What the callees answer to it. -/
def wideAnswers : GraphAnswers Unit where
  allocate := fun _ _ => .ok fun _ => ()

theorem wideWindow_shape : wideWindow.outputShape = [1, 1, -1, -1] := by decide

theorem wideWindow_returns :
    wideWindow.maxPool2d wideAnswers = .ok ⟨[1, 1, -1, -1], .Float32, fun _ => ()⟩ := by
  have hshape : wideWindow.input.dtype = .Float32 := rfl
  refine PoolCall.pool2d_eq_ok.mpr ⟨rfl, ⟨_, rfl⟩, rfl, rfl, ?_⟩
  rw [wideWindow_shape, hshape]
  exact newTensor_eq_ok.mpr ⟨if_neg (by decide), _, rfl, rfl⟩

/-- A window that does not fit: the size of the output wraps to `-1`, and the call returns. -/
theorem wide_window_wraps :
    (∃ r, wideWindow.maxPool2d wideAnswers = .ok r ∧ r.shape = [1, 1, -1, -1]) ∧
      ¬ ((∃ e, wideWindow.maxPool2d wideAnswers = .error e) ∨
        (wideWindow.SoundAt 0 ∧ wideWindow.SoundAt 1)) := by
  refine ⟨⟨_, wideWindow_returns, rfl⟩, ?_⟩
  rintro (⟨e, he⟩ | ⟨hsound, -⟩)
  · rw [wideWindow_returns] at he
    cases he
  · -- an output of `-1` positions
    have hone := hsound.one_le
    have houtput : poolOutput 2 4 1 0 = -1 := by decide
    change 1 ≤ poolOutput 2 4 1 0 at hone
    rw [houtput] at hone
    exact absurd hone (by decide)

end MetalNative
