import MetalNative.Core.Layout
import MetalNative.Ops.Pooling
import Mathlib.Analysis.SpecialFunctions.Log.Basic

namespace MetalNative

open Strided (linear position unravel)

/-!
# Operators that run a graph

`max_pool2d`, `avg_pool2d` and `adaptive_avg_pool2d` of `pooling.mm`, and `cross_entropy_loss`,
`mse_loss` and `l1_loss` of `loss.mm`: each builds a graph, allocates its output, and has MPSGraph
run the graph, which returns its results in a dictionary.  Floating-point operations are exact here.

* `MpsGraph` — the nodes that the operators build; `MpsGraph.denote` is their documented meaning.
* `GraphCall` — the calls; `GraphCall.graph` is what is built, `GraphCall.run` what is returned.
* `GraphCall.Defined` — the value that an operator is to have at an element of its result.
* `graph_operators_return` — when the returned tensor has these values: nothing copies the
  dictionary's entry into it.
* `loss_graph_value`, `cross_entropy_ignores_target` — what the entries would have been.
-/

/-! ### Graphs -/

/-- `MPSGraphPooling2DOpDescriptor`, with explicit padding. -/
structure Pooling2DDescriptor where
  kernelWidth : UInt64
  kernelHeight : UInt64
  strideInX : UInt64
  strideInY : UInt64
  paddingLeft : UInt64
  paddingRight : UInt64
  paddingTop : UInt64
  paddingBottom : UInt64
  deriving DecidableEq, Repr

/-- The graphs that the operators build.  The reductions are over all axes. -/
inductive MpsGraph where
  | placeholder (name : String)
  | subtraction (primary secondary : MpsGraph)
  | square (tensor : MpsGraph)
  | absolute (tensor : MpsGraph)
  | negative (tensor : MpsGraph)
  | logarithm (tensor : MpsGraph)
  | softMax (tensor : MpsGraph) (axis : ℕ)
  | mean (tensor : MpsGraph)
  | reductionSum (tensor : MpsGraph)
  | maxPooling2D (source : MpsGraph) (descriptor : Pooling2DDescriptor)
  | avgPooling2D (source : MpsGraph) (descriptor : Pooling2DDescriptor)
  | resizeNearest (tensor : MpsGraph) (size : List ℕ)
  deriving DecidableEq, Repr

/-- The values of a tensor of a graph. -/
structure GraphValue where
  shape : List ℕ
  value : List ℕ → ℝ

/-- The places of a dimension that the window at `out` covers. -/
def windowPlaces (size out kernel stride padding : ℕ) : Finset ℕ :=
  (Finset.range size).filter fun r => out * stride ≤ r + padding ∧
    r + padding < out * stride + kernel

/-- The places of an image that the window at an index covers. -/
def Pooling2DDescriptor.window (d : Pooling2DDescriptor) (shape idx : List ℕ) : Finset (ℕ × ℕ) :=
  windowPlaces (shape.getD 2 0) (idx.getD 2 0) d.kernelHeight.toNat d.strideInY.toNat
      d.paddingTop.toNat
    ×ˢ windowPlaces (shape.getD 3 0) (idx.getD 3 0) d.kernelWidth.toNat d.strideInX.toNat
      d.paddingLeft.toNat

/-- The size of the result of a pooling along a dimension. -/
def pooledSize (size kernel stride before after : ℕ) : ℕ :=
  (size + before + after - kernel) / stride + 1

/-- The shape of the result of a pooling. -/
def Pooling2DDescriptor.pooled (d : Pooling2DDescriptor) (shape : List ℕ) : List ℕ :=
  [shape.getD 0 0, shape.getD 1 0,
    pooledSize (shape.getD 2 0) d.kernelHeight.toNat d.strideInY.toNat d.paddingTop.toNat
      d.paddingBottom.toNat,
    pooledSize (shape.getD 3 0) d.kernelWidth.toNat d.strideInX.toNat d.paddingLeft.toNat
      d.paddingRight.toNat]

/-- The index of a place of an image. -/
def imageIndex (idx : List ℕ) (place : ℕ × ℕ) : List ℕ :=
  [idx.getD 0 0, idx.getD 1 0, place.1, place.2]

section Values

/-- The sum of the values over all indices. -/
noncomputable def sumOver (shape : List ℕ) (value : List ℕ → ℝ) : ℝ :=
  ∑ p ∈ Finset.range shape.prod, value (unravel shape p)

/-- `softmax` along an axis, at an index. -/
noncomputable def softmaxAt (shape : List ℕ) (value : List ℕ → ℝ) (axis : ℕ) (idx : List ℕ) : ℝ :=
  Real.exp (value idx) / ∑ j ∈ Finset.range (shape.getD axis 0), Real.exp (value (idx.set axis j))

/-- The documented meaning of a graph. -/
noncomputable def MpsGraph.denote (feeds : String → GraphValue) : MpsGraph → GraphValue
  | .placeholder name => feeds name
  | .subtraction primary secondary =>
    ⟨(primary.denote feeds).shape, fun idx =>
      (primary.denote feeds).value idx - (secondary.denote feeds).value idx⟩
  | .square tensor =>
    ⟨(tensor.denote feeds).shape, fun idx => (tensor.denote feeds).value idx ^ 2⟩
  | .absolute tensor =>
    ⟨(tensor.denote feeds).shape, fun idx => |(tensor.denote feeds).value idx|⟩
  | .negative tensor =>
    ⟨(tensor.denote feeds).shape, fun idx => - (tensor.denote feeds).value idx⟩
  | .logarithm tensor =>
    ⟨(tensor.denote feeds).shape, fun idx => Real.log ((tensor.denote feeds).value idx)⟩
  | .softMax tensor axis =>
    ⟨(tensor.denote feeds).shape,
      softmaxAt (tensor.denote feeds).shape (tensor.denote feeds).value axis⟩
  | .mean tensor =>
    ⟨(tensor.denote feeds).shape.map fun _ => 1, fun _ =>
      sumOver (tensor.denote feeds).shape (tensor.denote feeds).value
        / (tensor.denote feeds).shape.prod⟩
  | .reductionSum tensor =>
    ⟨(tensor.denote feeds).shape.map fun _ => 1, fun _ =>
      sumOver (tensor.denote feeds).shape (tensor.denote feeds).value⟩
  | .maxPooling2D source d =>
    ⟨d.pooled (source.denote feeds).shape, fun idx =>
      sSup ((fun place => (source.denote feeds).value (imageIndex idx place)) ''
        (d.window (source.denote feeds).shape idx : Set (ℕ × ℕ)))⟩
  | .avgPooling2D source d =>
    ⟨d.pooled (source.denote feeds).shape, fun idx =>
      (∑ place ∈ d.window (source.denote feeds).shape idx,
          (source.denote feeds).value (imageIndex idx place))
        / (d.window (source.denote feeds).shape idx).card⟩
  | .resizeNearest tensor size =>
    ⟨size, fun idx => (tensor.denote feeds).value (List.zipWith3
      (fun i source target => (2 * i + 1) * source / (2 * target)) idx (tensor.denote feeds).shape
        size)⟩

end Values

/-! ### Calls -/

/-- `ReductionMode`. -/
inductive ReductionMode where
  | None
  | Mean
  | Sum
  deriving DecidableEq, Repr

/-- The two losses that compare element by element. -/
inductive ElementLoss where
  | mse
  | l1
  deriving DecidableEq, Repr

/-- A call of an operator that runs a graph.  The elements of a target of `cross_entropy_loss` are
    classes. -/
inductive GraphCall where
  | maxPool2d (c : PoolCall ℝ)
  | avgPool2d (c : PoolCall ℝ)
  | adaptiveAvgPool2d (input : MNTensor ℝ) (output_size : List UInt64)
  | crossEntropyLoss (input : MNTensor ℝ) (target : MNTensor ℕ) (reduction : ReductionMode)
  | elementLoss (loss : ElementLoss) (input target : MNTensor ℝ) (reduction : ReductionMode)

/-- `dtype_is_floating_point`. -/
def dtypeIsFloatingPoint : MNDType → Bool
  | .Float32 | .Float16 | .BFloat16 => true
  | _ => false

/-- `to_mps_datatype` of `loss.mm`. -/
def lossDatatype : MNDType → Except MNException MPSDataType
  | .Float32 => .ok .Float32
  | .Float16 => .ok .Float16
  | .BFloat16 => .ok .BFloat16
  | _ => .error ⟨.InvalidArgument, "loss: unsupported dtype"⟩

/-- `apply_reduction`. -/
def applyReduction (tensor : MpsGraph) : ReductionMode → MpsGraph
  | .None => tensor
  | .Mean => .mean tensor
  | .Sum => .reductionSum tensor

namespace ElementLoss

/-- What the messages begin with. -/
def name : ElementLoss → String
  | .mse => "mse_loss"
  | .l1 => "l1_loss"

/-- The node after the difference. -/
def node : ElementLoss → MpsGraph → MpsGraph
  | .mse => .square
  | .l1 => .absolute

/-- The loss of an element. -/
def value : ElementLoss → ℝ → ℝ → ℝ
  | .mse => fun x y => (x - y) ^ 2
  | .l1 => fun x y => |x - y|

end ElementLoss

/-- The descriptor of a pooling. -/
def PoolCall.descriptor {α : Type} (c : PoolCall α) : Pooling2DDescriptor where
  kernelWidth := c.kernelAt 1
  kernelHeight := c.kernelAt 0
  strideInX := c.strideAt 1
  strideInY := c.strideAt 0
  paddingLeft := c.paddingAt 1
  paddingRight := c.paddingAt 1
  paddingTop := c.paddingAt 0
  paddingBottom := c.paddingAt 0

/-- What MPSGraph finds under a placeholder: the buffer from its beginning, in row-major order. -/
def MNTensor.fed (t : MNTensor ℝ) : GraphValue where
  shape := t.dims
  value idx := t.buffer (position t.dims idx)

/-- Int64 of a `size_t`. -/
def sizeDim (n : UInt64) : ℤ := toInt64 n.toNat

namespace GraphCall

/-- What the messages begin with. -/
def name : GraphCall → String
  | maxPool2d _ => "max_pool2d"
  | avgPool2d _ => "avg_pool2d"
  | adaptiveAvgPool2d _ _ => "adaptive_avg_pool2d"
  | crossEntropyLoss _ _ _ => "cross_entropy_loss"
  | elementLoss loss _ _ _ => loss.name

/-- The checks, with those of the data types. -/
def check : GraphCall → Except MNException Unit
  | maxPool2d c => do
    c.check "max_pool2d"
    let _dataType ← poolDatatype c.input.dtype
  | avgPool2d c => do
    c.check "avg_pool2d"
    let _dataType ← poolDatatype c.input.dtype
  | adaptiveAvgPool2d input output_size => do
    mnCheck (input.ndim = 4) "adaptive_avg_pool2d: input must be 4D [N, C, H, W]"
    mnCheck (output_size.length = 2) "adaptive_avg_pool2d: output_size must have 2 elements"
    let _dataType ← poolDatatype input.dtype
  | crossEntropyLoss input target _ => do
    mnCheck (input.ndim ≥ 2) "cross_entropy_loss: input must have at least 2 dimensions"
    mnCheck (target.ndim ≥ 1) "cross_entropy_loss: target must have at least 1 dimension"
    mnCheck (dtypeIsFloatingPoint input.dtype) "cross_entropy_loss: input must be floating point"
    let _dataType ← lossDatatype input.dtype
  | elementLoss loss input target _ => do
    mnCheck (input.dims = target.dims) (loss.name ++ ": input and target shapes must match")
    mnCheck (input.dtype = target.dtype) (loss.name ++ ": input and target dtypes must match")
    let _dataType ← lossDatatype input.dtype

/-- The data type of the output. -/
def dtype : GraphCall → MNDType
  | maxPool2d c | avgPool2d c => c.input.dtype
  | adaptiveAvgPool2d input _ => input.dtype
  | crossEntropyLoss input _ _ => input.dtype
  | elementLoss _ input _ _ => input.dtype

/-- `output_shape` of a loss. -/
def lossShape (input : MNTensor ℝ) : ReductionMode → MNShape
  | .None => input.shape
  | _ => [1]

/-- `output_shape`. -/
def outputShape : GraphCall → MNShape
  | maxPool2d c | avgPool2d c => c.outputShape
  | adaptiveAvgPool2d input output_size =>
    [input.dim 0, input.dim 1, sizeDim (output_size.getD 0 0), sizeDim (output_size.getD 1 0)]
  | crossEntropyLoss input _ reduction => lossShape input reduction
  | elementLoss _ input _ reduction => lossShape input reduction

/-- The graph. -/
def graph : GraphCall → MpsGraph
  | maxPool2d c => .maxPooling2D (.placeholder "input") c.descriptor
  | avgPool2d c => .avgPooling2D (.placeholder "input") c.descriptor
  | adaptiveAvgPool2d input output_size =>
    .resizeNearest (.placeholder "input")
      [input.dim 0, input.dim 1, (output_size.getD 0 0).toNat, (output_size.getD 1 0).toNat]
  | crossEntropyLoss _ _ reduction =>
    applyReduction (.negative (.logarithm (.softMax (.placeholder "input") 1))) reduction
  | elementLoss loss _ _ reduction =>
    applyReduction (loss.node (.subtraction (.placeholder "input") (.placeholder "target")))
      reduction

/-- What the graph is fed with. -/
def feeds : GraphCall → String → GraphValue
  | maxPool2d c | avgPool2d c => fun _ => c.input.fed
  | adaptiveAvgPool2d input _ => fun _ => input.fed
  | crossEntropyLoss input target _ => fun name =>
    if name = "input" then input.fed
    else ⟨target.dims, fun idx => target.buffer (position target.dims idx)⟩
  | elementLoss _ input target _ => fun name => if name = "input" then input.fed else target.fed

/-- The entry of the dictionary, when there is one. -/
noncomputable def entry (c : GraphCall) : GraphValue := c.graph.denote c.feeds

/-- The call. -/
def run (c : GraphCall) (a : GraphAnswers ℝ) : Except MNException (NewTensor ℝ) := do
  c.check
  runGraph c.name c.outputShape c.dtype a

/-- The poolings are those of `PoolCall`. -/
theorem run_maxPool2d (c : PoolCall ℝ) (a : GraphAnswers ℝ) :
    (maxPool2d c).run a = c.maxPool2d a := by
  unfold PoolCall.maxPool2d PoolCall.pool2d
  simp only [run, check]
  cases c.check "max_pool2d" with
  | error e => rfl
  | ok u => cases poolDatatype c.input.dtype <;> rfl

theorem run_avgPool2d (c : PoolCall ℝ) (a : GraphAnswers ℝ) :
    (avgPool2d c).run a = c.avgPool2d a := by
  unfold PoolCall.avgPool2d PoolCall.pool2d
  simp only [run, check]
  cases c.check "avg_pool2d" with
  | error e => rfl
  | ok u => cases poolDatatype c.input.dtype <;> rfl

/-! ### The defined values -/

/-- The places of the bin of an adaptive pooling: from `⌊i * size / out⌋` to
    `⌈(i + 1) * size / out⌉`. -/
def binPlaces (size out i : ℕ) : Finset ℕ :=
  Finset.Ico (i * size / out) (((i + 1) * size + out - 1) / out)

/-- The bin at an index. -/
def bin (shape : List ℕ) (output_size : List UInt64) (idx : List ℕ) : Finset (ℕ × ℕ) :=
  binPlaces (shape.getD 2 0) (output_size.getD 0 0).toNat (idx.getD 2 0)
    ×ˢ binPlaces (shape.getD 3 0) (output_size.getD 1 0).toNat (idx.getD 3 0)

/-- The loss of a sample: an index without the axis of the classes. -/
noncomputable def sampleLoss (input : MNTensor ℝ) (target : MNTensor ℕ) (sample : List ℕ) : ℝ :=
  - Real.log (softmaxAt input.dims input.elementAt 1
      (sample.insertIdx 1 (target.elementAt sample)))

/-- A loss at an index of the result: its own, or the mean or the sum of all. -/
noncomputable def reduced (shape : List ℕ) (losses : List ℕ → ℝ) (own : ℝ) : ReductionMode → ℝ
  | .None => own
  | .Mean => sumOver shape losses / shape.prod
  | .Sum => sumOver shape losses

/-- `v` is the defined value at an index of the result.  Padding takes no part in a window. -/
def Defined : GraphCall → List ℕ → ℝ → Prop
  | maxPool2d c, idx, v =>
    IsGreatest ((fun place => c.input.elementAt (imageIndex idx place)) ''
      (c.descriptor.window c.input.dims idx : Set (ℕ × ℕ))) v
  | avgPool2d c, idx, v =>
    v = (∑ place ∈ c.descriptor.window c.input.dims idx,
        c.input.elementAt (imageIndex idx place)) / (c.descriptor.window c.input.dims idx).card
  | adaptiveAvgPool2d input output_size, idx, v =>
    v = (∑ place ∈ bin input.dims output_size idx, input.elementAt (imageIndex idx place))
      / (bin input.dims output_size idx).card
  | crossEntropyLoss input target reduction, idx, v =>
    v = reduced (input.dims.eraseIdx 1) (sampleLoss input target)
      (sampleLoss input target (idx.eraseIdx 1)) reduction
  | elementLoss loss input target reduction, idx, v =>
    v = reduced input.dims (fun idx => loss.value (input.elementAt idx) (target.elementAt idx))
      (loss.value (input.elementAt idx) (target.elementAt idx)) reduction

/-- There is one defined value at most. -/
theorem Defined.unique {c : GraphCall} {idx : List ℕ} {v w : ℝ} (hv : c.Defined idx v)
    (hw : c.Defined idx w) : v = w := by
  cases c with
  | maxPool2d c => exact IsGreatest.unique hv hw
  | avgPool2d | adaptiveAvgPool2d | crossEntropyLoss | elementLoss => exact Eq.trans hv (Eq.symm hw)

/-! ### What is returned -/

variable {c : GraphCall} {a : GraphAnswers ℝ} {r : NewTensor ℝ}

theorem run_eq_ok : c.run a = .ok r ↔
    c.check = .ok () ∧ a.graph = true ∧ a.results = true ∧
      newTensor c.outputShape c.dtype a = .ok r := by
  rw [← @runGraph_eq_ok _ c.name]
  unfold run
  cases c.check with
  | error e => exact iff_of_false nofun nofun
  | ok u => exact ⟨fun h => ⟨rfl, h⟩, fun h => h.2⟩

/-- The returned tensor has the defined values, whatever the callees answer. -/
def ReturnsDefined (c : GraphCall) : Prop :=
  ∀ a r, c.run a = .ok r → ∀ idx, r.shape.InRange idx →
    c.Defined idx (r.data (position r.shape.bounds idx))

/-- The call is refused, or its output has no elements. -/
def Vacuous (c : GraphCall) : Prop :=
  c.check ≠ .ok () ∨ emptyTensorCheck c.outputShape c.dtype (.ok ()) ≠ .ok () ∨
    c.outputShape.bounds.prod = 0

/-- A buffer that holds one value everywhere. -/
def constantAnswers (x : ℝ) : GraphAnswers ℝ where
  allocate := fun _ _ => .ok fun _ => x

/-- A call that is not refused returns what its new buffer holds. -/
theorem run_constant (hcheck : c.check = .ok ())
    (hsize : emptyTensorCheck c.outputShape c.dtype (.ok ()) = .ok ()) (x : ℝ) :
    c.run (constantAnswers x) = .ok ⟨c.outputShape, c.dtype, fun _ => x⟩ :=
  run_eq_ok.mpr ⟨hcheck, rfl, rfl, newTensor_eq_ok.mpr ⟨hsize, _, rfl, rfl⟩⟩

end GraphCall

open GraphCall

/-- **Operators that run a graph** return their defined values only where they return no value: the
    entry of the dictionary is dropped, and the returned tensor holds what its buffer held. -/
theorem graph_operators_return (c : GraphCall) : c.ReturnsDefined ↔ c.Vacuous := by
  constructor
  · intro hreturns
    by_contra hno
    unfold Vacuous at hno
    push Not at hno
    obtain ⟨hcheck, hsize, hprod⟩ := hno
    -- an element of the output, in a buffer of zeros and in one of ones
    have hidx : c.outputShape.InRange (unravel c.outputShape.bounds 0) :=
      Strided.within_unravel (Nat.pos_of_ne_zero hprod)
    have hzero := hreturns _ _ (run_constant hcheck hsize 0) _ hidx
    have hone := hreturns _ _ (run_constant hcheck hsize 1) _ hidx
    exact absurd (hzero.unique hone) zero_ne_one
  · rintro (hcheck | hsize | hprod) a r hr idx hidx
    · exact absurd (run_eq_ok.mp hr).1 hcheck
    · obtain ⟨-, -, -, hnew⟩ := run_eq_ok.mp hr
      exact absurd (newTensor_eq_ok.mp hnew).1 hsize
    · obtain ⟨-, -, -, hnew⟩ := run_eq_ok.mp hr
      obtain ⟨-, data, -, rfl⟩ := newTensor_eq_ok.mp hnew
      exact absurd (Strided.Within.prod_pos hidx) (by rw [hprod]; decide)

/-! ### The entries of the dictionary -/

/-- A tensor at the beginning of its buffer, in row-major order, is fed as it is. -/
def MNTensor.FedAsIs (t : MNTensor ℝ) : Prop := ∀ idx, t.fed.value idx = t.elementAt idx

/-- The entry of `mse_loss` and `l1_loss` has the defined values. -/
theorem loss_graph_value (loss : ElementLoss) {input target : MNTensor ℝ}
    (reduction : ReductionMode)
    (hinput : input.FedAsIs) (htarget : target.FedAsIs) (idx : List ℕ) :
    (elementLoss loss input target reduction).Defined idx
      ((elementLoss loss input target reduction).entry.value idx) := by
  -- the graph before the reduction
  let diff : MpsGraph := .subtraction (.placeholder "input") (.placeholder "target")
  let losses : GraphValue :=
    (loss.node diff).denote (elementLoss loss input target reduction).feeds
  have hvalue : losses.value = fun idx => loss.value (input.elementAt idx)
      (target.elementAt idx) := by
    funext idx
    rw [← hinput, ← htarget]
    cases loss <;> rfl
  have hshape : losses.shape = input.dims := by cases loss <;> rfl
  cases reduction with
  | None => exact congrFun hvalue idx
  | Mean =>
    have hentry : sumOver losses.shape losses.value / losses.shape.prod
        = sumOver input.dims (fun idx => loss.value (input.elementAt idx) (target.elementAt idx))
          / input.dims.prod := by rw [hvalue, hshape]
    exact hentry
  | Sum =>
    have hentry : sumOver losses.shape losses.value
        = sumOver input.dims fun idx => loss.value (input.elementAt idx)
          (target.elementAt idx) := by
      rw [hvalue, hshape]
    exact hentry

/-- The entry of `cross_entropy_loss` does not depend on the target. -/
theorem cross_entropy_ignores_target (input : MNTensor ℝ) (target target' : MNTensor ℕ)
    (reduction : ReductionMode) :
    (crossEntropyLoss input target reduction).entry
      = (crossEntropyLoss input target' reduction).entry := by
  cases reduction <;> rfl

theorem twoOnes_dims : ∀ d ∈ [2], d < 2 ^ 63 := by decide

theorem twoOnes_numel : [2].prod < 2 ^ 63 := by decide

/-- Two floats of ones. -/
def twoOnes : MNTensor ℝ where
  buffer := fun _ => 1
  dims := [2]
  strides := [1]
  dtype := .Float32
  dims_lt := twoOnes_dims
  numel_lt := twoOnes_numel

/-- The mean squared error of a tensor and itself, in a buffer that holds a one. -/
theorem mse_loss_not_returned :
    ∃ r, (GraphCall.elementLoss .mse twoOnes twoOnes .Mean).run (GraphCall.constantAnswers 1)
        = .ok r ∧ r.shape.InRange [0] ∧
      ¬ (GraphCall.elementLoss .mse twoOnes twoOnes .Mean).Defined [0]
        (r.data (position r.shape.bounds [0])) := by
  have hcheck : (elementLoss .mse twoOnes twoOnes .Mean).check = .ok () := rfl
  refine ⟨_, run_constant hcheck (if_neg (by decide)) 1, ⟨by decide, trivial⟩, ?_⟩
  intro hdefined
  have hzero : (1 : ℝ) = sumOver [2] (fun _ => ((1 : ℝ) - 1) ^ 2) / ([2].prod : ℕ) := hdefined
  simp [sumOver] at hzero

end MetalNative
