import MetalNative.Core.Tensor
import MetalNative.Lib.ThreadLoop

namespace MetalNative

open ThreadLoop

/-!
# Element-wise operations

A translation of the binary operations and `where` of `elementwise.mm` and of their kernels in
`elementwise_kernels.metal`.  The kernels of an operation differ in the data type only; what one of
them computes from two elements is a parameter.  Indices inside a kernel are `uint` values.

* `mem_vectorIndices` — the elements that a thread of a vectorised kernel works on.
* `mem_gridIndices` — those of all threads.
-/

/-- What a launch leaves: the result's shape, the elements written, and for each operand the
elements read. -/
structure KernelRun (α : Type) where
  kernelName : String
  shape : MNShape
  output : ℕ → Option α
  reads : List (List ℕ)

/-- What the kernels of a data type compute from one element of each operand. -/
structure ElementwiseOps (α : Type) where
  add : MNDType → α → α → α
  sub : MNDType → α → α → α
  mul : MNDType → α → α → α
  div : MNDType → α → α → α

/-! ### The kernels -/

/-- `const uint idx = id * 4`. -/
def vectorBase (id : ℕ) : ℕ := id * 4 % uintRange

/-- The elements that thread `id` works on: four of them by a vector load, or those of the tail. -/
def vectorIndices (numElements id : ℕ) : List ℕ :=
  if (vectorBase id + 3) % uintRange < numElements then
    [vectorBase id, vectorBase id + 1, vectorBase id + 2, vectorBase id + 3]
  else
    stride (vectorBase id) 1 (min ((vectorBase id + 4) % uintRange) numElements)

/-- The elements that all threads of the grid work on. -/
def gridIndices (numElements grid : ℕ) : List ℕ :=
  (List.range grid).flatMap (vectorIndices numElements)

variable {α : Type}

/-- `add_fp32` and its siblings: `output[i] = a[i] + b[i]`. -/
def binaryKernel (op : α → α → α) (a b : ℕ → α) (items : List ℕ) : ℕ → Option α :=
  storeAll items id (fun i => some (op (a i) (b i))) fun _ => none

/-- `where_fp32`, `where_fp16` and `where_bf16`: `output[id] = condition[id] ? x[id] : y[id]`. -/
def whereKernel (condition : ℕ → Bool) (x y : ℕ → α) (items : List ℕ) : ℕ → Option α :=
  storeAll items id (fun i => some (if condition i then x i else y i)) fun _ => none

/-! ### The host -/

/-- The suffix of a kernel's name; `caller` names the operation in the error. -/
def kernelSuffix (caller : String) : MNDType → Except MNException String
  | .Float32 => .ok "_fp32"
  | .Float16 => .ok "_fp16"
  | .BFloat16 => .ok "_bf16"
  | _ => .error ⟨.InvalidArgument, caller ++ ": unsupported dtype"⟩

/-- The order in which the threads of a launch do their work. -/
structure LaunchOrder where
  items : List ℕ → List ℕ
  perm : ∀ work, (items work).Perm work

namespace LaunchOrder

/-- One thread after the other. -/
def inOrder : LaunchOrder := ⟨id, fun _ => .refl _⟩

theorem mem_items (order : LaunchOrder) {work : List ℕ} {f : ℕ} :
    f ∈ order.items work ↔ f ∈ work := (order.perm work).mem_iff

end LaunchOrder

/-- `dispatch_binary_op`; `answer` is what the allocator does with the request for the result. -/
def dispatchBinaryOp (name : String) (op : MNDType → α → α → α) (a b : MNTensor α)
    (answer : Except MNException Unit) (order : LaunchOrder) : Except MNException (KernelRun α) :=
  if a.dtype ≠ b.dtype then
    .error ⟨.InvalidArgument, "elementwise: operands must have same dtype"⟩
  else if ¬ (a.isContiguous ∧ b.isContiguous) then
    .error ⟨.InvalidArgument, "elementwise: operands must be contiguous"⟩
  else do
    let outputShape ← a.shape.broadcastWith b.shape
    emptyTensorCheck outputShape a.dtype answer
    let suffix ← kernelSuffix "elementwise" a.dtype
    if outputShape.numel ≤ UINT32_MAX then
      let numElements := toSizeT outputShape.numel % uintRange
      let grid := toSizeT ((outputShape.numel + 3).tdiv 4)
      let items := order.items (gridIndices numElements grid)
      .ok {
        kernelName := name ++ suffix
        shape := outputShape
        output := binaryKernel (op a.dtype) a.data b.data items
        reads := [items, items] }
    else .error ⟨.InvalidArgument, "elementwise: dimension exceeds uint32_t range"⟩

section Operations

variable (E : ElementwiseOps α) (a b : MNTensor α) (answer : Except MNException Unit)
  (order : LaunchOrder)

/-- `add`. -/
def add : Except MNException (KernelRun α) := dispatchBinaryOp "add" E.add a b answer order

/-- `sub`. -/
def sub : Except MNException (KernelRun α) := dispatchBinaryOp "sub" E.sub a b answer order

/-- `mul`. -/
def mul : Except MNException (KernelRun α) := dispatchBinaryOp "mul" E.mul a b answer order

/-- `div`. -/
def div : Except MNException (KernelRun α) := dispatchBinaryOp "div" E.div a b answer order

end Operations

/-- The binary operations. -/
inductive BinaryOp where
  | add
  | sub
  | mul
  | div
  deriving DecidableEq, Repr

namespace BinaryOp

/-- What an operation computes from two elements. -/
def op (E : ElementwiseOps α) : BinaryOp → MNDType → α → α → α
  | add => E.add
  | sub => E.sub
  | mul => E.mul
  | div => E.div

/-- The call of an operation. -/
def call (E : ElementwiseOps α) : BinaryOp → MNTensor α → MNTensor α → Except MNException Unit →
    LaunchOrder → Except MNException (KernelRun α)
  | add => MetalNative.add E
  | sub => MetalNative.sub E
  | mul => MetalNative.mul E
  | div => MetalNative.div E

end BinaryOp

/-- `where`.  The grid has one thread for each element of the result, whose position is a `uint`;
the kernel reads `x` or `y`, depending on the condition. -/
def whereOp (condition : MNTensor Bool) (x y : MNTensor α) (answer : Except MNException Unit)
    (order : LaunchOrder) : Except MNException (KernelRun α) :=
  if condition.dtype ≠ .Bool then
    .error ⟨.InvalidArgument, "where: condition must be Bool dtype"⟩
  else if x.dtype ≠ y.dtype then
    .error ⟨.InvalidArgument, "where: x and y must have same dtype"⟩
  else if ¬ (condition.isContiguous ∧ x.isContiguous ∧ y.isContiguous) then
    .error ⟨.InvalidArgument, "where: all inputs must be contiguous"⟩
  else do
    let shape1 ← condition.shape.broadcastWith x.shape
    let outputShape ← shape1.broadcastWith y.shape
    emptyTensorCheck outputShape x.dtype answer
    let suffix ← kernelSuffix "where" x.dtype
    let grid := toSizeT outputShape.numel
    let items := order.items ((List.range grid).map (· % uintRange))
    .ok {
      kernelName := "where" ++ suffix
      shape := outputShape
      output := whereKernel condition.data x.data y.data items
      reads := [items, items.filter (condition.data ·), items.filter (!condition.data ·)] }

/-- `make_scalar_tensor`: a tensor of shape `[1]` filled with the value. -/
def makeScalarTensor (value : α) (dtype : MNDType) : MNTensor α where
  buffer := fun _ => value
  dims := [1]
  strides := [1]
  dtype := dtype
  dims_lt := by decide
  numel_lt := by decide

/-! ### What the threads work on -/

theorem vectorBase_lt (id : ℕ) : vectorBase id < uintRange := Nat.mod_lt _ (by decide)

theorem four_dvd_vectorBase (id : ℕ) : 4 ∣ vectorBase id := by
  unfold vectorBase uintRange
  omega

/-- A thread works on the elements of its group of four, except on the last group that a `uint` can
address, where `idx + 4` is `0`. -/
theorem mem_vectorIndices {numElements id f : ℕ} (hnum : numElements < uintRange) :
    f ∈ vectorIndices numElements id
      ↔ f < numElements ∧ f < uintRange - 4 ∧ f / 4 * 4 = vectorBase id := by
  have hlt := vectorBase_lt id
  have hdvd := four_dvd_vectorBase id
  unfold uintRange at hlt hnum ⊢
  unfold vectorIndices uintRange
  have hmod3 : (vectorBase id + 3) % 2 ^ 32 = vectorBase id + 3 := by omega
  rw [hmod3]
  by_cases hvector : vectorBase id + 3 < numElements
  · rw [if_pos hvector]
    simp only [List.mem_cons, List.not_mem_nil, or_false]
    omega
  · rw [if_neg hvector, mem_stride (by omega)]
    constructor
    · rintro ⟨t, rfl, ht⟩
      omega
    · rintro ⟨hf, hlast, hbase⟩
      exact ⟨f - vectorBase id, by omega, by omega⟩

/-- The elements that the grid of a launch works on. -/
theorem mem_gridIndices {numElements grid f : ℕ} (hnum : numElements < uintRange) :
    f ∈ gridIndices numElements grid
      ↔ f < numElements ∧ f < uintRange - 4 ∧ ∃ id < grid, f / 4 * 4 = vectorBase id := by
  simp only [gridIndices, List.mem_flatMap, List.mem_range, mem_vectorIndices hnum]
  constructor
  · rintro ⟨id, hid, hf, hlast, hbase⟩
    exact ⟨hf, hlast, id, hid, hbase⟩
  · rintro ⟨hf, hlast, id, hid, hbase⟩
    exact ⟨id, hid, hf, hlast, hbase⟩

/-- When the elements can be counted below the last group, the grid works on all of them. -/
theorem mem_gridIndices_all {n f : ℕ} (hn : n ≤ uintRange - 4) :
    f ∈ gridIndices n ((n + 3) / 4) ↔ f < n := by
  have hrange : n < uintRange := by unfold uintRange at hn ⊢; omega
  rw [mem_gridIndices hrange]
  constructor
  · exact fun h => h.1
  · intro hf
    refine ⟨hf, by omega, f / 4, by omega, ?_⟩
    unfold vectorBase
    rw [Nat.mod_eq_of_lt]
    unfold uintRange at hn ⊢
    omega

end MetalNative
