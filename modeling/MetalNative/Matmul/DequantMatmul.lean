import MetalNative.Lib.Strided
import MetalNative.Matmul.DequantTiles
import MetalNative.Matmul.HostDispatch

namespace MetalNative

open Broadcast (Within)
open Strided (linear position)
open ThreadLoop SimdMatrix

/-!
# `dequant_matmul`

The host side in `matmul.mm`: its checks, the kernel that it chooses, and the grid, the arguments
and the threadgroup memories of the launch.

* `dequantMatmulCheck`, `DequantCall.launch` — the checks and the launch.
* `DequantCall.Multiplies` — the call is a dequantisation followed by a product, whatever the
  buffers hold and however the threads are scheduled.
* `DequantCall.Supported` — the calls of which that is true (`dequant_matmul_product`).
-/

/-! ### The call -/

/-- A tensor in a buffer that has `length` elements from the tensor's offset on. -/
structure DeviceTensor (α : Type*) extends MNTensor α where
  length : ℕ
  inside : ∀ idx, Within dims idx → linear (strides.map toSizeT) idx < length
  inj : ∀ idx idx', Within dims idx → Within dims idx' →
    linear (strides.map toSizeT) idx = linear (strides.map toSizeT) idx' → idx = idx'

namespace DeviceTensor

variable {α : Type*}

/-- Where an element lies, counted from the offset. -/
def place (t : DeviceTensor α) (idx : List ℕ) : ℕ := linear (t.strides.map toSizeT) idx

/-- The elements follow each other in row-major order. -/
def RowMajor (t : DeviceTensor α) : Prop :=
  ∀ idx, Within t.dims idx → t.place idx = position t.dims idx

end DeviceTensor

/-- The arguments of `dequant_matmul`. -/
structure DequantCall (α : Type*) where
  activations : DeviceTensor α
  weights_packed : DeviceTensor UInt8
  scales : DeviceTensor α
  zeros : DeviceTensor α
  group_size : ℕ
  quant_type : QuantType

/-- `shape()[i]`. -/
def MNTensor.shapeAt {α : Type*} (t : MNTensor α) (i : ℕ) : Except MNException ℕ :=
  if i < t.ndim then .ok (t.dim i)
  else .error ⟨.InvalidArgument, "MNShape index " ++ toString i
    ++ " out of range for shape with " ++ toString t.ndim ++ " dimensions"⟩

section

variable {α : Type*}

/-- The checks of `dequant_matmul`. -/
def dequantMatmulCheck (call : DequantCall α) : Except MNException MatmulDims := do
  if ¬ call.activations.ndim = 2 then
    throw ⟨.InvalidArgument, "dequant_matmul: activations must be 2D [M, K]"⟩
  if ¬ call.activations.dtype = .Float16 then
    throw ⟨.InvalidArgument, "dequant_matmul: activations must be Float16"⟩
  if ¬ (call.group_size = 32 ∨ call.group_size = 64 ∨ call.group_size = 128) then
    throw ⟨.InvalidArgument, "dequant_matmul: group_size must be 32, 64, or 128"⟩
  let M ← call.activations.shapeAt 0
  let K ← call.activations.shapeAt 1
  let N ← call.weights_packed.shapeAt 0
  let columns ← call.weights_packed.shapeAt 1
  match call.quant_type with
  | .INT4 =>
    if ¬ columns = K / 2 then
      throw ⟨.InvalidArgument, "dequant_matmul: INT4 weights must be [N, K/2]"⟩
  | .INT8 =>
    if ¬ columns = K then
      throw ⟨.InvalidArgument, "dequant_matmul: INT8 weights must be [N, K]"⟩
  return ⟨M, N, K⟩

/-- A launch; the threadgroup memories are given in bytes. -/
structure DequantLaunch where
  kernel : DequantKernel
  args : DequantArgs
  gridX : ℕ
  gridY : ℕ
  sharedABytes : ℕ
  sharedBBytes : ℕ
  deriving DecidableEq, Repr

namespace DequantCall

/-- The columns of the weights: `K/2` bytes in INT4, `K` in INT8. -/
def columns (call : DequantCall α) (K : ℕ) : ℕ :=
  match call.quant_type with
  | .INT4 => K / 2
  | .INT8 => K

/-- `dequant_matmul`: what is launched. -/
def launch (call : DequantCall α) (d : MatmulDims) : DequantLaunch :=
  let use_vecmat : Bool := d.M ≤ 8
  let element_size := 2
  { kernel := ⟨call.quant_type, use_vecmat⟩
    args :=
      { M := toUInt d.M, N := toUInt d.N, K := toUInt d.K, group_size := call.group_size
        lda := toUInt d.K, ldc := toUInt d.N }
    gridX := (d.N + TILE_N - 1) / TILE_N
    gridY := if use_vecmat then d.M else (d.M + TILE_M - 1) / TILE_M
    sharedABytes := if use_vecmat then TILE_K * element_size else TILE_M * TILE_K * element_size
    sharedBBytes := TILE_N * TILE_K * element_size }

end DequantCall

/-- An order and prior contents for every threadgroup. -/
abbrev DequantLaunch.Schedules (launch : DequantLaunch) (α : Type*) :=
  ℕ → ℕ → DequantSchedule launch.kernel α

/-- The stores of all threadgroups. -/
def DequantLaunch.stores [CommRing α] (launch : DequantLaunch) (ops : DequantOperands α)
    (σ : launch.Schedules α) : List (ℕ × α) :=
  (List.range launch.gridY).flatMap fun y =>
    (List.range launch.gridX).flatMap fun x => launch.kernel.writes launch.args ops (σ x y) x y

/-! ### What the call has to compute -/

namespace DequantCall

/-- The size of each memory in elements; `C` is the buffer of the result. -/
def size (call : DequantCall α) (d : MatmulDims) : DequantMemory → ℕ
  | .A => call.activations.length
  | .B_packed => call.weights_packed.length
  | .C => d.M * d.N
  | .scales => call.scales.length
  | .zeros => call.zeros.length
  | .shared_A => (call.launch d).sharedABytes / 2
  | .shared_B => (call.launch d).sharedBBytes / 2
  | .shared_out => if (call.launch d).kernel.vecmat then 4 * 128 else 32 * 32

/-- The byte of row `n` that holds the code at column `k`. -/
def codeColumn (call : DequantCall α) (k : ℕ) : ℕ :=
  match call.quant_type with
  | .INT4 => k / 2
  | .INT8 => k

/-- The code at row `n`, column `k` of the weights, when they hold one. -/
def code (call : DequantCall α) (B_packed : ℕ → UInt8) (K n k : ℕ) : Option ℤ :=
  if call.codeColumn k < call.columns K then
    some (storedCode call.quant_type
      (B_packed (call.weights_packed.place [n, call.codeColumn k])) k)
  else none

/-- The value is the product of row `m` of the activations and row `n` of the dequantised
    weights. -/
def IsProduct [CommRing α] (call : DequantCall α) (d : MatmulDims) (ops : DequantOperands α)
    (m n : ℕ) (v : α) : Prop :=
  ∃ c : ℕ → ℤ, (∀ k < d.K, call.code ops.B_packed d.K n k = some (c k)) ∧
    v = ∑ k ∈ Finset.range d.K, ops.A (call.activations.place [m, k]) *
      ((c k : α) * ops.scales (call.scales.place [n, k / call.group_size])
        - ops.zeros (call.zeros.place [n, k / call.group_size]))

/-- The call computes the product: whatever the buffers hold from the tensors' offsets on and
    however the threadgroups are scheduled, no access leaves its memory, every output is stored, and
    what is stored there is the product. -/
def Multiplies [CommRing α] (call : DequantCall α) (d : MatmulDims) : Prop :=
  ∀ (ops : DequantOperands α) (σ : (call.launch d).Schedules α),
    (∀ x < (call.launch d).gridX, ∀ y < (call.launch d).gridY,
      ∀ a ∈ (call.launch d).kernel.accesses (call.launch d).args x y, a.2 < call.size d a.1) ∧
    ∀ m < d.M, ∀ n < d.N,
      (∃ v, (m * d.N + n, v) ∈ (call.launch d).stores ops σ) ∧
      ∀ v, (m * d.N + n, v) ∈ (call.launch d).stores ops σ → call.IsProduct d ops m n v

/-- The number of groups of a row. -/
def groups (call : DequantCall α) (K : ℕ) : ℕ := (K + call.group_size - 1) / call.group_size

/-- The shapes that the call is meant for, with something to compute. -/
structure Shaped (call : DequantCall α) (d : MatmulDims) : Prop where
  M_pos : 0 < d.M
  N_pos : 0 < d.N
  K_pos : 0 < d.K
  weights : call.weights_packed.dims = [d.N, call.columns d.K]
  scales : call.scales.dims = [d.N, call.groups d.K]
  zeros : call.zeros.dims = [d.N, call.groups d.K]

/-- The calls that compute the product. -/
structure Supported (call : DequantCall α) (d : MatmulDims) : Prop where
  /-- The tiled kernels are launched. -/
  tiled : 8 < d.M
  /-- The last byte of an INT4 row is full. -/
  even : call.quant_type = .INT4 → 2 ∣ d.K
  rows : d.M < uintRange
  activations : d.M * d.K ≤ uintRange
  outputs : d.M * d.N ≤ uintRange
  weights : d.N * call.columns d.K ≤ uintRange
  activations_rowMajor : call.activations.RowMajor
  weights_rowMajor : call.weights_packed.RowMajor
  scales_rowMajor : call.scales.RowMajor
  zeros_rowMajor : call.zeros.RowMajor

end DequantCall

/-! ### What the checks leave -/

variable {call : DequantCall α} {d : MatmulDims}

/-- What the checks have established when they pass. -/
structure DequantChecked (call : DequantCall α) (d : MatmulDims) : Prop where
  activations : call.activations.dims = [d.M, d.K]
  group_size : call.group_size = 32 ∨ call.group_size = 64 ∨ call.group_size = 128

theorem shapeAt_eq_ok {β : Type*} {t : MNTensor β} {i n : ℕ} (h : t.shapeAt i = .ok n) :
    i < t.ndim ∧ n = t.dim i := by
  unfold MNTensor.shapeAt at h
  split_ifs at h with hlt
  exact ⟨hlt, (Except.ok.inj h).symm⟩

/-- What a sequence of two steps that passes was. -/
theorem eq_ok_of_bind {ε β γ : Type} {x : Except ε β} {f : β → Except ε γ} {c : γ}
    (h : (x >>= f) = .ok c) : ∃ b, x = .ok b ∧ f b = .ok c := by
  cases x with
  | error e => cases h
  | ok b => exact ⟨b, rfl, h⟩

theorem dequantMatmulCheck_eq_ok (h : dequantMatmulCheck call = .ok d) :
    DequantChecked call d := by
  unfold dequantMatmulCheck at h
  by_cases hndim : call.activations.ndim = 2
  · by_cases hdtype : call.activations.dtype = .Float16
    · by_cases hgroup : call.group_size = 32 ∨ call.group_size = 64 ∨ call.group_size = 128
      · rw [if_neg (not_not.mpr hndim), if_neg (not_not.mpr hdtype),
          if_neg (not_not.mpr hgroup)] at h
        obtain ⟨M, hM, h⟩ := eq_ok_of_bind h
        obtain ⟨K, hK, h⟩ := eq_ok_of_bind h
        obtain ⟨N, -, h⟩ := eq_ok_of_bind h
        obtain ⟨columns, -, h⟩ := eq_ok_of_bind h
        have hd : d = ⟨M, N, K⟩ := by
          cases hquant : call.quant_type with
          | INT4 =>
            simp only [hquant] at h
            by_cases hcolumns : columns = K / 2
            · rw [if_neg (not_not.mpr hcolumns)] at h
              exact (Except.ok.inj h).symm
            · rw [if_pos hcolumns] at h
              cases h
          | INT8 =>
            simp only [hquant] at h
            by_cases hcolumns : columns = K
            · rw [if_neg (not_not.mpr hcolumns)] at h
              exact (Except.ok.inj h).symm
            · rw [if_pos hcolumns] at h
              cases h
        obtain ⟨-, rfl⟩ := shapeAt_eq_ok hM
        obtain ⟨-, rfl⟩ := shapeAt_eq_ok hK
        refine ⟨?_, hgroup⟩
        have hleading : call.activations.leading = [] := by simp [MNTensor.leading, hndim]
        have hdims := call.activations.dims_eq (Nat.le_of_eq hndim.symm)
        rw [hleading, List.nil_append] at hdims
        rw [hdims, hd]
        simp [MNTensor.rows, MNTensor.cols, hndim]
      · rw [if_neg (not_not.mpr hndim), if_neg (not_not.mpr hdtype), if_pos hgroup] at h
        cases h
    · rw [if_neg (not_not.mpr hndim), if_pos hdtype] at h
      cases h
  · rw [if_pos hndim] at h
    cases h

end

end MetalNative
