import MetalNative.Lib.SimdMatrix
import MetalNative.Matmul.HostDispatch

namespace MetalNative

open SimdMatrix

/-!
# What the SIMD kernels of `matmul` share

The host binds the same arguments for the kernels with 32×32 and with 64×64 tiles, and both load
their tiles of `A` and `B` by the same rule.

* `hostArguments`, `simdArguments` — the arguments, from the tensors and from the sizes.
* `laneLoop` — the turns of a SIMD group through a loop.
* `tileElement` — what a thread loads for one element of a tile.
* `dotProduct` — the entry of the product that a kernel is meant to write.
* `tileElement_single`, `tileElement_behind` — the tile of a matrix with a single entry.
-/

/-- What the host binds; every size is a `uint`. -/
structure SimdArguments where
  M : ℕ
  N : ℕ
  K : ℕ
  lda : ℕ
  ldb : ℕ
  ldc : ℕ
  transpose_a : Bool
  transpose_b : Bool
  batch_stride_a : ℕ
  batch_stride_b : ℕ
  batch_stride_c : ℕ
  deriving DecidableEq, Repr

variable {α : Type*}

/-- What `matmul_simd` and `matmul_tiled64` bind for two tensors. -/
def hostArguments (a b : MNTensor α) (transpose_a transpose_b : Bool) (d : MatmulDims) :
    SimdArguments where
  M := toUInt d.M
  N := toUInt d.N
  K := toUInt d.K
  lda := toUInt a.cols
  ldb := toUInt b.cols
  ldc := toUInt d.N
  transpose_a := transpose_a
  transpose_b := transpose_b
  batch_stride_a := toUInt (a.rows * a.cols)
  batch_stride_b := toUInt (b.rows * b.cols)
  batch_stride_c := toUInt (d.M * d.N)

/-- The same from the sizes. -/
def simdArguments (transpose_a transpose_b : Bool) (d : MatmulDims) : SimdArguments where
  M := toUInt d.M
  N := toUInt d.N
  K := toUInt d.K
  lda := toUInt (if transpose_a then d.M else d.K)
  ldb := toUInt (if transpose_b then d.K else d.N)
  ldc := toUInt d.N
  transpose_a := transpose_a
  transpose_b := transpose_b
  batch_stride_a := toUInt (d.M * d.K)
  batch_stride_b := toUInt (d.K * d.N)
  batch_stride_c := toUInt (d.M * d.N)

variable {d : MatmulDims}

theorem hostArguments_eq {a b : MNTensor α} {transpose_a transpose_b : Bool}
    (h : MatmulChecked a b transpose_a transpose_b d) :
    hostArguments a b transpose_a transpose_b d = simdArguments transpose_a transpose_b d := by
  have hsize_a : a.rows * a.cols = d.M * d.K := by
    rw [h.rows_a, h.cols_a]
    cases transpose_a <;> simp [Nat.mul_comm]
  have hsize_b : b.rows * b.cols = d.K * d.N := by
    rw [h.rows_b, h.cols_b]
    cases transpose_b <;> simp [Nat.mul_comm]
  rw [hostArguments, simdArguments, hsize_a, hsize_b, h.cols_a, h.cols_b]

/-- `threadgroup_position_in_grid`. -/
structure ThreadgroupId where
  x : ℕ
  y : ℕ
  z : ℕ
  deriving DecidableEq, Repr

/-- The threadgroups that are dispatched for tiles of `tile * tile` elements. -/
def ThreadgroupId.InGrid (gid : ThreadgroupId) (tile : ℕ) (d : MatmulDims) (batch_size : ℕ) :
    Prop :=
  gid.x < (d.N + tile - 1) / tile ∧ gid.y < (d.M + tile - 1) / tile ∧ gid.z < batch_size

/-- The threadgroup with the element `(i, j)` of the first matrix. -/
theorem inGrid_of_lt {tile i j batch_size : ℕ} (htile : 0 < tile) (hi : i < d.M)
    (hj : j < d.N) (hbatch : 0 < batch_size) :
    (ThreadgroupId.mk (j / tile) (i / tile) 0).InGrid tile d batch_size := by
  have hround : ∀ k n : ℕ, k < n → k / tile < (n + tile - 1) / tile := by
    intro k n hk
    rw [Nat.div_lt_iff_lt_mul htile]
    have := Nat.div_mul_le_self (n + tile - 1) tile
    have hmod := Nat.mod_lt (n + tile - 1) htile
    have hsplit := Nat.div_add_mod' (n + tile - 1) tile
    omega
  exact ⟨hround j d.N hj, hround i d.M hi, hbatch⟩

/-- The turns of a SIMD group through a loop of its lanes: each lane starts at its own index, and
all of them make the same steps. -/
def laneLoop (start step bound : ℕ) : List ℕ :=
  (ThreadLoop.stride start step bound).flatMap fun base => (List.range 32).map fun lane =>
    base + lane

/-- A loop over whole rounds of the lanes stays inside of its bound. -/
theorem lt_of_mem_laneLoop {start step bound idx : ℕ} (hstep : 0 < step) (hstart : 32 ∣ start)
    (hrounds : 32 ∣ step) (hbound : 32 ∣ bound) (h : idx ∈ laneLoop start step bound) :
    idx < bound := by
  obtain ⟨base, hbase, hlane⟩ := List.mem_flatMap.mp h
  obtain ⟨lane, hlt, rfl⟩ := List.mem_map.mp hlane
  obtain ⟨t, rfl, ht⟩ := (ThreadLoop.mem_stride hstep).mp hbase
  have hlane := List.mem_range.mp hlt
  have hbase' : 32 ∣ start + t * step := Nat.dvd_add hstart (Dvd.dvd.mul_left hrounds t)
  omega

/-! ### The elements of a tile -/

/-- Where the kernels find element `(r, c)` of a matrix of `rows * cols` elements, transposed or
not. -/
def matrixIndex (transposed : Bool) (rows cols r c : ℕ) : ℕ :=
  if transposed then c * rows + r else r * cols + c

/-- What is loaded for element `(global_r, global_c)`: the element of the matrix behind `offset`,
or zero outside of the matrix. -/
def tileElement [Zero α] (mem : ℕ → α) (transposed : Bool) (rows cols ld offset global_r
    global_c : ℕ) : α :=
  if global_r < rows ∧ global_c < cols then
    mem (offset + toUInt (if transposed then global_c * ld + global_r
      else global_r * ld + global_c))
  else 0

variable {transposed : Bool}

theorem matrixIndex_lt {rows cols r c : ℕ} (hr : r < rows) (hc : c < cols) :
    matrixIndex transposed rows cols r c < rows * cols := by
  cases transposed with
  | false => exact rowMajor_lt hr hc
  | true =>
    rw [Nat.mul_comm]
    exact rowMajor_lt hc hr

theorem matrixIndex_inj {rows cols r c r' c' : ℕ} (hr : r < rows)
    (hc : c < cols) (hr' : r' < rows) (hc' : c' < cols) :
    matrixIndex transposed rows cols r c = matrixIndex transposed rows cols r' c'
      ↔ r = r' ∧ c = c' := by
  cases transposed with
  | false => exact rowMajor_inj hc hc'
  | true =>
    have hswap : c * rows + r = c' * rows + r' ↔ c = c' ∧ r = r' := rowMajor_inj hr hr'
    rw [and_comm] at hswap
    exact hswap

/-- The last element. -/
theorem matrixIndex_last {rows cols : ℕ} (hr : 0 < rows) (hc : 0 < cols) :
    matrixIndex transposed rows cols (rows - 1) (cols - 1) = rows * cols - 1 := by
  obtain ⟨r, rfl⟩ := Nat.exists_eq_succ_of_ne_zero (Nat.ne_of_gt hr)
  obtain ⟨c, rfl⟩ := Nat.exists_eq_succ_of_ne_zero (Nat.ne_of_gt hc)
  have hprod : r.succ * c.succ = r * c + r + c + 1 := by
    simp only [Nat.succ_eq_add_one]
    ring
  cases transposed with
  | false =>
    have hrow : r * (c + 1) = r * c + r := by ring
    simp only [matrixIndex, Bool.false_eq_true, if_false, Nat.succ_eq_add_one,
      Nat.add_sub_cancel] at hprod ⊢
    omega
  | true =>
    have hcol : c * (r + 1) = r * c + c := by ring
    simp only [matrixIndex, if_true, Nat.succ_eq_add_one, Nat.add_sub_cancel] at hprod ⊢
    omega

section Loads

variable [Semiring α] {transposed : Bool} {rows cols : ℕ}

/-- A matrix with a single entry, small enough for 32-bit indices: only that entry is loaded. -/
theorem tileElement_single (hfit : rows * cols ≤ uintRange) {i k global_r global_c : ℕ}
    (hi : i < rows) (hk : k < cols) (hne : ¬ (global_r = i ∧ global_c = k)) :
    tileElement (Pi.single (matrixIndex transposed rows cols i k) (1 : α)) transposed
      (toUInt rows) (toUInt cols) (toUInt (if transposed then rows else cols)) 0 global_r global_c
      = 0 := by
  unfold tileElement
  by_cases hin : global_r < toUInt rows ∧ global_c < toUInt cols
  · have hrows_le : rows ≤ uintRange :=
      le_trans (Nat.le_mul_of_pos_right _ (Nat.zero_lt_of_lt hk)) hfit
    have hcols_le : cols ≤ uintRange :=
      le_trans (Nat.le_mul_of_pos_left _ (Nat.zero_lt_of_lt hi)) hfit
    -- a side of 2^32 is bound as zero, and then nothing is loaded
    have hrows : toUInt rows = rows := by
      apply toUInt_of_lt
      rcases Nat.lt_or_eq_of_le hrows_le with hlt | heq
      · exact hlt
      · rw [heq] at hin
        exact absurd hin.1 (Nat.not_lt_zero _)
    have hcols : toUInt cols = cols := by
      apply toUInt_of_lt
      rcases Nat.lt_or_eq_of_le hcols_le with hlt | heq
      · exact hlt
      · rw [heq] at hin
        exact absurd hin.2 (Nat.not_lt_zero _)
    rw [hrows, hcols] at hin
    have hld : toUInt (if transposed then rows else cols) = if transposed then rows else cols := by
      split_ifs
      · exact hrows
      · exact hcols
    have hindex : (if transposed then global_c * (if transposed then rows else cols) + global_r
        else global_r * (if transposed then rows else cols) + global_c)
        = matrixIndex transposed rows cols global_r global_c := by
      cases transposed <;> rfl
    have hlt : matrixIndex transposed rows cols global_r global_c < rows * cols :=
      matrixIndex_lt hin.1 hin.2
    rw [hrows, hcols, if_pos hin, hld, hindex, toUInt_of_lt (lt_of_lt_of_le hlt hfit),
      Nat.zero_add]
    apply Pi.single_eq_of_ne
    rw [Ne, matrixIndex_inj hin.1 hin.2 hi hk]
    exact hne
  · rw [if_neg hin]

/-- An entry that no 32-bit index reaches is never loaded. -/
theorem tileElement_behind {p rows' cols' ld global_r global_c : ℕ} (hp : uintRange ≤ p) :
    tileElement (Pi.single p (1 : α)) transposed rows' cols' ld 0 global_r global_c = 0 := by
  unfold tileElement
  by_cases hin : global_r < rows' ∧ global_c < cols'
  · rw [if_pos hin]
    apply Pi.single_eq_of_ne
    have hlt := toUInt_lt (if transposed then global_c * ld + global_r
      else global_r * ld + global_c)
    omega
  · rw [if_neg hin]

end Loads

/-! ### The product -/

/-- Element `(i, k)` of `op(A)` in a batch. -/
def opA (transpose_a : Bool) (d : MatmulDims) (A : ℕ → α) (batch i k : ℕ) : α :=
  A (batch * (d.M * d.K) + matrixIndex transpose_a d.M d.K i k)

/-- Element `(k, j)` of `op(B)` in a batch. -/
def opB (transpose_b : Bool) (d : MatmulDims) (B : ℕ → α) (batch k j : ℕ) : α :=
  B (batch * (d.K * d.N) + matrixIndex transpose_b d.K d.N k j)

/-- Row `i` of `op(A)` times column `j` of `op(B)`. -/
def dotProduct [Semiring α] (transpose_a transpose_b : Bool) (d : MatmulDims) (A B : ℕ → α)
    (batch i j : ℕ) : α :=
  ∑ k ∈ Finset.range d.K, opA transpose_a d A batch i k * opB transpose_b d B batch k j

/-- A row and a column that meet in a single product. -/
theorem dotProduct_eq_one [Semiring α] {transpose_a transpose_b : Bool}
    {A B : ℕ → α} {batch i j k : ℕ} (hk : k < d.K)
    (h : ∀ l < d.K, opA transpose_a d A batch i l * opB transpose_b d B batch l j
      = if l = k then 1 else 0) :
    dotProduct transpose_a transpose_b d A B batch i j = 1 := by
  rw [dotProduct, Finset.sum_congr rfl fun l hl => h l (Finset.mem_range.mp hl),
    Finset.sum_ite_eq' (Finset.range d.K) k fun _ => (1 : α), if_pos (Finset.mem_range.mpr hk)]

/-- The entries of a first matrix with a single one. -/
theorem opA_single [Semiring α] {transpose_a : Bool} {i k l : ℕ} (hi : i < d.M)
    (hk : k < d.K) (hl : l < d.K) :
    opA transpose_a d (Pi.single (matrixIndex transpose_a d.M d.K i k) (1 : α)) 0 i l
      = if l = k then 1 else 0 := by
  rw [opA, Nat.zero_mul, Nat.zero_add]
  by_cases hlk : l = k
  · rw [hlk, if_pos rfl, Pi.single_eq_same]
  · rw [if_neg hlk]
    apply Pi.single_eq_of_ne
    rw [Ne, matrixIndex_inj hi hl hi hk]
    exact fun h => hlk h.2

theorem opB_single [Semiring α] {transpose_b : Bool} {k j l : ℕ} (hk : k < d.K)
    (hj : j < d.N) (hl : l < d.K) :
    opB transpose_b d (Pi.single (matrixIndex transpose_b d.K d.N k j) (1 : α)) 0 l j
      = if l = k then 1 else 0 := by
  rw [opB, Nat.zero_mul, Nat.zero_add]
  by_cases hlk : l = k
  · rw [hlk, if_pos rfl, Pi.single_eq_same]
  · rw [if_neg hlk]
    apply Pi.single_eq_of_ne
    rw [Ne, matrixIndex_inj hl hj hk hj]
    exact fun h => hlk h.1

end MetalNative
