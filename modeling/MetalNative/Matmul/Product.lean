import MetalNative.Lib.ThreadLoop
import MetalNative.Matmul.HostDispatch

namespace MetalNative

/-!
# The product that `matmul` is meant to compute

Batch by batch the matrices of `a` and `b` are multiplied, each transposed when its flag is set; a
`b` of two dimensions is the same matrix for every batch.

* `product` — entry `(m, n)` of batch `i`.
* `WritesProduct` — a list of stores leaves the product in the result, each entry by one store.
-/

variable {α : Type*}

namespace MNTensor

/-- The elements of one matrix. -/
def matrixSize (t : MNTensor α) : ℕ := t.rows * t.cols

/-- The number of matrices. -/
def matrices (t : MNTensor α) : ℕ := t.leading.prod

/-- The matrix of the tensor that batch `i` uses: a tensor of two dimensions is one for all. -/
def matrixOf (t : MNTensor α) (i : ℕ) : ℕ := if t.ndim = 2 then 0 else i

/-- Where entry `(r, c)` of matrix `i` stands, transposed or not. -/
def entryIndex (t : MNTensor α) (transposed : Bool) (i r c : ℕ) : ℕ :=
  i * t.matrixSize + if transposed then c * t.cols + r else r * t.cols + c

/-- Entry `(r, c)` of matrix `i`, transposed or not. -/
def entry (t : MNTensor α) (transposed : Bool) (i r c : ℕ) : α :=
  t.data (t.entryIndex transposed i r c)

/-- The tensor with other contents in its buffer. -/
def withBuffer (t : MNTensor α) (buffer : ℕ → α) : MNTensor α := { t with buffer }

theorem prod_dims (t : MNTensor α) (h : 2 ≤ t.ndim) : t.dims.prod = t.matrices * t.matrixSize := by
  rw [t.dims_eq h, List.prod_append, matrices, matrixSize]
  simp

end MNTensor

/-- Entry `(m, n)` of the product of batch `i`. -/
def product [CommRing α] (a b : MNTensor α) (transpose_a transpose_b : Bool) (d : MatmulDims)
    (i m n : ℕ) : α :=
  ∑ k ∈ Finset.range d.K,
    a.entry transpose_a i m k * b.entry transpose_b (b.matrixOf i) k n

/-- Every entry of the result is stored once, and then with its value. -/
def WritesProduct (writes : List (ℕ × α)) (batches : ℕ) (d : MatmulDims)
    (value : ℕ → ℕ → ℕ → α) : Prop :=
  ∀ i < batches, ∀ m < d.M, ∀ n < d.N,
    (writes.filter fun w => w.1 = (i * d.M + m) * d.N + n).map Prod.snd = [value i m n]

/-- A result without entries asks for no store. -/
theorem WritesProduct.of_empty {writes : List (ℕ × α)} {batches : ℕ} {d : MatmulDims}
    {value : ℕ → ℕ → ℕ → α} (h : batches * d.M * d.N = 0) :
      WritesProduct writes batches d value := by
  intro i hi m hm n hn
  have hpos : 0 < batches * d.M * d.N :=
    Nat.mul_pos (Nat.mul_pos (Nat.zero_lt_of_lt hi) (Nat.zero_lt_of_lt hm)) (Nat.zero_lt_of_lt hn)
  omega

/-! ### Batch counts -/

/-- `batch_size` is the number of matrices, when these are not empty. -/
theorem batchSize_eq (a : MNTensor α) (h : 2 ≤ a.ndim) (hpos : 0 < a.matrixSize) :
    batchSize a = a.matrices := by
  have hle : a.matrices ≤ a.dims.prod := by
    rw [a.prod_dims h]
    exact Nat.le_mul_of_pos_right _ hpos
  rw [batchSize, MNShape.numel_map_natCast]
  exact toInt64_natCast (Nat.lt_of_le_of_lt hle a.numel_lt)

theorem toSizeT_batchSize (a : MNTensor α) (h : 2 ≤ a.ndim) (hpos : 0 < a.matrixSize) :
    toSizeT (batchSize a) = a.matrices := by
  have hle : a.matrices ≤ a.dims.prod := by
    rw [a.prod_dims h]
    exact Nat.le_mul_of_pos_right _ hpos
  have hlt : a.matrices < 2 ^ 63 := Nat.lt_of_le_of_lt hle a.numel_lt
  rw [batchSize_eq a h hpos]
  apply toSizeT_natCast
  unfold sizeTRange
  omega

end MetalNative
