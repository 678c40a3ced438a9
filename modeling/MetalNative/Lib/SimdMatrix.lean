import Mathlib.Data.Matrix.Mul
import MetalNative.Lib.ThreadLoop

/-!
# 8×8 SIMD-group matrices over a linear memory

The matrix instructions of a SIMD group: an 8×8 block is loaded from a memory with a row stride,
blocks are multiplied and accumulated, and a block is stored again.  A memory is a function of
the address; the scalars are any semiring, so the arithmetic is exact.

* `store_at`, `store_off` — what a store of a block leaves inside and outside the block.
* `accumulate_apply` — the entries of a sum of block products.
* `storeBlocks_apply` — disjoint blocks stored in any order.
-/

namespace SimdMatrix

variable {α : Type*}

/-- A matrix of a SIMD group. -/
abbrev Mat8 (α : Type*) := Matrix (Fin 8) (Fin 8) α

/-! ### The instructions -/

/-- `simdgroup_load(m, p, stride)`, with `p = mem + base`. -/
def load (mem : ℕ → α) (base stride : ℕ) : Mat8 α := fun i j => mem (base + i * stride + j)

/-- `simdgroup_multiply_accumulate(d, a, b, c)`. -/
def multiplyAccumulate [NonUnitalNonAssocSemiring α] (a b c : Mat8 α) : Mat8 α := a * b + c

/-- `simdgroup_store(m, p, stride)`, with `p = mem + base`. -/
def store (m : Mat8 α) (base stride : ℕ) (mem : ℕ → α) : ℕ → α :=
  ThreadLoop.storeAll (List.finRange 8 ×ˢ List.finRange 8)
    (fun ij => base + ij.1 * stride + ij.2) (fun ij => m ij.1 ij.2) mem

@[simp] theorem load_apply (mem : ℕ → α) (base stride : ℕ) (i j : Fin 8) :
    load mem base stride i j = mem (base + i * stride + j) := rfl

/-! ### Row-major addresses -/

section RowMajor

variable {rows stride r c r' c' : ℕ}

theorem rowMajor_lt (hr : r < rows) (hc : c < stride) : r * stride + c < rows * stride := by
  calc r * stride + c < r * stride + stride := by omega
    _ = (r + 1) * stride := (Nat.add_one_mul r stride).symm
    _ ≤ rows * stride := Nat.mul_le_mul_right stride hr

theorem rowMajor_div (hc : c < stride) : (r * stride + c) / stride = r := by
  rw [Nat.mul_comm, Nat.mul_add_div (by omega), Nat.div_eq_of_lt hc, Nat.add_zero]

theorem rowMajor_mod (hc : c < stride) : (r * stride + c) % stride = c :=
  Nat.mul_add_mod_of_lt hc

/-- Two cells of a row-major array coincide only when their rows and columns do. -/
theorem rowMajor_inj (hc : c < stride) (hc' : c' < stride) :
    r * stride + c = r' * stride + c' ↔ r = r' ∧ c = c' := by
  constructor
  · intro h
    have hdiv : (r * stride + c) / stride = (r' * stride + c') / stride := by rw [h]
    have hmod : (r * stride + c) % stride = (r' * stride + c') % stride := by rw [h]
    rw [rowMajor_div hc, rowMajor_div hc'] at hdiv
    rw [rowMajor_mod hc, rowMajor_mod hc'] at hmod
    exact ⟨hdiv, hmod⟩
  · rintro ⟨rfl, rfl⟩
    rfl

end RowMajor

/-! ### Stored blocks -/

/-- The entries of a stored block. -/
theorem store_at (m : Mat8 α) {q k stride : ℕ} (hk : k + 8 ≤ stride) (mem : ℕ → α) (i j : Fin 8) :
    store m (q * stride + k) stride mem ((q + i) * stride + (k + j)) = m i j := by
  apply ThreadLoop.storeAll_of_mem
  · rintro ⟨i', j'⟩ - hij
    -- the address of an entry determines the entry
    have hcell : (q + i') * stride + (k + j') = (q + i) * stride + (k + (j : ℕ)) := by
      rw [← hij, Nat.add_mul]
      simp only
      omega
    obtain ⟨hrow, hcol⟩ := (rowMajor_inj (by omega) (by omega)).mp hcell
    have hi : i' = i := Fin.ext (by omega)
    have hj : j' = j := Fin.ext (by omega)
    rw [hi, hj]
  · left
    refine ⟨(i, j), by simp, ?_⟩
    rw [Nat.add_mul]
    simp only
    omega

/-- A store of a block leaves every cell outside the block alone. -/
theorem store_off (m : Mat8 α) {q k stride : ℕ} (hk : k + 8 ≤ stride) (mem : ℕ → α) {r c : ℕ}
    (hc : c < stride) (hout : ∀ i j : Fin 8, ¬ (q + i = r ∧ k + j = c)) :
    store m (q * stride + k) stride mem (r * stride + c) = mem (r * stride + c) := by
  apply ThreadLoop.storeAll_of_ne
  rintro ⟨i, j⟩ - hij
  apply hout i j
  have hcell : (q + i) * stride + (k + (j : ℕ)) = r * stride + c := by
    rw [← hij, Nat.add_mul]
    simp only
    omega
  exact (rowMajor_inj (by omega) hc).mp hcell

/-! ### Sums of block products -/

section Semiring

variable [Semiring α]

/-- The accumulator after one `simdgroup_multiply_accumulate` for each pair of blocks. -/
theorem accumulate_apply {ι : Type*} (steps : List ι) (a b : ι → Mat8 α) (acc : Mat8 α)
    (i j : Fin 8) :
    steps.foldl (fun acc t => multiplyAccumulate (a t) (b t) acc) acc i j
      = acc i j + (steps.map fun t => ∑ l, a t i l * b t l j).sum := by
  induction steps generalizing acc with
  | nil => simp
  | cons t rest ih =>
    rw [List.foldl_cons, ih, List.map_cons, List.sum_cons]
    simp only [multiplyAccumulate, Matrix.add_apply, Matrix.mul_apply]
    rw [add_comm (∑ l, a t i l * b t l j) (acc i j), add_assoc]

end Semiring

theorem sum_map_range [AddCommMonoid α] (n : ℕ) (f : ℕ → α) :
    ((List.range n).map f).sum = ∑ t ∈ Finset.range n, f t := rfl

/-- An accumulator loop is a sum. -/
theorem foldl_range_add [AddCommMonoid α] (n : ℕ) (f : ℕ → α) :
    (List.range n).foldl (fun s t => s + f t) 0 = ∑ t ∈ Finset.range n, f t := by
  induction n with
  | zero => simp
  | succ n ih => rw [List.range_succ, List.foldl_append, ih, Finset.sum_range_succ]; simp

/-- A sum over `8 * n` items, eight at a time. -/
theorem sum_range_eight_mul [AddCommMonoid α] {m n : ℕ} (hm : m = 8 * n) (f : ℕ → α) :
    ∑ d ∈ Finset.range m, f d = ∑ t ∈ Finset.range n, ∑ l : Fin 8, f (8 * t + l) := by
  subst hm
  induction n with
  | zero => simp
  | succ n ih =>
    rw [Nat.mul_succ, Finset.sum_range_add, ih,
      Finset.sum_range_succ (fun t => ∑ l : Fin 8, f (8 * t + l))]
    rw [Fin.sum_univ_eq_sum_range (fun l => f (8 * n + l)) 8]

/-! ### Blocks stored side by side -/

/-- Store the block of each origin `(q, k)`, in the order of the list. -/
def storeBlocks (block : ℕ × ℕ → Mat8 α) (stride : ℕ) (origins : List (ℕ × ℕ)) (mem : ℕ → α) :
    ℕ → α :=
  origins.foldl (fun mem o => store (block o) (o.1 * stride + o.2) stride mem) mem

/-- The origins of the 8×8 blocks of a square of `m * m` blocks. -/
def blockGrid (m : ℕ) : List (ℕ × ℕ) :=
  (List.range m).flatMap fun i => (List.range m).map fun j => (8 * i, 8 * j)

theorem mem_blockGrid {m : ℕ} {o : ℕ × ℕ} :
    o ∈ blockGrid m ↔ ∃ i < m, ∃ j < m, (8 * i, 8 * j) = o := by
  simp [blockGrid]

/-- Cell `(8 * a + i, 8 * b + j)` holds entry `(i, j)` of the block at `(8 * a, 8 * b)`, whatever
the order of the stores: it is written by the store of that block and by no other. -/
theorem storeBlocks_apply (block : ℕ × ℕ → Mat8 α) {m stride : ℕ} (hstride : 8 * m ≤ stride)
    {origins : List (ℕ × ℕ)} (hgrid : ∀ o ∈ origins, o ∈ blockGrid m) (mem : ℕ → α) {a b : ℕ}
    (i j : Fin 8) (hb : b < m) :
    storeBlocks block stride origins mem ((8 * a + i) * stride + (8 * b + j))
      = if (8 * a, 8 * b) ∈ origins then block (8 * a, 8 * b) i j
        else mem ((8 * a + i) * stride + (8 * b + j)) := by
  induction origins generalizing mem with
  | nil => simp [storeBlocks]
  | cons o rest ih =>
    have hrest := ih (fun p hp => hgrid p (by simp [hp]))
      (store (block o) (o.1 * stride + o.2) stride mem)
    simp only [storeBlocks, List.foldl_cons] at hrest ⊢
    rw [hrest]
    obtain ⟨x, hx, y, hy, rfl⟩ := mem_blockGrid.mp (hgrid o (by simp))
    by_cases hin : (8 * a, 8 * b) ∈ rest
    · simp [hin]
    · by_cases ho : (8 * a, 8 * b) = (8 * x, 8 * y)
      · -- the store of the block that the cell lies in
        rw [if_neg hin, if_pos (by simp [ho]), ho]
        obtain ⟨ha, hb⟩ := Prod.mk.injEq _ _ _ _ ▸ ho
        rw [ha, hb]
        exact store_at _ (by omega) mem i j
      · -- the store of another block
        have hout : ∀ i' j' : Fin 8, ¬ (8 * x + (i' : ℕ) = 8 * a + i ∧ 8 * y + j' = 8 * b + j) := by
          rintro i' j' ⟨hrow, hcol⟩
          apply ho
          rw [Prod.mk.injEq]
          omega
        rw [if_neg hin, store_off _ (by omega) mem (by omega) hout, if_neg]
        rw [List.mem_cons, not_or]
        exact ⟨ho, hin⟩

end SimdMatrix
