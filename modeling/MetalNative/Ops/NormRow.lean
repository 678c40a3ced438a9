import MetalNative.Lib.TreeFold
import MetalNative.Ops.SoftmaxLarge

namespace MetalNative

open ExtReal ThreadLoop TreeFold List

/-!
# The rows of the normalisation kernels

How the threads of a team, one SIMD group or a threadgroup of 256, share a row: the kernels of
`normalization_kernel.metal` and of `fused_residual_norm.metal` go through it in one of four ways.

* `NormFamily.elements` — the elements of a thread.
* `NormFamily.teamSum` — a sum over the row, as the team takes it.
* `NormFamily.elements_perm` — the rows that a team goes through, every element once.
* `NormFamily.teamSum_eq` — the sum is that of the row.
-/

/-- The ways to go through a row. -/
inductive NormFamily where
  | basic
  | vec
  | large
  | regcache
  deriving DecidableEq, Repr

namespace NormFamily

/-- `LARGE_NORM_THREADS`, `RESID_LARGE_THREADS` and `RESID_REGCACHE_THREADS`; a SIMD group
otherwise. -/
def threads : NormFamily → ℕ
  | basic | vec => 32
  | large | regcache => 256

/-- The elements of the thread at position `p`.  The loop of a register-cached kernel stops behind
`MAX_ELEMENTS_PER_THREAD` of them. -/
def elements (family : NormFamily) (norm_size p : ℕ) : List ℕ :=
  match family with
  | basic => stride p 32 norm_size
  | vec =>
    let vec_count := norm_size / 4
    let remainder := norm_size % 4
    (stride p 32 vec_count).flatMap vecElements ++ if p < remainder then [vec_count * 4 + p] else []
  | large => stride p 256 norm_size
  | regcache => (stride p 256 norm_size).take 32

/-- The loop of a thread ends in fewer than `fuel` turns; its index may wrap around. -/
def ended (family : NormFamily) (norm_size fuel p : ℕ) : Bool :=
  match family with
  | basic => (wordFor uintRange norm_size 32 fuel p).isSome
  | vec => (wordFor uintRange (norm_size / 4) 32 fuel p).isSome
  | large => (wordFor uintRange norm_size 256 fuel p).isSome
  | regcache => true

/-- `partial_sum` or `partial_sq_sum` of a thread; `val` is what is added for an element. -/
noncomputable def partialSum (family : NormFamily) (norm_size : ℕ) (val : ℕ → ExtReal) (p : ℕ) :
    ExtReal :=
  match family with
  | basic => (stride p 32 norm_size).foldl (fun sum i => sum + val i) (real 0)
  | vec =>
    let vec_count := norm_size / 4
    let remainder := norm_size % 4
    let sum := (stride p 32 vec_count).foldl (fun sum i =>
      sum + (val (4 * i + 0) + val (4 * i + 1) + val (4 * i + 2) + val (4 * i + 3))) (real 0)
    if p < remainder then sum + val (vec_count * 4 + p) else sum
  | large => (stride p 256 norm_size).foldl (fun sum i => sum + val i) (real 0)
  | regcache => ((stride p 256 norm_size).take 32).foldl (fun sum i => sum + val i) (real 0)

/-- `simd_sum`. -/
noncomputable def simdSum (value : ℕ → ExtReal) : ExtReal :=
  ((List.range 32).map value).foldr (· + ·) (real 0)

/-- `total_sum` or `total_sq_sum` of a team whose first thread is at position `first`. -/
noncomputable def teamSum (family : NormFamily) (norm_size : ℕ) (val : ℕ → ExtReal) (first : ℕ) :
    ExtReal :=
  match family with
  | basic | vec => simdSum fun lane => family.partialSum norm_size val (first + lane)
  | large | regcache =>
    let shared := fun simd_group_id =>
      simdSum fun simd_lane_id => family.partialSum norm_size val
        (32 * simd_group_id + simd_lane_id)
    simdSum fun simd_lane_id => if simd_lane_id < 8 then shared simd_lane_id else real 0

/-! ### The elements of a team -/

/-- The vectors of a row, and what is left of it. -/
theorem vec_elements_perm (n : ℕ) :
    ((range 32).flatMap (elements vec n)).Perm (range n) := by
  have hsplit : ((range 32).flatMap (elements vec n)).Perm
      ((range 32).flatMap (fun p => (stride p 32 (n / 4)).flatMap vecElements)
        ++ (range 32).flatMap fun p => if p < n % 4 then [n / 4 * 4 + p] else []) :=
    (flatMap_append_perm _ _ _).symm
  have hvectors : ((range 32).flatMap
      fun p => (stride p 32 (n / 4)).flatMap vecElements).Perm (range (4 * (n / 4))) := by
    rw [← flatMap_assoc, ← flatMap_vecElements]
    exact (allStrides_perm (by decide) (n / 4)).flatMap_right vecElements
  have hrest : ((range 32).flatMap fun p => if p < n % 4 then [n / 4 * 4 + p] else [])
      = (range (n % 4)).map (n / 4 * 4 + ·) := by
    have hbelow := flatMap_range_below 32 (n % 4) (n / 4 * 4 + ·)
    rw [show min 32 (n % 4) = n % 4 by omega] at hbelow
    rw [← hbelow]
    apply flatMap_congr
    intro p _
    by_cases hp : p < n % 4
    · rw [if_pos hp, if_neg (by omega)]
    · rw [if_neg hp, if_pos (by omega)]
  have hn : 4 * (n / 4) + n % 4 = n := by omega
  have hall : range n
      = range (4 * (n / 4)) ++ (range (n % 4)).map (n / 4 * 4 + ·) := by
    rw [Nat.mul_comm (n / 4) 4, ← range_add, hn]
  rw [hall, ← hrest]
  exact hsplit.trans (hvectors.append_right _)

variable {n : ℕ}

/-- A thread of a register-cached kernel has room for its elements. -/
theorem take_stride (hn : n ≤ 8192) (p : ℕ) :
    (stride p 256 n).take 32 = stride p 256 n := by
  apply take_of_length_le
  rw [stride, length_map, length_range]
  omega

variable {family : NormFamily}

/-- **Every element once.** -/
theorem elements_perm (h : family = regcache → n ≤ 8192) :
    ((range family.threads).flatMap (family.elements n)).Perm (range n) := by
  cases family with
  | basic | large => exact allStrides_perm (by decide) n
  | vec => exact vec_elements_perm n
  | regcache =>
    have hall : elements regcache n = fun p => stride p 256 n := by
      ext1 p
      exact take_stride (h rfl) p
    rw [hall]
    exact allStrides_perm (by decide) n

/-- A long row is cut off in a register-cached kernel. -/
theorem lt_of_mem_regcache {n p r : ℕ} (h : r ∈ elements regcache n p) : r < p + 8192 := by
  rw [elements, stride, ← map_take, take_range] at h
  obtain ⟨t, ht, rfl⟩ := mem_map.mp h
  have := mem_range.mp ht
  omega

theorem lt_of_mem_elements {n p r : ℕ} (h : r ∈ family.elements n p) :
    r < n := by
  cases family with
  | basic | large => exact lt_of_mem_stride h (by decide)
  | vec =>
    simp only [elements, mem_append, mem_flatMap] at h
    rcases h with ⟨i, hi, hr⟩ | hr
    · obtain ⟨j, hj, rfl⟩ := mem_map.mp hr
      have := lt_of_mem_stride hi (by decide)
      have := mem_range.mp hj
      omega
    · split_ifs at hr
      · simp only [mem_singleton] at hr
        omega
      · simp at hr
  | regcache => exact lt_of_mem_stride (mem_of_mem_take h) (by decide)

/-- A loop ends when its index does not wrap around. -/
theorem ended_of_fits (hn : n < uintRange)
    (hbasic : family = basic → n + 32 ≤ uintRange) (hlarge : family = large → n + 256 ≤ uintRange)
    {p fuel : ℕ} (hp : p < family.threads) (hfuel : n < fuel) : family.ended n fuel p = true := by
  cases family with
  | basic =>
    rw [ended, wordFor_eq (by decide) (hbasic rfl) hp hfuel]
    rfl
  | vec =>
    have hfit : n / 4 + 32 ≤ uintRange := by
      unfold uintRange at hn ⊢
      omega
    rw [ended, wordFor_eq (by decide) hfit hp (by omega)]
    rfl
  | large =>
    rw [ended, wordFor_eq (by decide) (hlarge rfl) hp hfuel]
    rfl
  | regcache => rfl

/-- The loop of the first thread goes on forever over a row that is too long. -/
theorem ended_large_of_long (hlong : ¬ n + 256 ≤ uintRange) (fuel : ℕ) :
    large.ended n fuel 0 = false := by
  rw [ended, wordFor_none (by decide) (by decide) (by omega) (by decide) (by decide)]
  rfl

/-! ### The sums -/

/-- The loop of a thread. -/
theorem partialSum_eq (family : NormFamily) (n : ℕ) (y : ℕ → ℝ) (p : ℕ) :
    family.partialSum n (fun i => real (y i)) p = (sumSummary y).value (family.elements n p) := by
  cases family with
  | basic | large | regcache => exact (sumSummary y).foldl_eq _
  | vec =>
    have hvec : ∀ i, real (y (4 * i + 0)) + real (y (4 * i + 1)) + real (y (4 * i + 2))
        + real (y (4 * i + 3)) = (sumSummary y).value (vecElements i) := by
      intro i
      show _ = real (([4 * i + 0, 4 * i + 1, 4 * i + 2, 4 * i + 3].map y).sum)
      simp [add_assoc]
    simp only [partialSum, elements, hvec]
    rw [(sumSummary y).foldl_flatMap_eq]
    split_ifs
    · rw [← (sumSummary y).append, (sumSummary y).singleton]
    · rw [append_nil]

/-- The lanes of a SIMD group. -/
theorem simdSum_eq (y : ℕ → ℝ) (items : ℕ → List ℕ) :
    simdSum (fun lane => (sumSummary y).value (items lane))
      = (sumSummary y).value ((range 32).flatMap items) :=
  (sumSummary y).foldr_eq _ _

/-- **The sum of a team.** -/
theorem teamSum_eq (h : family = regcache → n ≤ 8192) (y : ℕ → ℝ) :
    family.teamSum n (fun i => real (y i)) 0 = real (∑ r ∈ Finset.range n, y r) := by
  have hgroups : ∀ items : ℕ → List ℕ, (simdSum fun lane => if lane < 8 then
        simdSum fun l => (sumSummary y).value (items (32 * lane + l)) else real 0)
      = (sumSummary y).value ((range 256).flatMap items) := by
    intro items
    have hlane : (fun lane => if lane < 8 then
          simdSum fun l => (sumSummary y).value (items (32 * lane + l)) else real 0)
        = fun lane => (sumSummary y).value (if lane < 8 then
          (range 32).flatMap (fun l => items (32 * lane + l)) else []) := by
      ext lane
      split_ifs
      · exact simdSum_eq y _
      · exact (sumSummary y).nil.symm
    have height : (range 32).flatMap (fun lane => if lane < 8 then
          (range 32).flatMap (fun l => items (32 * lane + l)) else [])
        = (range 8).flatMap fun lane => (range 32).flatMap fun l =>
          items (32 * lane + l) :=
      by
      -- the lanes behind the eighth hold nothing
      have hsplit : ∀ f : ℕ → List ℕ, (range 32).flatMap f
          = (range 8).flatMap f ++ ((range 24).map (8 + ·)).flatMap f := by
        intro f
        rw [← flatMap_append]
        rfl
      have hrest : ((range 24).map (8 + ·)).flatMap (fun lane => if lane < 8 then
          (range 32).flatMap (fun l => items (32 * lane + l)) else []) = [] := by
        rw [flatMap_eq_nil_iff]
        intro lane hmem
        obtain ⟨j, -, rfl⟩ := mem_map.mp hmem
        exact if_neg (by omega)
      rw [hsplit, hrest, append_nil]
      apply flatMap_congr
      intro lane hmem
      exact if_pos (mem_range.mp hmem)
    rw [hlane, simdSum_eq, height, ← flatMap_range_mul 32 8 items]
  have hsum : family.teamSum n (fun i => real (y i)) 0
      = (sumSummary y).value ((range family.threads).flatMap (family.elements n)) := by
    cases family with
    | basic | vec =>
      simp only [teamSum, partialSum_eq, Nat.zero_add]
      exact simdSum_eq y _
    | large | regcache =>
      simp only [teamSum, partialSum_eq]
      exact hgroups _
  rw [hsum, (sumSummary y).perm (elements_perm h)]
  rfl

end NormFamily

end MetalNative
