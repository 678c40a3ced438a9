import MetalNative.Matmul.VecMat

namespace MetalNative

open ThreadLoop Finset

/-!
# The sum of a SIMD group

What `simd_sum` returns in the three forms of the loop, for any terms.

* `sum_laneTerms`, `sum_laneTermsUnrolled` — together the lanes add up every term once.
* `sum_laneTermsRecounted` — with `k_rem` the last full vector of each lane is added twice.
-/

variable {α : Type*} [AddCommMonoid α]

/-- The terms of the vector at `k` that are inside the row. -/
def chunk (K : ℕ) (f : ℕ → α) (k : ℕ) : α :=
  ∑ j ∈ Finset.range 4, if k + j < K then f (k + j) else 0

/-- There is nothing behind the row. -/
theorem chunk_of_le {K k : ℕ} (f : ℕ → α) (h : K ≤ k) : chunk K f k = 0 :=
  sum_eq_zero fun j _ => if_neg (by omega)

/-- A full vector. -/
theorem sum_vec4 {K k : ℕ} (f : ℕ → α) (h : k + 4 ≤ K) : ((vec4 k).map f).sum = chunk K f k := by
  have h0 : k < K := by omega
  have h1 : k + 1 < K := by omega
  have h2 : k + 2 < K := by omega
  have h3 : k + 3 < K := by omega
  simp [vec4, chunk, sum_range_succ, h0, h1, h2, h3, add_assoc]

/-- The elements left over, if there are any. -/
theorem sum_remainder (K k : ℕ) (f : ℕ → α) : ((remainder K k).map f).sum = chunk K f k := by
  unfold remainder
  by_cases hk : k < K
  · rw [if_pos hk, sum_map_stride]
    have hlen : (stride k 1 (min K (k + 4))).length = min K (k + 4) - k := by
      simp only [stride, List.length_map, List.length_range, Nat.div_one]
      omega
    rw [hlen, chunk]
    -- the terms from `min K (k + 4)` on are not in the row
    have hle : min K (k + 4) - k ≤ 4 := by omega
    rw [← sum_subset (range_mono hle)]
    · apply sum_congr rfl
      intro t ht
      have hin : k + t < K := by
        have := mem_range.mp ht
        omega
      rw [Nat.mul_one, if_pos hin]
    · intro t ht hout
      have h4 := mem_range.mp ht
      rw [mem_range] at hout
      exact if_neg (by omega)
  · rw [if_neg hk, chunk_of_le f (by omega)]
    simp

/-! ### One lane -/

/-- The vectors of a lane from `k` on, up to the end of the row. -/
def laneChunks (K : ℕ) (f : ℕ → α) (k : ℕ) : α :=
  ∑ t ∈ Finset.range ((K - k + 127) / 128), chunk K f (k + t * 128)

/-- Any number of vectors that reaches the end of the row gives the same sum. -/
theorem sum_chunks_eq {K k n : ℕ} (f : ℕ → α) (h : K ≤ k + n * 128) :
    ∑ t ∈ range n, chunk K f (k + t * 128) = laneChunks K f k := by
  apply sum_range_of_zero
  · intro t ht
    apply chunk_of_le
    omega
  · omega

theorem stride128_length (K k : ℕ) :
    (stride k 128 (K - 3)).length = (K - 3 - k + 127) / 128 := by
  simp [stride]

/-- The full vectors of a loop. -/
theorem sum_fullVectors (K k : ℕ) (f : ℕ → α) :
    (((stride k 128 (K - 3)).flatMap vec4).map f).sum
      = ∑ t ∈ range ((K - 3 - k + 127) / 128), chunk K f (k + t * 128) := by
  rw [sum_map_flatMap, sum_map_stride, stride128_length]
  apply sum_congr rfl
  intro t ht
  have hlt := mem_range.mp ht
  exact sum_vec4 f (by omega)

/-- A loop and its remainder. -/
theorem sum_vectorLoop (K k : ℕ) (f : ℕ → α) :
    ((vectorLoop K k).map f).sum = laneChunks K f k := by
  rw [vectorLoop, List.map_append, List.sum_append, sum_fullVectors, sum_remainder, loopExit,
    stride128_length, ← sum_range_succ (fun t => chunk K f (k + t * 128))]
  apply sum_chunks_eq
  omega

/-- The unrolled loop adds up the same vectors. -/
theorem sum_unrolled (K lane : ℕ) (f : ℕ → α) :
    ((laneTermsUnrolled K lane).map f).sum = laneChunks K f (lane * 4) := by
  have hlen : (stride (lane * 4) 256 (K - 131)).length = (K - 131 - lane * 4 + 255) / 256 := by
    simp [stride]
  rw [laneTermsUnrolled, List.map_append, List.sum_append, sum_vectorLoop, loopExit, hlen,
    sum_map_flatMap, sum_map_stride, hlen]
  generalize hc : (K - 131 - lane * 4 + 255) / 256 = c
  -- two vectors in each turn
  have hmain : ∑ t ∈ range c,
        ((vec4 (lane * 4 + t * 256) ++ vec4 (lane * 4 + t * 256 + 128)).map f).sum
      = ∑ t ∈ range (2 * c), chunk K f (lane * 4 + t * 128) := by
    rw [sum_range_mul]
    apply sum_congr rfl
    intro t ht
    have hlt := mem_range.mp ht
    rw [List.map_append, List.sum_append, sum_vec4 (K := K) f (by omega),
      sum_vec4 (K := K) f (by omega)]
    simp only [sum_range_succ, sum_range_zero, zero_add]
    congr 2 <;> omega
  have hrest : laneChunks K f (lane * 4 + c * 256)
      = ∑ t ∈ range K, chunk K f (lane * 4 + (2 * c + t) * 128) := by
    rw [← sum_chunks_eq (n := K) f (by omega)]
    apply sum_congr rfl
    intro t _
    congr 1
    omega
  rw [hmain, hrest, ← sum_range_add (fun t => chunk K f (lane * 4 + t * 128))]
  apply sum_chunks_eq
  omega

/-! ### All lanes -/

/-- The lanes together cover the row. -/
theorem sum_laneChunks (K : ℕ) (f : ℕ → α) :
    ((List.range 32).map fun lane => laneChunks K f (lane * 4)).sum
      = ∑ k ∈ range K, f k := by
  have hlanes : ∀ lane, laneChunks K f (lane * 4)
      = ∑ t ∈ range K, chunk K f (lane * 4 + t * 128) :=
    fun lane => (sum_chunks_eq f (by omega)).symm
  calc ((List.range 32).map fun lane => laneChunks K f (lane * 4)).sum
      = ∑ lane ∈ range 32, ∑ t ∈ range K, chunk K f (lane * 4 + t * 128) := by
        simp only [hlanes]
        rfl
    _ = ∑ t ∈ range K, ∑ lane ∈ range 32, chunk K f (4 * (32 * t + lane)) := by
        rw [sum_comm]
        apply sum_congr rfl
        intro t _
        apply sum_congr rfl
        intro lane _
        congr 1
        omega
    _ = ∑ q ∈ range (32 * K), chunk K f (4 * q) :=
        (sum_range_mul 32 K fun q => chunk K f (4 * q)).symm
    _ = ∑ k ∈ range (4 * (32 * K)), if k < K then f k else 0 :=
        (sum_range_mul 4 (32 * K) fun k => if k < K then f k else 0).symm
    _ = ∑ k ∈ range K, if k < K then f k else 0 :=
        sum_range_of_zero (fun k hk => if_neg (by omega)) (by omega)
    _ = ∑ k ∈ range K, f k :=
        sum_congr rfl fun k hk => if_pos (mem_range.mp hk)

/-- **The plain loop.** -/
theorem sum_laneTerms (K : ℕ) (f : ℕ → α) :
    (((List.range 32).flatMap (laneTerms K)).map f).sum = ∑ k ∈ range K, f k := by
  rw [sum_map_flatMap, ← sum_laneChunks K f]
  simp only [laneTerms, sum_vectorLoop]

/-- **The unrolled loop.** -/
theorem sum_laneTermsUnrolled (K : ℕ) (f : ℕ → α) :
    (((List.range 32).flatMap (laneTermsUnrolled K)).map f).sum = ∑ k ∈ range K, f k := by
  rw [sum_map_flatMap, ← sum_laneChunks K f]
  simp only [sum_unrolled]

/-! ### The remainder at `k_rem` -/

/-- `k` lies in the last full vector of its lane. -/
def inLastVector (K k : ℕ) : Prop := k / 4 * 4 + 4 ≤ K ∧ K < k / 4 * 4 + 128

instance (K k : ℕ) : Decidable (inLastVector K k) := by
  unfold inLastVector
  infer_instance

/-- The terms of the last full vectors. -/
def lastVectors (K : ℕ) (f : ℕ → α) (k : ℕ) : α := if inLastVector K k then f k else 0

/-- Such a vector is in it as a whole or not at all. -/
theorem chunk_lastVectors (K q : ℕ) (f : ℕ → α) :
    chunk K (lastVectors K f) (4 * q)
      = if 4 * q + 4 ≤ K ∧ K < 4 * q + 128 then chunk K f (4 * q) else 0 := by
  have hin : ∀ j ∈ range 4,
      (inLastVector K (4 * q + j) ↔ 4 * q + 4 ≤ K ∧ K < 4 * q + 128) := by
    intro j hj
    have hlt := mem_range.mp hj
    have hdiv : (4 * q + j) / 4 * 4 = 4 * q := by omega
    rw [inLastVector, hdiv]
  by_cases hq : 4 * q + 4 ≤ K ∧ K < 4 * q + 128
  · rw [if_pos hq, chunk, chunk]
    apply sum_congr rfl
    intro j hj
    rw [lastVectors, if_pos ((hin j hj).mpr hq)]
  · rw [if_neg hq, chunk]
    apply sum_eq_zero
    intro j hj
    rw [lastVectors, if_neg (mt (hin j hj).mp hq), ite_self]

/-- `k_rem` of a lane inside the row. -/
theorem recountStart_of_le {K base : ℕ} (hK : K < uintRange) (h : base ≤ K) :
    recountStart K base = base + (K - base) / 128 * 128 := by
  have hsub : (K + uintRange - base) % uintRange = K - base := by
    rw [show K + uintRange - base = K - base + uintRange by omega, Nat.add_mod_right]
    exact Nat.mod_eq_of_lt (by omega)
  rw [recountStart, hsub]
  apply toUInt_of_lt
  omega

/-- A lane that starts behind the row has no remainder. -/
theorem le_recountStart {K base : ℕ} (hbase : base < 128) (h : K < base) :
    K ≤ recountStart K base := by
  unfold recountStart toUInt uintRange
  omega

/-- A lane adds its last full vector once more. -/
theorem sum_recounted {K lane : ℕ} (hK : K < uintRange) (hlane : lane < 32) (f : ℕ → α) :
    ((laneTermsRecounted K lane).map f).sum
      = laneChunks K f (lane * 4) + laneChunks K (lastVectors K f) (lane * 4) := by
  rw [laneTermsRecounted, List.map_append, List.sum_append, sum_fullVectors, sum_remainder]
  have hchunk : ∀ t, chunk K (lastVectors K f) (lane * 4 + t * 128)
      = if lane * 4 + t * 128 + 4 ≤ K ∧ K < lane * 4 + t * 128 + 128
          then chunk K f (lane * 4 + t * 128) else 0 := by
    intro t
    have hq : lane * 4 + t * 128 = 4 * (lane + 32 * t) := by omega
    rw [hq]
    exact chunk_lastVectors K (lane + 32 * t) f
  by_cases hle : lane * 4 ≤ K
  · rw [recountStart_of_le hK hle]
    generalize ht0 : (K - lane * 4) / 128 = t0
    by_cases hfull : lane * 4 + t0 * 128 + 4 ≤ K
    · -- the last vector is full: the loop has added it before the remainder does
      have hT : (K - 3 - lane * 4 + 127) / 128 = t0 + 1 := by omega
      have hlast : laneChunks K (lastVectors K f) (lane * 4)
          = chunk K f (lane * 4 + t0 * 128) := by
        rw [← sum_chunks_eq (n := t0 + 1) _ (by omega), sum_range_succ, hchunk t0,
          if_pos ⟨hfull, by omega⟩, sum_eq_zero, zero_add]
        intro t ht
        have hlt := mem_range.mp ht
        rw [hchunk t, if_neg (by omega)]
      rw [hT, hlast, sum_chunks_eq f (by omega)]
    · -- the remainder is the one of the plain loop
      have hT : (K - 3 - lane * 4 + 127) / 128 = t0 := by omega
      have hlast : laneChunks K (lastVectors K f) (lane * 4) = 0 := by
        apply sum_eq_zero
        intro t _
        rw [hchunk t, if_neg (by omega)]
      rw [hT, hlast, add_zero, ← sum_range_succ (fun t => chunk K f (lane * 4 + t * 128))]
      exact sum_chunks_eq f (by omega)
  · -- the lane starts behind the row
    have hzero : ∀ g : ℕ → α, laneChunks K g (lane * 4) = 0 := by
      intro g
      apply sum_eq_zero
      intro t _
      exact chunk_of_le g (by omega)
    have hT : (K - 3 - lane * 4 + 127) / 128 = 0 := by omega
    rw [hzero, hzero, hT, chunk_of_le f (le_recountStart (by omega) (by omega))]
    simp

/-- **The loop with `k_rem`.** -/
theorem sum_laneTermsRecounted {K : ℕ} (hK : K < uintRange) (f : ℕ → α) :
    (((List.range 32).flatMap (laneTermsRecounted K)).map f).sum
      = ∑ k ∈ range K, f k + ∑ k ∈ range K, lastVectors K f k := by
  have hlanes : (List.range 32).map (fun lane => ((laneTermsRecounted K lane).map f).sum)
      = (List.range 32).map fun lane =>
          laneChunks K f (lane * 4) + laneChunks K (lastVectors K f) (lane * 4) := by
    apply List.map_congr_left
    intro lane hlane
    exact sum_recounted hK (List.mem_range.mp hlane) f
  rw [sum_map_flatMap, hlanes, List.sum_map_add, sum_laneChunks, sum_laneChunks]

end MetalNative
