import MetalNative.Lib.WordLoop
import MetalNative.Matmul.LaneSum

namespace MetalNative

open ThreadLoop

/-!
# The indices that a SIMD group adds up

The loops of the vector-matrix kernels on `uint`, and how often an index of the row is in them.

* `VecMatKernel.execLane` — what a lane adds up, with the loops as they are written.
* `VecMatKernel.execLane_eq`, `VecMatKernel.execLane_none` — the loops end with the terms of the
  lane, unless the row is so long that the index wraps around.
* `VecMatKernel.count_terms` — how often an index is added up.
* `vecmat_coverage` — every index of the row once, but for the remainder that starts at `k_rem`.
-/

/-! ### The loops on `uint` -/

namespace VecMatKernel

/-- The indices that a lane adds up into the sum of each of its outputs, if its loops end in fewer
than `fuel` turns. -/
def execLane (kernel : VecMatKernel) (transpose_b : Bool) (K fuel lane : ℕ) : Option (List ℕ) :=
  if kernel.unrolled transpose_b then do
    let main ← wordLoop uintRange K 132 256 fuel (lane * 4)
    let rest ← wordLoop uintRange K 4 128 fuel main.2
    some (main.1.flatMap (fun k => vec4 k ++ vec4 (k + 128))
      ++ (rest.1.flatMap vec4 ++ remainder K rest.2))
  else do
    let main ← wordLoop uintRange K 4 128 fuel (lane * 4)
    some (main.1.flatMap vec4
      ++ remainder K (if kernel.recounted transpose_b then recountStart K (lane * 4) else main.2))

/-- The loop over single vectors. -/
theorem vectorLoop_ends {K start fuel : ℕ} (hfit : K + 128 < uintRange)
    (hstart : start ≤ K + 124) (hfuel : K < fuel) :
    wordLoop uintRange K 4 128 fuel start
      = some (stride start 128 (K - 3), loopExit start 128 (K - 3)) := by
  have hbound : K + 1 - 4 = K - 3 := by omega
  have hlen := stride128_length K start
  have hlt : (stride start 128 (K + 1 - 4)).length < fuel := by
    rw [hbound, hlen]
    omega
  have hend := wordLoop_eq (by decide) hfit fuel start (Or.inl (by omega)) hlt
  rw [hend, hbound, loopExit]

/-- The loop over two vectors. -/
theorem unrolledLoop_ends {K lane fuel : ℕ} (hfit : K + 256 < uintRange) (hlane : lane < 32)
    (hfuel : K < fuel) :
    wordLoop uintRange K 132 256 fuel (lane * 4)
      = some (stride (lane * 4) 256 (K - 131), loopExit (lane * 4) 256 (K - 131)) := by
  have hbound : K + 1 - 132 = K - 131 := by omega
  have hlen : (stride (lane * 4) 256 (K - 131)).length = (K - 131 - lane * 4 + 255) / 256 := by
    simp [stride]
  have hlt : (stride (lane * 4) 256 (K + 1 - 132)).length < fuel := by
    rw [hbound, hlen]
    omega
  have hend := wordLoop_eq (by decide) hfit fuel (lane * 4) (Or.inl (by omega)) hlt
  rw [hend, hbound, loopExit]

/-- Where the second loop starts. -/
theorem unrolledExit_le {K lane : ℕ} (hlane : lane < 32) :
    loopExit (lane * 4) 256 (K - 131) ≤ K + 124 := by
  have hlen : (stride (lane * 4) 256 (K - 131)).length = (K - 131 - lane * 4 + 255) / 256 := by
    simp [stride]
  rw [loopExit, hlen]
  omega

variable {kernel : VecMatKernel} {transpose_b : Bool}

/-- **The loops end** with the terms of the lane. -/
theorem execLane_eq {K fuel lane : ℕ}
    (hend : kernel.loopsEnd transpose_b K = true) (hlane : lane < 32) (hfuel : K < fuel) :
    kernel.execLane transpose_b K fuel lane = some (kernel.terms transpose_b K lane) := by
  unfold loopsEnd at hend
  unfold execLane terms
  by_cases hunrolled : kernel.unrolled transpose_b = true
  · simp only [hunrolled, if_true, decide_eq_true_eq] at hend ⊢
    rw [unrolledLoop_ends hend hlane hfuel]
    simp only [Option.bind_eq_bind, Option.bind_some]
    rw [vectorLoop_ends (by omega) (unrolledExit_le hlane) hfuel]
    simp [laneTermsUnrolled, vectorLoop]
  · simp only [hunrolled, if_false, decide_eq_true_eq, Bool.false_eq_true] at hend ⊢
    rw [vectorLoop_ends hend (by omega) hfuel]
    by_cases hrec : kernel.recounted transpose_b = true
    · simp [hrec, laneTermsRecounted]
    · simp [hrec, laneTerms, vectorLoop]

/-- **The loops of the last lane do not end** when the row is that long. -/
theorem execLane_none {K : ℕ}
    (hend : ¬ kernel.loopsEnd transpose_b K = true) (fuel : ℕ) :
    kernel.execLane transpose_b K fuel 31 = none := by
  unfold loopsEnd at hend
  unfold execLane
  have hR : 0 < uintRange := by decide
  by_cases hunrolled : kernel.unrolled transpose_b = true
  · simp only [hunrolled, if_true, decide_eq_true_eq] at hend ⊢
    rw [wordLoop_none hR (by decide) (by omega) fuel _ (by decide)]
    simp
  · simp only [hunrolled, if_false, decide_eq_true_eq, Bool.false_eq_true] at hend ⊢
    rw [wordLoop_none hR (by decide) (by omega) fuel _ (by decide)]
    simp

/-! ### How often an index is added up -/

/-- A count as a sum. -/
theorem count_eq_sum (l : List ℕ) (k : ℕ) :
    l.count k = (l.map fun i => if i = k then 1 else 0).sum := by
  induction l with
  | nil => simp
  | cons i l ih =>
    rw [List.count_cons, ih, List.map_cons, List.sum_cons, Nat.add_comm]
    simp

/-- **How often an index is added up**: once when it is in the row, and once more in the last full
vectors of the kernel with `k_rem`. -/
theorem count_terms (kernel : VecMatKernel) (transpose_b : Bool) {K : ℕ} (hK : K < uintRange)
    (k : ℕ) :
    ((List.range 32).flatMap (kernel.terms transpose_b K)).count k
      = (if k < K then 1 else 0)
        + if kernel.recounted transpose_b = true ∧ k < K ∧ inLastVector K k then 1 else 0 := by
  have hrow : ∑ i ∈ Finset.range K, (if i = k then 1 else 0) = if k < K then 1 else 0 := by
    rw [Finset.sum_ite_eq' (Finset.range K) k fun _ => 1]
    simp
  by_cases hunrolled : kernel.unrolled transpose_b = true
  · have hnot : ¬ kernel.recounted transpose_b = true := by
      intro hrec
      unfold unrolled at hunrolled
      unfold recounted at hrec
      simp_all
    have hterms : kernel.terms transpose_b K = laneTermsUnrolled K := by
      ext lane
      simp [terms, hunrolled]
    rw [count_eq_sum, hterms, sum_laneTermsUnrolled, hrow]
    simp [hnot]
  · by_cases hrec : kernel.recounted transpose_b = true
    · have hterms : kernel.terms transpose_b K = laneTermsRecounted K := by
        ext lane
        simp [terms, hunrolled, hrec]
      have hlast : ∑ i ∈ Finset.range K, lastVectors K (fun i => if i = k then 1 else 0) i
          = if k < K ∧ inLastVector K k then 1 else 0 := by
        have hterm : ∀ i, lastVectors K (fun i => if i = k then 1 else 0) i
            = if i = k then (if inLastVector K k then 1 else 0) else 0 := by
          intro i
          unfold lastVectors
          by_cases hi : i = k
          · simp [hi]
          · simp [hi]
        simp only [hterm]
        rw [Finset.sum_ite_eq' (Finset.range K) k fun _ => if inLastVector K k then 1 else 0]
        simp only [Finset.mem_range]
        by_cases hk : k < K
        · simp [hk]
        · simp [hk]
      rw [count_eq_sum, hterms, sum_laneTermsRecounted hK, hrow, hlast]
      simp [hrec]
    · have hterms : kernel.terms transpose_b K = laneTerms K := by
        ext lane
        simp [terms, hunrolled, hrec]
      rw [count_eq_sum, hterms, sum_laneTerms, hrow]
      simp [hrec]

/-- A row with a full vector has a last one. -/
theorem exists_inLastVector {K : ℕ} (h : 4 ≤ K) : ∃ k, k < K ∧ inLastVector K k := by
  refine ⟨K / 4 * 4 - 4, by omega, ?_⟩
  unfold inLastVector
  omega

/-! ### The coverage -/

/-- Every index of a row of `K` elements contributes exactly once to the outputs of each group that
has one, and no index behind the row is read. -/
def CoversRow (kernel : VecMatKernel) (transpose_b : Bool) (N K : ℕ) : Prop :=
  ∀ x g, kernel.outputs N x g ≠ [] → ∃ terms : ℕ → List ℕ,
    (∀ lane < 32, ∃ enough, ∀ fuel ≥ enough,
      kernel.execLane transpose_b K fuel lane = some (terms lane)) ∧
    (∀ k < K, ((List.range 32).flatMap terms).count k = 1) ∧
    ∀ lane < 32, ∀ k ∈ terms lane, k < K

/-- The first group has an output. -/
theorem outputs_first {N : ℕ} (kernel : VecMatKernel) (hN : 1 ≤ N) :
    kernel.outputs N 0 0 ≠ [] := by
  have hzero : toUInt 0 = 0 := rfl
  have hpos : ¬ N = 0 := by omega
  cases kernel
  case fp16Multi2 =>
    by_cases h : toUInt 1 < N
    · simp [outputs, hzero, hpos, h]
    · simp [outputs, hzero, hpos, h]
  all_goals simp [outputs, hzero, hpos]

/-- In a row that is covered the loops of all lanes end, and their terms count every index once. -/
theorem CoversRow.count_eq {N K : ℕ} (hN : 1 ≤ N)
    (hcover : kernel.CoversRow transpose_b N K) :
    kernel.loopsEnd transpose_b K = true ∧
      ∀ k < K, ((List.range 32).flatMap (kernel.terms transpose_b K)).count k = 1 := by
  obtain ⟨terms, hexec, hcount, -⟩ := hcover 0 0 (kernel.outputs_first hN)
  have hend : kernel.loopsEnd transpose_b K = true := by
    by_contra hend
    obtain ⟨enough, henough⟩ := hexec 31 (by decide)
    have hsome := henough enough (le_refl _)
    rw [execLane_none hend] at hsome
    simp at hsome
  refine ⟨hend, ?_⟩
  have hterms : (List.range 32).flatMap terms
      = (List.range 32).flatMap (kernel.terms transpose_b K) := by
    apply List.flatMap_congr
    intro lane hlane
    have hlt := List.mem_range.mp hlane
    obtain ⟨enough, henough⟩ := hexec lane hlt
    have hsome := henough (max enough (K + 1)) (le_max_left _ _)
    rw [execLane_eq hend hlt (lt_of_lt_of_le (Nat.lt_succ_self K) (le_max_right _ _))] at hsome
    exact (Option.some.inj hsome).symm
  intro k hk
  rw [← hterms]
  exact hcount k hk

/-- The kernel with `k_rem` counts the last full vector twice. -/
theorem not_coversRow {N K : ℕ} (hN : 1 ≤ N)
    (hfit : K < uintRange) (hrec : kernel.recounted transpose_b = true) (hlong : 4 ≤ K) :
    ¬ kernel.CoversRow transpose_b N K := by
  intro hcover
  obtain ⟨k, hk, hlast⟩ := exists_inLastVector hlong
  have hone := (hcover.count_eq hN).2 k hk
  rw [count_terms kernel transpose_b hfit, if_pos hk, if_pos ⟨hrec, hk, hlast⟩] at hone
  omega

end VecMatKernel

/-- **The coverage of `K`.** The kernels cover the row exactly when their loops end and, in the one
with `k_rem`, the row is shorter than a vector. -/
theorem vecmat_coverage (kernel : VecMatKernel) (transpose_b : Bool) {N K : ℕ} (hN : 1 ≤ N)
    (hK : 1 ≤ K) (hfit : K < uintRange) :
    kernel.CoversRow transpose_b N K
      ↔ kernel.loopsEnd transpose_b K = true ∧ (kernel.recounted transpose_b = true → K < 4) := by
  constructor
  · intro hcover
    refine ⟨(hcover.count_eq hN).1, ?_⟩
    intro hrec
    by_contra hlong
    exact VecMatKernel.not_coversRow hN hfit hrec (by omega) hcover
  · rintro ⟨hend, hshort⟩ x g -
    have hcount : ∀ k, ((List.range 32).flatMap (kernel.terms transpose_b K)).count k
        = if k < K then 1 else 0 := by
      intro k
      have hnot : ¬ (kernel.recounted transpose_b = true ∧ k < K ∧ inLastVector K k) := by
        rintro ⟨hrec, -, hlast⟩
        have := hshort hrec
        unfold inLastVector at hlast
        omega
      rw [VecMatKernel.count_terms kernel transpose_b hfit, if_neg hnot, Nat.add_zero]
    refine ⟨kernel.terms transpose_b K, ?_, ?_, ?_⟩
    · intro lane hlane
      exact ⟨K + 1, fun fuel hfuel => VecMatKernel.execLane_eq hend hlane hfuel⟩
    · intro k hk
      rw [hcount, if_pos hk]
    · intro lane hlane k hk
      by_contra hout
      have hzero := hcount k
      rw [if_neg hout, List.count_eq_zero] at hzero
      exact hzero (List.mem_flatMap.mpr ⟨lane, List.mem_range.mpr hlane, hk⟩)

/-- A row of 512 elements in the kernel with `k_rem` is not covered. -/
theorem vecmat_coverage_fails : ¬ VecMatKernel.fp16Multi2.CoversRow true 1 512 :=
  VecMatKernel.not_coversRow (by decide) (by decide) (by decide) (by decide)

/-- The other loop of that kernel covers the same row. -/
theorem vecmat_coverage_plain : VecMatKernel.fp16Multi2.CoversRow false 1 512 :=
  (vecmat_coverage .fp16Multi2 false (by decide) (by decide) (by decide)).mpr (by decide)

end MetalNative
