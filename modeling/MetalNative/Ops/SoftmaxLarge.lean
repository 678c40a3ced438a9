import Mathlib.Algebra.BigOperators.Field
import MetalNative.Core.Error
import MetalNative.Lib.OnlineSoftmax
import MetalNative.Lib.ShuffleReduce
import MetalNative.Lib.WordLoop

namespace MetalNative

open ExtReal OnlineSoftmax ShuffleReduce ThreadLoop List

/-!
# The softmax of a long row

The kernels `softmax_large_fp32`, `softmax_large_fp16` and their `vec4` variants: 256 threads reduce
one row to its maximum and sum, and write the row.  The arithmetic is exact, with the special values
of floating point; a row is a function of the element.

* `threadElements` — the elements of a thread, with its loop on `uint`.
* `globalStats` — the pair that the threads read back in the end.
* `globalStats_eq` — it is the maximum and the sum of the row.
* `softmax_large` — the rows for which the kernels compute the softmax.
-/

/-! ### The kernels -/

/-- `merge_online_stats`. -/
noncomputable def mergeOnlineStats (a b : ExtReal × ExtReal) : ExtReal × ExtReal :=
  let new_max := max a.1 b.1
  let new_sum := a.2 * exp (a.1 - new_max) + b.2 * exp (b.1 - new_max)
  (new_max, new_sum)

open Classical in
/-- One element in the loop of a thread: `thread_max` and `thread_sum`. -/
noncomputable def onlineAccumulate (st : ExtReal × ExtReal) (val : ExtReal) : ExtReal × ExtReal :=
  if st.1 < val then (val, st.2 * exp (st.1 - val) + real 1)
  else (st.1, st.2 + exp (val - st.1))

/-- The elements of `in4[i]`. -/
def vecElements (i : ℕ) : List ℕ := (List.range 4).map (4 * i + ·)

/-- The elements that a thread visits, if its loop ends in fewer than `fuel` turns. -/
def threadElements (vec4 : Bool) (reduce_size fuel tid : ℕ) : Option (List ℕ) :=
  if vec4 then (wordFor uintRange (reduce_size / 4) 256 fuel tid).map (·.flatMap vecElements)
  else wordFor uintRange reduce_size 256 fuel tid

/-- `thread_stats`. -/
noncomputable def threadStats (row : ℕ → ExtReal) (elements : List ℕ) : ExtReal × ExtReal :=
  elements.foldl (fun st i => onlineAccumulate st (row i)) (negInf, real 0)

/-- `shared_max[simd_gid]` and `shared_sum[simd_gid]`: what lane 0 of a SIMD group holds after the
loop with `simd_lid < offset`. -/
noncomputable def simdStats (row : ℕ → ExtReal) (elements : ℕ → List ℕ) (simd_gid : ℕ) :
    ExtReal × ExtReal :=
  shuffleReduce mergeOnlineStats 32 5
    (fun simd_lid => threadStats row (elements (32 * simd_gid + simd_lid))) 0

/-- `global_max` and `global_sum`: what lane 0 of the first SIMD group holds after the loop with
`simd_lid < offset && simd_lid + offset < SOFTMAX_LARGE_NUM_SIMD`. -/
noncomputable def globalStats (row : ℕ → ExtReal) (elements : ℕ → List ℕ) : ExtReal × ExtReal :=
  shuffleReduce mergeOnlineStats 8 5
    (fun simd_lid => if simd_lid < 8 then simdStats row elements simd_lid else (negInf, real 0)) 0

/-- What is written for element `i`. -/
noncomputable def largeOutput (row : ℕ → ExtReal) (elements : ℕ → List ℕ) (i : ℕ) : ExtReal :=
  let inv_sum := real 1 / (globalStats row elements).2
  exp (row i - (globalStats row elements).1) * inv_sum

/-! ### The elements of the threads -/

/-- The items of all threads are those below the bound, in some order. -/
theorem allStrides_perm {threads : ℕ} (hthreads : 0 < threads) (n : ℕ) :
    (allStrides threads n).Perm (range n) := by
  rw [perm_ext_iff_of_nodup (nodup_allStrides threads n) nodup_range]
  intro i
  rw [mem_allStrides hthreads, mem_range]

/-- The elements of all vectors of a row. -/
theorem flatMap_vecElements (n : ℕ) : (range n).flatMap vecElements = range (4 * n) := by
  have hvec : vecElements = fun i => (range 4).flatMap fun lane => [4 * i + lane] := by
    ext i
    simp [vecElements, range_succ]
  rw [hvec, ← flatMap_range_mul 4 n fun i => [i], flatMap_singleton']

/-- What the threads visit when their loops end. -/
def largeElements (vec4 : Bool) (reduce_size tid : ℕ) : List ℕ :=
  if vec4 then (stride tid 256 (reduce_size / 4)).flatMap vecElements
  else stride tid 256 reduce_size

theorem threadElements_eq {vec4 : Bool} {n tid fuel : ℕ} (hn : n < uintRange)
    (h : vec4 = true ∨ n + 256 ≤ uintRange) (htid : tid < 256) (hfuel : n < fuel) :
    threadElements vec4 n fuel tid = some (largeElements vec4 n tid) := by
  have hdiv : n / 4 + 256 ≤ uintRange := by
    unfold uintRange at hn ⊢
    omega
  unfold threadElements largeElements
  by_cases hvec : vec4 = true
  · rw [if_pos hvec, if_pos hvec, wordFor_eq (by decide) hdiv htid (by omega), Option.map_some]
  · rw [if_neg hvec, if_neg hvec]
    exact wordFor_eq (by decide) (h.resolve_left hvec) htid hfuel

/-- Thread 0 of a scalar kernel does not leave a loop that long. -/
theorem threadElements_none {n : ℕ} (h : ¬ n + 256 ≤ uintRange) (fuel : ℕ) :
    threadElements false n fuel 0 = none :=
  wordFor_none (by decide) (by decide) (by omega) (by decide) (by decide) fuel

/-- **Every element is visited once.** -/
theorem largeElements_perm {vec4 : Bool} {n : ℕ} (hvec : vec4 = true → n % 4 = 0) :
    ((range 256).flatMap (largeElements vec4 n)).Perm (range n) := by
  unfold largeElements
  by_cases h : vec4 = true
  · have hn : 4 * (n / 4) = n := by
      have := hvec h
      omega
    simp only [h, if_true]
    rw [← flatMap_assoc]
    have hperm := (allStrides_perm (by decide : 0 < 256) (n / 4)).flatMap_right vecElements
    rw [flatMap_vecElements, hn] at hperm
    exact hperm
  · simp only [h]
    exact allStrides_perm (by decide) n

/-- Every thread has an element of a long row. -/
theorem largeElements_ne_nil {vec4 : Bool} {n tid : ℕ} (hn : 2048 ≤ n) (htid : tid < 256) :
    largeElements vec4 n tid ≠ [] := by
  have hmem : ∀ bound, 256 ≤ bound → tid ∈ stride tid 256 bound := by
    intro bound hbound
    exact (mem_stride (by decide)).mpr ⟨0, by omega, by omega⟩
  unfold largeElements
  by_cases h : vec4 = true
  · rw [if_pos h]
    have hfour : 4 * tid ∈ (stride tid 256 (n / 4)).flatMap vecElements :=
      mem_flatMap.mpr ⟨tid, hmem _ (by omega), by simp [vecElements, range_succ]⟩
    exact ne_nil_of_mem hfour
  · rw [if_neg h]
    exact ne_nil_of_mem (hmem n (by omega))

/-! ### The maximum and the sum -/

/-- **One more element.** -/
theorem onlineAccumulate_stats (s : ℕ → WithBot ℝ) (l : List ℕ) {i : ℕ} (hi : s i ≠ ⊥) :
    onlineAccumulate (stats s l) (ofBot (s i)) = stats s (l ++ [i]) := by
  simp only [onlineAccumulate, stats, ofBot_lt, rowMax_append, rowMax_singleton, expSum_append,
    expSum_singleton]
  by_cases hlt : rowMax s l < s i
  · rw [if_pos hlt, sup_eq_right.mpr hlt.le, rescale_eq s _ l hlt.le hi, weight_self hi, real_add,
      mul_one]
  · have hle := not_lt.mp hlt
    rw [if_neg hlt, sup_eq_left.mpr hle, exp_sub_ofBot (ne_bot_of_le_ne_bot hi hle), real_add,
      mul_one]

variable {s : ℕ → WithBot ℝ}

/-- **The loop of a thread.** -/
theorem threadStats_eq (hs : ∀ i, s i ≠ ⊥) (elements : List ℕ) :
    threadStats (fun i => ofBot (s i)) elements = stats s elements := by
  have hloop : ∀ seen, elements.foldl (fun st i => onlineAccumulate st (ofBot (s i))) (stats s seen)
      = stats s (seen ++ elements) := by
    induction elements with
    | nil => simp
    | cons i rest ih =>
      intro seen
      rw [foldl_cons, onlineAccumulate_stats s seen (hs i), ih, append_assoc,
        singleton_append]
  exact hloop []

/-- The pair of a list of elements that is not empty. -/
def HoldsStats (s : ℕ → WithBot ℝ) (a : ExtReal × ExtReal) (l : List ℕ) : Prop :=
  l ≠ [] ∧ a = stats s l

/-- **The merge** of two such pairs. -/
theorem mergeOnlineStats_holds (hs : ∀ i, s i ≠ ⊥) (a b : ExtReal × ExtReal)
    (l l' : List ℕ) (ha : HoldsStats s a l) (hb : HoldsStats s b l') :
    HoldsStats s (mergeOnlineStats a b) (l ++ l') := by
  obtain ⟨hl, rfl⟩ := ha
  obtain ⟨-, rfl⟩ := hb
  obtain ⟨i, hi⟩ := exists_mem_of_ne_nil l hl
  have hmax : rowMax s (l ++ l') ≠ ⊥ := fun h =>
    hs i (rowMax_eq_bot.mp h i (mem_append_left l' hi))
  exact ⟨by simp [hl], merge_stats s l l' hmax⟩

/-- The sums of two orders of the same elements. -/
theorem stats_perm (s : ℕ → WithBot ℝ) {l l' : List ℕ} (h : l.Perm l') :
    stats s l = stats s l' := by
  rw [stats, stats, rowMax_perm s h, expSum_perm s _ h]

/-- **The pair that the threads read back**: that of the whole row. -/
theorem globalStats_eq (hs : ∀ i, s i ≠ ⊥) {elements : ℕ → List ℕ} {n : ℕ}
    (hne : ∀ tid < 256, elements tid ≠ [])
    (hperm : ((range 256).flatMap elements).Perm (range n)) :
    globalStats (fun i => ofBot (s i)) elements = stats s (range n) := by
  -- the shuffles inside the SIMD groups
  have hgroup : ∀ g < 8, ∃ l, l.Perm ((range 32).flatMap fun lane => elements (32 * g + lane))
      ∧ HoldsStats s (simdStats (fun i => ofBot (s i)) elements g) l := by
    intro g hg
    apply shuffleReduce_spec (mergeOnlineStats_holds hs) 32 5 _
      (fun lane => elements (32 * g + lane)) (by decide)
    intro lane hlane
    have hlt : lane < 32 := by omega
    exact ⟨hne _ (by omega), threadStats_eq hs _⟩
  choose! items hitems hholds using hgroup
  -- the shuffles of the first group over the eight partial pairs
  obtain ⟨l, hl, -, hstats⟩ := shuffleReduce_spec (mergeOnlineStats_holds hs) 8 5
    (fun lane => if lane < 8 then simdStats (fun i => ofBot (s i)) elements lane
      else (negInf, real 0)) items (by decide) (by
    intro lane hlane
    have hlt : lane < 8 := by omega
    rw [if_pos hlt]
    exact hholds lane hlt)
  have hall : l.Perm (range n) := by
    refine hl.trans (Perm.trans ?_ hperm)
    rw [show 256 = 32 * 8 from rfl, flatMap_range_mul 32 8 elements]
    apply Perm.flatMap_left
    intro g hg
    exact hitems g (by simpa using hg)
  exact hstats.trans (stats_perm s hall)

/-! ### The softmax -/

/-- `M` is the largest of the first `n` elements. -/
def IsRowMax (x : ℕ → ℝ) (n : ℕ) (M : ℝ) : Prop := (∃ i < n, x i = M) ∧ ∀ i < n, x i ≤ M

/-- The maximum and the sum of a row of numbers. -/
theorem stats_range (x : ℕ → ℝ) {n : ℕ} (hn : 0 < n) :
    ∃ M, IsRowMax x n M ∧ stats (fun i => (x i : WithBot ℝ)) (range n)
      = (real M, real (∑ i ∈ Finset.range n, Real.exp (x i - M))) := by
  have hmax : rowMax (fun i => (x i : WithBot ℝ)) (range n) ≠ ⊥ := fun h =>
    WithBot.coe_ne_bot (rowMax_eq_bot.mp h 0 (mem_range.mpr hn))
  obtain ⟨M, hM⟩ := WithBot.ne_bot_iff_exists.mp hmax
  refine ⟨M, ⟨?_, ?_⟩, ?_⟩
  · obtain ⟨i, hi, heq⟩ := exists_eq_rowMax hmax
    rw [← hM] at heq
    exact ⟨i, mem_range.mp hi, WithBot.coe_injective heq⟩
  · intro i hi
    have hle := le_rowMax (fun i => (x i : WithBot ℝ)) (mem_range.mpr hi)
    rw [← hM] at hle
    exact WithBot.coe_le_coe.mp hle
  · rw [stats, ← hM, ofBot_coe]
    congr 2
    simp only [expSum, weight_coe, mul_one]
    rfl

/-- What the kernels are to do with a row of `n` elements: the loops of all threads end and visit
every element once, the pair that is read back is the maximum and the sum of the row, and what is
written is the softmax, which adds up to one. -/
def LargeSoftmax (vec4 : Bool) (n : ℕ) (x : ℕ → ℝ) : Prop :=
  ∃ elements : ℕ → List ℕ,
    (∀ tid < 256, ∃ enough, ∀ fuel ≥ enough, threadElements vec4 n fuel tid = some (elements tid)) ∧
    ((List.range 256).flatMap elements).Perm (List.range n) ∧
    ∃ M, IsRowMax x n M ∧
      globalStats (fun i => real (x i)) elements
        = (real M, real (∑ i ∈ Finset.range n, Real.exp (x i - M))) ∧
      (∀ i, largeOutput (fun i => real (x i)) elements i
        = real (Real.exp (x i - M) / ∑ i ∈ Finset.range n, Real.exp (x i - M))) ∧
      ∑ i ∈ Finset.range n, largeOutput (fun i => real (x i)) elements i = real 1

/-- **What is written** when the pair is that of the row. -/
theorem largeOutput_eq {x : ℕ → ℝ} {elements : ℕ → List ℕ} {M S : ℝ} (hS : S ≠ 0)
    (hpair : globalStats (fun i => real (x i)) elements = (real M, real S)) (i : ℕ) :
    largeOutput (fun i => real (x i)) elements i = real (Real.exp (x i - M) / S) := by
  simp only [largeOutput, hpair]
  rw [real_div hS, real_sub, exp_real, real_mul, mul_one_div]

/-- **The softmax of a long row.** The kernels compute it for all rows of at least 2048 elements in
the `vec4` variants, and in the scalar ones for those whose index does not wrap around. -/
theorem softmax_large (vec4 : Bool) {reduce_size : ℕ} (hlong : 2048 ≤ reduce_size)
    (hfit : reduce_size < uintRange) (hvec : vec4 = true → reduce_size % 4 = 0) (x : ℕ → ℝ) :
    LargeSoftmax vec4 reduce_size x ↔ vec4 = true ∨ reduce_size + 256 ≤ uintRange := by
  constructor
  · rintro ⟨elements, hexec, -⟩
    by_contra hwrap
    push Not at hwrap
    obtain ⟨enough, henough⟩ := hexec 0 (by decide)
    have hsome := henough enough (le_refl _)
    have hfalse : vec4 = false := by simpa using hwrap.1
    rw [hfalse, threadElements_none (by omega)] at hsome
    simp at hsome
  · intro hends
    have hperm := largeElements_perm hvec
    have hpair := globalStats_eq (fun i => WithBot.coe_ne_bot (a := x i))
      (fun tid => largeElements_ne_nil hlong) hperm
    obtain ⟨M, hM, hstats⟩ := stats_range x (n := reduce_size) (by omega)
    rw [hstats] at hpair
    have hS : (∑ i ∈ Finset.range reduce_size, Real.exp (x i - M)) ≠ 0 := by
      apply ne_of_gt
      apply Finset.sum_pos
      · intro i _
        exact Real.exp_pos _
      · exact ⟨0, Finset.mem_range.mpr (by omega)⟩
    refine ⟨largeElements vec4 reduce_size, ?_, hperm, M, hM, hpair, largeOutput_eq hS hpair, ?_⟩
    · intro tid htid
      exact ⟨reduce_size + 1, fun fuel hfuel => threadElements_eq hfit hends htid hfuel⟩
    · simp only [largeOutput_eq hS hpair]
      rw [sum_real, ← Finset.sum_div, div_self hS]

/-- A row of 4096 elements in a `vec4` variant. -/
theorem softmax_large_vec4_row : LargeSoftmax true 4096 fun i => i :=
  (softmax_large true (by decide) (by decide) (by decide) _).mpr (Or.inl rfl)

/-- In a row of `2 ^ 32 - 1` elements the first thread of a scalar kernel goes on forever. -/
theorem softmax_large_fails : ¬ LargeSoftmax false (2 ^ 32 - 1) fun i => i := by
  rintro ⟨elements, hexec, -⟩
  obtain ⟨enough, henough⟩ := hexec 0 (by decide)
  have hsome := henough enough (le_refl _)
  rw [threadElements_none (by decide)] at hsome
  simp at hsome

end MetalNative
