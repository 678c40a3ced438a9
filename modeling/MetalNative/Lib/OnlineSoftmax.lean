import MetalNative.Lib.ExtReal

/-!
# Online softmax

The softmax of a row of scores, finite or minus infinity, computed by a running maximum and a
running sum that is rescaled when the maximum grows.  The scores are a function `s`, the elements
that were seen so far are a list of indices.

* `rowMax`, `expSum` — the maximum, and the sum of the weights times values `v`.
* `expSum_rescale` — the sum for a larger maximum.
* `expSum_append` — the sums of two parts, rescaled to the maximum of both.
* `rowSoftmax` — the softmax of a row.
* `stats`, `merge_stats` — the pair of the maximum and the sum of a list of elements, and two parts
  merged.
-/

namespace OnlineSoftmax

open ExtReal

variable {ι : Type*}

/-! ### The maximum and the sum of a list -/

/-- The largest score of a list of elements. -/
noncomputable def rowMax (s : ι → WithBot ℝ) (l : List ι) : WithBot ℝ :=
  (l.map s).foldr (· ⊔ ·) ⊥

@[simp] theorem rowMax_nil (s : ι → WithBot ℝ) : rowMax s [] = ⊥ := rfl

@[simp] theorem rowMax_cons (s : ι → WithBot ℝ) (i : ι) (l : List ι) :
    rowMax s (i :: l) = s i ⊔ rowMax s l := rfl

theorem rowMax_append (s : ι → WithBot ℝ) (l l' : List ι) :
    rowMax s (l ++ l') = rowMax s l ⊔ rowMax s l' := by
  induction l with
  | nil => simp
  | cons i l ih => rw [List.cons_append, rowMax_cons, ih, rowMax_cons, sup_assoc]

theorem rowMax_singleton (s : ι → WithBot ℝ) (i : ι) : rowMax s [i] = s i := by simp

variable {l : List ι}

theorem le_rowMax (s : ι → WithBot ℝ) {i : ι} (hi : i ∈ l) : s i ≤ rowMax s l := by
  induction l with
  | nil => simp at hi
  | cons j l ih =>
    rw [rowMax_cons]
    rcases List.mem_cons.mp hi with rfl | hi
    · exact le_sup_left
    · exact le_trans (ih hi) le_sup_right

variable {s : ι → WithBot ℝ}

theorem rowMax_eq_bot :
    rowMax s l = ⊥ ↔ ∀ i ∈ l, s i = ⊥ := by
  constructor
  · intro h i hi
    exact le_bot_iff.mp (h ▸ le_rowMax s hi)
  · intro h
    induction l with
    | nil => simp
    | cons i l ih =>
      rw [rowMax_cons, h i (by simp), ih fun j hj => h j (by simp [hj]), sup_bot_eq]

theorem rowMax_perm (s : ι → WithBot ℝ) {l l' : List ι} (h : l.Perm l') :
    rowMax s l = rowMax s l' := by
  unfold rowMax
  exact (h.map s).foldr_eq ⊥

/-- The sum of the weights of a list of elements below a bound, times values. -/
noncomputable def expSum (s : ι → WithBot ℝ) (v : ι → ℝ) (l : List ι) (m : WithBot ℝ) : ℝ :=
  (l.map fun i => weight (s i) m * v i).sum

@[simp] theorem expSum_nil (s : ι → WithBot ℝ) (v : ι → ℝ) (m : WithBot ℝ) :
    expSum s v [] m = 0 := rfl

theorem expSum_append (s : ι → WithBot ℝ) (v : ι → ℝ) (l l' : List ι) (m : WithBot ℝ) :
    expSum s v (l ++ l') m = expSum s v l m + expSum s v l' m := by
  rw [expSum, List.map_append, List.sum_append, expSum, expSum]

theorem expSum_singleton (s : ι → WithBot ℝ) (v : ι → ℝ) (i : ι) (m : WithBot ℝ) :
    expSum s v [i] m = weight (s i) m * v i := by
  simp [expSum]

theorem expSum_perm (s : ι → WithBot ℝ) (v : ι → ℝ) {l l' : List ι} (h : l.Perm l')
    (m : WithBot ℝ) : expSum s v l m = expSum s v l' m :=
  (h.map _).sum_eq

/-- **Rescaling.** The sum for a larger bound. -/
theorem expSum_rescale (s : ι → WithBot ℝ) (v : ι → ℝ) (l : List ι) {m m' : WithBot ℝ}
    (hl : rowMax s l ≤ m) (hm : m ≤ m') : expSum s v l m * weight m m' = expSum s v l m' := by
  unfold expSum
  rw [← List.sum_map_mul_right]
  congr 1
  apply List.map_congr_left
  intro i hi
  rw [mul_right_comm, weight_mul_weight (le_trans (le_rowMax s hi) hl) hm]

/-- Some element attains the maximum. -/
theorem exists_eq_rowMax (h : rowMax s l ≠ ⊥) :
    ∃ i ∈ l, s i = rowMax s l := by
  induction l with
  | nil => simp at h
  | cons i l ih =>
    rw [rowMax_cons] at h ⊢
    rcases le_total (rowMax s l) (s i) with hle | hle
    · exact ⟨i, by simp, (sup_eq_left.mpr hle).symm⟩
    · rw [sup_eq_right.mpr hle] at h ⊢
      obtain ⟨j, hj, heq⟩ := ih h
      exact ⟨j, by simp [hj], heq⟩

/-- The sum of the weights of a row with a finite score is at least one. -/
theorem one_le_expSum (h : rowMax s l ≠ ⊥) :
    1 ≤ expSum s (fun _ => 1) l (rowMax s l) := by
  obtain ⟨i, hi, heq⟩ := exists_eq_rowMax h
  have hself : weight (s i) (rowMax s l) = 1 := by rw [← heq, weight_self (heq ▸ h)]
  have hmem : (1 : ℝ) ∈ l.map fun j => weight (s j) (rowMax s l) * 1 :=
    List.mem_map.mpr ⟨i, hi, by rw [hself, mul_one]⟩
  apply List.single_le_sum _ _ hmem
  intro x hx
  obtain ⟨j, -, rfl⟩ := List.mem_map.mp hx
  rw [mul_one]
  exact weight_nonneg _ _

/-! ### The softmax of a row -/

/-- The softmax of element `i` in a row. -/
noncomputable def rowSoftmax (s : ι → WithBot ℝ) (l : List ι) (i : ι) : ℝ :=
  weight (s i) (rowMax s l) / expSum s (fun _ => 1) l (rowMax s l)

/-- **The softmax of a row adds up to one.** -/
theorem sum_rowSoftmax (h : rowMax s l ≠ ⊥) :
    (l.map (rowSoftmax s l)).sum = 1 := by
  have hpos := one_le_expSum h
  have hsum : (l.map fun i => weight (s i) (rowMax s l)).sum
      = expSum s (fun _ => 1) l (rowMax s l) := by simp [expSum]
  have hdiv : rowSoftmax s l = fun i => weight (s i) (rowMax s l)
      * (expSum s (fun _ => 1) l (rowMax s l))⁻¹ := by
    ext i
    rw [rowSoftmax, div_eq_mul_inv]
  rw [hdiv, List.sum_map_mul_right, hsum]
  exact mul_inv_cancel₀ (by linarith)

/-- The values of a row weighted by its softmax. -/
theorem sum_rowSoftmax_mul (s : ι → WithBot ℝ) (v : ι → ℝ) (l : List ι) :
    (l.map fun i => rowSoftmax s l i * v i).sum
      = expSum s v l (rowMax s l) / expSum s (fun _ => 1) l (rowMax s l) := by
  rw [div_eq_mul_inv, expSum, ← List.sum_map_mul_right]
  congr 1
  apply List.map_congr_left
  intro i _
  rw [rowSoftmax, div_eq_mul_inv]
  ring

/-- A finite score has a positive weight in its row. -/
theorem rowSoftmax_pos {i : ι} (hi : i ∈ l) (hs : s i ≠ ⊥) :
    0 < rowSoftmax s l i := by
  have hle := le_rowMax s hi
  have hsum := one_le_expSum (ne_bot_of_le_ne_bot hs hle)
  unfold rowSoftmax
  exact div_pos (weight_pos hs hle) (by linarith)

/-- Values that are not negative have a positive mean when one of them is positive. -/
theorem sum_rowSoftmax_mul_pos {v : ι → ℝ} {i : ι}
    (hs : ∀ j ∈ l, s j ≠ ⊥) (hv : ∀ j ∈ l, 0 ≤ v j) (hi : i ∈ l) (hpos : 0 < v i) :
    0 < (l.map fun j => rowSoftmax s l j * v j).sum := by
  have hnonneg : ∀ x ∈ l.map fun j => rowSoftmax s l j * v j, 0 ≤ x := by
    intro x hx
    obtain ⟨j, hj, rfl⟩ := List.mem_map.mp hx
    exact mul_nonneg (rowSoftmax_pos hj (hs j hj)).le (hv j hj)
  have hterm : 0 < rowSoftmax s l i * v i := mul_pos (rowSoftmax_pos hi (hs i hi)) hpos
  exact lt_of_lt_of_le hterm (List.single_le_sum hnonneg _ (List.mem_map.mpr ⟨i, hi, rfl⟩))

/-- The softmax of a single element. -/
theorem rowSoftmax_singleton {i : ι} (hs : s i ≠ ⊥) :
    rowSoftmax s [i] i = 1 := by
  have hsum := sum_rowSoftmax (s := s) (l := [i]) (by rwa [rowMax_singleton])
  simpa using hsum

/-! ### Running statistics -/

/-- The pair of the maximum and the sum of a list of elements. -/
noncomputable def stats (s : ι → WithBot ℝ) (l : List ι) : ExtReal × ExtReal :=
  (ofBot (rowMax s l), real (expSum s (fun _ => 1) l (rowMax s l)))

/-- Two pairs merged: both sums are rescaled to the new maximum. -/
noncomputable def merge (a b : ExtReal × ExtReal) : ExtReal × ExtReal :=
  (max a.1 b.1, a.2 * exp (a.1 - max a.1 b.1) + b.2 * exp (b.1 - max a.1 b.1))

/-- A part of the row that is rescaled to the maximum of the row. -/
theorem rescale_eq (s : ι → WithBot ℝ) (v : ι → ℝ) (l : List ι) {m : WithBot ℝ}
    (hle : rowMax s l ≤ m) (hm : m ≠ ⊥) :
    real (expSum s v l (rowMax s l)) * exp (ofBot (rowMax s l) - ofBot m)
      = real (expSum s v l m) := by
  rw [exp_sub_ofBot hm, real_mul, expSum_rescale s v l (le_refl _) hle]

/-- **The merge of two parts** is that of the elements of both. -/
theorem merge_stats (s : ι → WithBot ℝ) (l l' : List ι) (h : rowMax s (l ++ l') ≠ ⊥) :
    merge (stats s l) (stats s l') = stats s (l ++ l') := by
  have hmax : max (stats s l).1 (stats s l').1 = ofBot (rowMax s (l ++ l')) := by
    rw [stats, stats, max_ofBot, rowMax_append]
  have hl : rowMax s l ≤ rowMax s (l ++ l') := by
    rw [rowMax_append]
    exact le_sup_left
  have hl' : rowMax s l' ≤ rowMax s (l ++ l') := by
    rw [rowMax_append]
    exact le_sup_right
  rw [merge, hmax]
  simp only [stats]
  rw [rescale_eq s _ l hl h, rescale_eq s _ l' hl' h, real_add, expSum_append]

end OnlineSoftmax
