import MetalNative.Lib.TreeFold
import MetalNative.Ops.Reduction
import MetalNative.Ops.SoftmaxLarge

namespace MetalNative

open ExtReal OnlineSoftmax ThreadLoop TreeFold ReductionOp

/-!
# What the reductions compute

* `groupValue_eq` — thread 0 holds the fold over the row that the threads read.
* `argIndex_undefined` — an undefined value that no element is better than decides `argmax` and
  `argmin`.
* `reduction_computes` — the calls that compute their reference.
-/

/-! ### The reference -/

/-- The fold of the operation over a row. -/
noncomputable def reductionReference (op : ReductionOp) (y : ℕ → ℝ) (n : ℕ) : ExtReal :=
  op.finish n ((List.range n).foldl (fun val r => op.combine val (real (y r))) op.start)

/-- What an element of the output is to be: the fold of the operation over the row, or the lowest
index with an extreme value. -/
def IsReduction (op : ReductionOp) (y : ℕ → ℝ) (n : ℕ) : ReductionResult → Prop
  | .value val => op.isArg = false ∧ val = reductionReference op y n
  | .index i => op.isArg = true
      ∧ IsLeast {r | r < n ∧ ∀ r' < n, ¬ op.better (real (y r')) (real (y r))} i

/-- Every element of the output is written, and each time with the reduction of its row. -/
def ReductionRun.Computes (run : ReductionRun) (x : ℕ → ℝ)
    (undefined : ℕ → ℕ → ValueIndexPair) : Prop :=
  ∀ o < run.sizes.outer_size, ∀ i < run.sizes.inner_size,
    (∃ v, (o * run.sizes.inner_size + i, v) ∈ run.writes x undefined) ∧
    ∀ v, (o * run.sizes.inner_size + i, v) ∈ run.writes x undefined →
      IsReduction run.op (run.sizes.row x o i) run.sizes.reduce_size v

/-- The launch ends and computes the reductions, whatever the tensor holds and whatever undefined
shuffles return. -/
def ReductionRun.Succeeds (run : ReductionRun) : Prop :=
  (∃ enough, ∀ fuel ≥ enough, run.ended fuel = true) ∧
    ∀ (x : ℕ → ℝ) (undefined : ℕ → ℕ → ValueIndexPair), run.Computes x undefined

/-- What a call is to do. -/
def ReductionComputes (op : ReductionOp) (input : MNTensor ℝ) (dim : ℤ) : Prop :=
  ∃ run, dispatchReduction op input dim = .ok run ∧ run.Succeeds

/-- Only the elements of the row matter. -/
theorem reductionReference_congr (op : ReductionOp) {y y' : ℕ → ℝ} {n : ℕ}
    (h : ∀ r < n, y r = y' r) : reductionReference op y n = reductionReference op y' n := by
  have hfold : (List.range n).foldl (fun val r => op.combine val (real (y r))) op.start
      = (List.range n).foldl (fun val r => op.combine val (real (y' r))) op.start := by
    apply List.foldl_ext
    intro val r hr
    rw [h r (List.mem_range.mp hr)]
  rw [reductionReference, hfold, reductionReference]

/-- A number that changes the reduction of a row of zeros. -/
def ReductionOp.probe : ReductionOp → ℝ
  | min | argmin => -1
  | _ => 1

/-- Zeros and the probe, behind nothing or behind zeros. -/
theorem combine_zero (op : ReductionOp) {val : ExtReal} (h : val = op.start ∨ val = real 0) :
    op.combine val (real 0) = real 0 := by
  rcases h with rfl | rfl
  · cases op <;> simp [combine, start, ExtReal.min, ExtReal.max, neg]
  · cases op <;> simp [combine, ExtReal.min, ExtReal.max, neg]

theorem combine_probe (op : ReductionOp) {val : ExtReal} (h : val = op.start ∨ val = real 0) :
    op.combine val (real op.probe) = real op.probe := by
  rcases h with rfl | rfl
  · cases op <;>
      simp [combine, start, probe, ExtReal.min,
        ExtReal.max, neg]
  · cases op <;> simp [combine, probe, ExtReal.min, ExtReal.max, neg]

/-- A row of zeros with the probe behind them. -/
theorem reductionReference_ne (op : ReductionOp) {y : ℕ → ℝ} {n : ℕ} (hn : 0 < n)
    (hzero : ∀ r < n - 1, y r = 0) (hprobe : y (n - 1) = op.probe) :
    reductionReference op y n ≠ reductionReference op (fun _ => 0) n := by
  obtain ⟨m, rfl⟩ := Nat.exists_eq_add_of_lt hn
  rw [Nat.zero_add, Nat.add_sub_cancel] at *
  -- the zeros in front
  have hzeros : ∀ n, (List.range n).foldl (fun val _ => op.combine val (real 0)) op.start = op.start
      ∨ (List.range n).foldl (fun val _ => op.combine val (real 0)) op.start = real 0 := by
    intro n
    induction n with
    | zero => exact Or.inl rfl
    | succ n ih =>
      right
      rw [List.range_succ, List.foldl_append, List.foldl_cons, List.foldl_nil]
      exact combine_zero op ih
  have hfront : (List.range m).foldl (fun val r => op.combine val (real (y r))) op.start
      = (List.range m).foldl (fun val _ => op.combine val (real 0)) op.start := by
    apply List.foldl_ext
    intro val r hr
    rw [hzero r (List.mem_range.mp hr)]
  simp only [reductionReference, List.range_succ, List.foldl_append, List.foldl_cons,
    List.foldl_nil, hfront, hprobe]
  rw [combine_probe op (hzeros m), combine_zero op (hzeros m)]
  have hpos : ((m + 1 : ℕ) : ℝ) ≠ 0 := Nat.cast_ne_zero.mpr (Nat.succ_ne_zero m)
  cases op
  case mean =>
    simp only [finish]
    rw [real_div hpos, real_div hpos]
    simp only [probe, zero_div, ne_eq, ExtReal.real.injEq, one_div, inv_eq_zero]
    exact hpos
  all_goals simp [finish, probe]

/-! ### The folds -/

/-- Maxima of numbers. -/
noncomputable def maxSummary (y : ℕ → ℝ) :
    Summary ExtReal.max negInf (fun r => real (y r)) where
  value := fun l => ofBot (rowMax (fun r => (y r : WithBot ℝ)) l)
  nil := rfl
  singleton := by simp
  append := by
    intro l l'
    rw [max_ofBot, rowMax_append]
  perm := fun h => congrArg ofBot (rowMax_perm _ h)

/-- Minima of numbers. -/
noncomputable def minSummary (y : ℕ → ℝ) :
    Summary ExtReal.min posInf (fun r => real (y r)) where
  value := fun l => neg (ofBot (rowMax (fun r => ((-y r : ℝ) : WithBot ℝ)) l))
  nil := rfl
  singleton := by
    intro r
    simp [neg]
  append := by
    intro l l'
    have hneg : ∀ a : ExtReal, neg (neg a) = a := by
      intro a
      cases a <;> simp [neg]
    rw [ExtReal.min, hneg, hneg, max_ofBot, rowMax_append]
  perm := fun h => congrArg (fun a => neg (ofBot a)) (rowMax_perm _ h)

/-- The folds of an operation. -/
noncomputable def opSummary (op : ReductionOp) (y : ℕ → ℝ) :
    Summary op.combine op.start (fun r => real (y r)) :=
  match op with
  | .sum | .mean => sumSummary y
  | .max | .argmax => maxSummary y
  | .min | .argmin => minSummary y

/-- The components of a vector. -/
theorem combine4_eq (op : ReductionOp) (y : ℕ → ℝ) (i : ℕ) :
    op.combine4 (fun j => real (y (4 * i + j))) = (opSummary op y).value (vecElements i) := by
  have hvec : vecElements i = ([4 * i + 0] ++ [4 * i + 1]) ++ ([4 * i + 2] ++ [4 * i + 3]) := rfl
  rw [hvec, ← (opSummary op y).append, ← (opSummary op y).append, ← (opSummary op y).append]
  simp only [(opSummary op y).singleton]
  cases op
  case sum => exact add_assoc _ _ _
  case mean => exact add_assoc _ _ _
  all_goals rfl

namespace ReductionRun

variable {run : ReductionRun}

/-- **What thread 0 holds**: the fold over the row that the threads read. -/
theorem groupValue_eq (hvec : run.use_vec4 = true → run.sizes.reduce_size % 4 = 0) (x : ℕ → ℝ)
    (gid : ℕ) :
    run.op.finish run.sizes.reduce_size (run.groupValue (fun i => real (x i)) gid)
      = reductionReference run.op (fun r => x (run.inputIdx gid r)) run.sizes.reduce_size := by
  -- the loop of a thread
  have hpartial : ∀ tid, run.partialValue (fun i => real (x i)) gid tid
      = (opSummary run.op fun r => x (run.inputIdx gid r)).value
          (largeElements run.use_vec4 run.sizes.reduce_size tid) := by
    intro tid
    unfold partialValue largeElements
    by_cases h : run.use_vec4 = true
    · rw [if_pos h, if_pos h, if_neg (by rw [hvec h]; omega)]
      simp only [combine4_eq run.op fun r => x (run.inputIdx gid r)]
      exact (opSummary run.op _).foldl_flatMap_eq _ _
    · rw [if_neg h, if_neg h]
      exact (opSummary run.op _).foldl_eq _
  have hgroups := (opSummary run.op fun r => x (run.inputIdx gid r)).groups_eq 32 8
    (largeElements run.use_vec4 run.sizes.reduce_size)
  rw [reductionReference, (opSummary run.op fun r => x (run.inputIdx gid r)).foldl_eq,
    ← (opSummary run.op _).perm (largeElements_perm hvec)]
  congr 1
  simp only [groupValue, simdReduce, hpartial]
  exact hgroups

end ReductionRun

/-! ### The undefined shuffles -/

/-- The value that is better than all numbers. -/
def ReductionOp.extreme : ReductionOp → ExtReal
  | argmin => negInf
  | _ => posInf

/-- Nothing is better than it. -/
theorem not_better_extreme (op : ReductionOp) (a : ExtReal) : ¬ op.better a op.extreme := by
  cases op
  case argmin => cases a <;> exact fun h => h
  all_goals cases a <;> exact fun h => h

/-- It is better than a number. -/
theorem better_extreme_real (op : ReductionOp) (a : ℝ) : op.better op.extreme (real a) := by
  cases op <;> exact trivial

variable {op : ReductionOp}

theorem better_extreme_start (harg : op.isArg = true) :
    op.better op.extreme op.start := by
  cases op
  case argmax => exact trivial
  case argmin => exact trivial
  all_goals exact absurd harg (by decide)

theorem argShuffle_apply (op : ReductionOp) (active : ℕ) (undefined : ℕ → ℕ → ValueIndexPair)
    (value : ℕ → ValueIndexPair) (offset lane : ℕ) :
    argShuffle op active undefined value offset lane = if lane + offset < 32 then
      pickBetter op (value lane)
        (if lane + offset < active then value (lane + offset) else undefined offset lane)
      else value lane := rfl

variable {P : ValueIndexPair → Prop}

theorem pickBetter_of {own other : ValueIndexPair}
    (hown : P own) (hother : P other) : P (pickBetter op own other) := by
  unfold pickBetter
  split_ifs
  · exact hother
  · exact hown

variable {undefined : ℕ → ℕ → ValueIndexPair} {value : ℕ → ValueIndexPair}

/-- **A turn of the shuffles** in a full SIMD group keeps what all pairs have in common. -/
theorem argShuffle_forall
    (h : ∀ lane, P (value lane))
    (offset lane : ℕ) : P (argShuffle op 32 undefined value offset lane) := by
  rw [argShuffle_apply]
  by_cases hlane : lane + offset < 32
  · rw [if_pos hlane, if_pos hlane]
    exact pickBetter_of (h _) (h _)
  · rw [if_neg hlane]
    exact h _

theorem simdArgReduce_forall
    (h : ∀ lane, P (value lane)) :
    P (simdArgReduce op 32 undefined value) := by
  have hloop : ∀ (offsets : List ℕ) (value : ℕ → ValueIndexPair), (∀ lane, P (value lane)) →
      ∀ lane, P (offsets.foldl (argShuffle op 32 undefined) value lane) := by
    intro offsets
    induction offsets with
    | nil => exact fun value h => h
    | cons offset offsets ih =>
      intro value h
      exact ih _ (argShuffle_forall h offset)
  exact hloop _ value h 0

/-- An undefined value that is better than the one of lane 0 stays there to the end. -/
theorem simdArgReduce_undefined (k : ℕ)
    (h : op.better op.extreme (value 0).value) :
    (simdArgReduce op 8 (fun _ _ => ⟨op.extreme, k⟩) value).index = k := by
  -- the first shuffle reads lane 16
  have hfirst : argShuffle op 8 (fun _ _ => ⟨op.extreme, k⟩) value 16 0 = ⟨op.extreme, k⟩ := by
    unfold argShuffle pickBetter
    exact if_pos h
  have hloop : ∀ (offsets : List ℕ) (value : ℕ → ValueIndexPair), value 0 = ⟨op.extreme, k⟩ →
      offsets.foldl (argShuffle op 8 fun _ _ => ⟨op.extreme, k⟩) value 0 = ⟨op.extreme, k⟩ := by
    intro offsets
    induction offsets with
    | nil => exact fun value h => h
    | cons offset offsets ih =>
      intro value h
      apply ih
      have hkeep : ∀ other, pickBetter op (value 0) other = ⟨op.extreme, k⟩ := by
        intro other
        rw [h, pickBetter, if_neg (not_better_extreme op _)]
      rw [argShuffle_apply]
      by_cases hin : 0 + offset < 32
      · rw [if_pos hin]
        exact hkeep _
      · rw [if_neg hin]
        exact h
  exact congrArg ValueIndexPair.index (hloop [8, 4, 2, 1] _ hfirst)

namespace ReductionRun

variable {run : ReductionRun}

/-- **The undefined value decides** `argmax` and `argmin`. -/
theorem argIndex_undefined (harg : run.op.isArg = true) (x : ℕ → ℝ) (gid k : ℕ) :
    run.argIndex (fun i => real (x i)) (fun _ _ => ⟨run.op.extreme, k⟩) gid = k := by
  have hpartial : ∀ tid, run.op.better run.op.extreme
      (run.partialPair (fun i => real (x i)) gid tid).value := by
    intro tid
    have hloop : ∀ (elements : List ℕ) (pair : ValueIndexPair),
        run.op.better run.op.extreme pair.value →
        run.op.better run.op.extreme (elements.foldl (fun pair r =>
          pickBetter run.op pair ⟨real (x (run.inputIdx gid r)), r⟩) pair).value := by
      intro elements
      induction elements with
      | nil => exact fun pair h => h
      | cons r elements ih =>
        intro pair h
        exact ih _ (pickBetter_of (P := fun pair => run.op.better run.op.extreme pair.value) h
          (better_extreme_real _ _))
    exact hloop _ _ (better_extreme_start harg)
  apply simdArgReduce_undefined
  exact simdArgReduce_forall (P := fun pair => run.op.better run.op.extreme pair.value)
    fun lane => hpartial _

/-! ### The launch -/

theorem mem_writes {x : ℕ → ℝ} {idx : ℕ}
    {v : ReductionResult} :
    (idx, v) ∈ run.writes x undefined ↔ idx ∈ run.activeGroups
      ∧ (if run.op.isArg then .index (run.argIndex (fun i => real (x i)) undefined idx)
        else .value (run.op.finish run.sizes.reduce_size
          (run.groupValue (fun i => real (x i)) idx))) = v := by
  simp only [writes, List.mem_map, Prod.mk.injEq]
  constructor
  · rintro ⟨gid, hgid, rfl, hv⟩
    exact ⟨hgid, hv⟩
  · rintro ⟨hgid, hv⟩
    exact ⟨idx, hgid, rfl, hv⟩

/-- Every row has a threadgroup. -/
theorem Succeeds.mem_activeGroups (h : run.Succeeds) {o i : ℕ} (ho : o < run.sizes.outer_size)
    (hi : i < run.sizes.inner_size) : o * run.sizes.inner_size + i ∈ run.activeGroups := by
  obtain ⟨v, hv⟩ := (h.2 (fun _ => 0) (fun _ _ => ⟨nan, 0⟩) o ho i hi).1
  exact (mem_writes.mp hv).1

/-- **No launch computes `argmax` or `argmin`** whatever undefined shuffles return. -/
theorem not_succeeds_arg (harg : run.op.isArg = true) (ho : 0 < run.sizes.outer_size)
    (hi : 0 < run.sizes.inner_size) : ¬ run.Succeeds := by
  intro h
  have hleast : ∀ k, IsLeast {r | r < run.sizes.reduce_size ∧ ∀ r' < run.sizes.reduce_size,
      ¬ run.op.better (real (run.sizes.row (fun _ => 0) 0 0 r'))
        (real (run.sizes.row (fun _ => 0) 0 0 r))} k := by
    intro k
    have hresult := (h.2 (fun _ => 0) (fun _ _ => ⟨run.op.extreme, k⟩) 0 ho 0 hi).2 _
      (mem_writes.mpr ⟨h.mem_activeGroups ho hi, rfl⟩)
    rw [if_pos harg, argIndex_undefined harg] at hresult
    exact hresult.2
  exact absurd ((hleast 0).unique (hleast 1)) (by decide)

/-- What is written for a row is the reference of the row that the threads read. -/
theorem Succeeds.reference_eq (h : run.Succeeds) (harg : run.op.isArg = false)
    (hvec : run.use_vec4 = true → run.sizes.reduce_size % 4 = 0) (x : ℕ → ℝ) {o i : ℕ}
    (ho : o < run.sizes.outer_size) (hi : i < run.sizes.inner_size) :
    reductionReference run.op (fun r => x (run.inputIdx (o * run.sizes.inner_size + i) r))
        run.sizes.reduce_size
      = reductionReference run.op (run.sizes.row x o i) run.sizes.reduce_size := by
  have hresult := (h.2 x (fun _ _ => ⟨nan, 0⟩) o ho i hi).2 _
    (mem_writes.mpr ⟨h.mem_activeGroups ho hi, rfl⟩)
  rw [if_neg (by simp [harg])] at hresult
  rw [← groupValue_eq hvec]
  exact hresult.2

/-- **An element that no thread of its row reads**: the last one of the row. -/
theorem not_succeeds_of_unread (harg : run.op.isArg = false)
    (hvec : run.use_vec4 = true → run.sizes.reduce_size % 4 = 0) {o i : ℕ}
    (ho : o < run.sizes.outer_size) (hi : i < run.sizes.inner_size)
    (hpos : 0 < run.sizes.reduce_size)
    (hunread : ∀ r < run.sizes.reduce_size, run.inputIdx (o * run.sizes.inner_size + i) r
      ≠ (o * run.sizes.reduce_size + (run.sizes.reduce_size - 1)) * run.sizes.inner_size + i) :
    ¬ run.Succeeds := by
  intro h
  have hread := h.reference_eq harg hvec (Function.update (fun _ => 0)
    ((o * run.sizes.reduce_size + (run.sizes.reduce_size - 1)) * run.sizes.inner_size + i)
    run.op.probe) ho hi
  have hzero : reductionReference run.op (fun r => Function.update (fun _ => (0 : ℝ))
        ((o * run.sizes.reduce_size + (run.sizes.reduce_size - 1)) * run.sizes.inner_size + i)
        run.op.probe
        (run.inputIdx (o * run.sizes.inner_size + i) r)) run.sizes.reduce_size
      = reductionReference run.op (fun _ => 0) run.sizes.reduce_size := by
    apply reductionReference_congr
    intro r hr
    exact Function.update_of_ne (hunread r hr) _ _
  rw [hzero] at hread
  apply reductionReference_ne run.op hpos _ _ hread.symm
  · intro r hr
    apply Function.update_of_ne
    intro heq
    have hlt : r < run.sizes.reduce_size := by omega
    obtain ⟨-, hrm, -⟩ := run.sizes.index_inj hlt hi (by omega) hi heq
    omega
  · exact Function.update_self _ _ _

/-- The loops of a scalar kernel go on forever over a row that is too long. -/
theorem not_succeeds_of_endless (hscalar : run.use_vec4 = false)
    (hlong : ¬ run.sizes.reduce_size + 256 ≤ uintRange) (ho : 0 < run.sizes.outer_size)
    (hi : 0 < run.sizes.inner_size) : ¬ run.Succeeds := by
  intro h
  obtain ⟨enough, henough⟩ := h.1
  have hended := henough enough (le_refl _)
  have hactive := h.mem_activeGroups ho hi
  simp only [ended, Bool.or_eq_true, List.isEmpty_iff] at hended
  rcases hended with hempty | hall
  · rw [hempty] at hactive
    simp at hactive
  · have hthread := List.all_eq_true.mp hall 0 (by simp)
    rw [hscalar, if_neg (by decide), wordFor_none (by decide) (by decide) (by omega) (by decide)
      (by decide)] at hthread
    simp at hthread

/-- The threadgroups of a scalar kernel. -/
theorem mem_activeGroups_scalar (hscalar : run.use_vec4 = false)
    (hgroups : run.groups = run.sizes.outer_size * run.sizes.inner_size) (gid : ℕ) :
    gid ∈ run.activeGroups ↔ gid < toUInt run.groups := by
  have hle : toUInt run.groups ≤ run.groups := Nat.mod_le _ _
  simp only [activeGroups, hscalar, ← hgroups, Bool.false_eq_true, if_false, List.mem_flatMap,
    List.mem_range]
  constructor
  · rintro ⟨group, -, hmem⟩
    by_cases hout : toUInt group ≥ toUInt run.groups
    · rw [if_pos hout] at hmem
      simp at hmem
    · rw [if_neg hout, List.mem_singleton] at hmem
      omega
  · intro hgid
    have hword : toUInt gid = gid := toUInt_of_lt (lt_trans hgid (toUInt_lt _))
    refine ⟨gid, by omega, ?_⟩
    rw [hword, if_neg (by omega)]
    simp

/-- The threadgroups of a vectorised kernel. -/
theorem mem_activeGroups_vec4 (hvec : run.use_vec4 = true) (hgroups : run.groups < uintRange)
    (gid : ℕ) : gid ∈ run.activeGroups ↔ gid < run.groups := by
  simp only [activeGroups, hvec, if_true, List.mem_map, List.mem_range]
  constructor
  · rintro ⟨group, hgroup, rfl⟩
    rwa [toUInt_of_lt (by omega)]
  · intro hgid
    exact ⟨gid, hgid, toUInt_of_lt (by omega)⟩

/-- A launch that covers its rows, and whose threads read them. -/
theorem succeeds_of_reads (harg : run.op.isArg = false)
    (hvec : run.use_vec4 = true → run.sizes.reduce_size % 4 = 0)
    (hended : ∃ enough, ∀ fuel ≥ enough, run.ended fuel = true)
    (hactive : ∀ o < run.sizes.outer_size, ∀ i < run.sizes.inner_size,
      o * run.sizes.inner_size + i ∈ run.activeGroups)
    (hread : ∀ o < run.sizes.outer_size, ∀ i < run.sizes.inner_size, ∀ r < run.sizes.reduce_size,
      run.inputIdx (o * run.sizes.inner_size + i) r
        = (o * run.sizes.reduce_size + r) * run.sizes.inner_size + i) : run.Succeeds := by
  refine ⟨hended, ?_⟩
  intro x undefined o ho i hi
  refine ⟨⟨_, mem_writes.mpr ⟨hactive o ho i hi, rfl⟩⟩, ?_⟩
  intro v hv
  obtain ⟨-, rfl⟩ := mem_writes.mp hv
  rw [if_neg (by simp [harg]), groupValue_eq hvec]
  refine ⟨harg, reductionReference_congr _ ?_⟩
  intro r hr
  exact congrArg x (hread o ho i hi r hr)

/-- The loops end when no index wraps around. -/
theorem ended_of_fits (hn : run.sizes.reduce_size < uintRange)
    (h : run.use_vec4 = true ∨ run.sizes.reduce_size + 256 ≤ uintRange) :
    ∃ enough, ∀ fuel ≥ enough, run.ended fuel = true := by
  refine ⟨run.sizes.reduce_size + 1, ?_⟩
  intro fuel hfuel
  rw [ended, Bool.or_eq_true]
  right
  rw [List.all_eq_true]
  intro tid htid
  have hbound : (if run.use_vec4 then run.sizes.reduce_size / 4 else run.sizes.reduce_size) + 256
        ≤ uintRange
      ∧ (if run.use_vec4 then run.sizes.reduce_size / 4 else run.sizes.reduce_size) < fuel := by
    unfold uintRange at hn h ⊢
    split_ifs with hvec
    · omega
    · exact ⟨h.resolve_left hvec, by omega⟩
  rw [wordFor_eq (by decide) hbound.1 (List.mem_range.mp htid) hbound.2]
  rfl

/-- **The scalar kernels.** -/
theorem succeeds_scalar (harg : run.op.isArg = false) (hscalar : run.use_vec4 = false)
    (hgroups : run.groups = run.sizes.outer_size * run.sizes.inner_size)
    (hn : run.sizes.reduce_size < uintRange) (ho : 0 < run.sizes.outer_size)
    (hi : 0 < run.sizes.inner_size) :
    run.Succeeds ↔ run.sizes.outer_size * run.sizes.inner_size < uintRange
      ∧ run.sizes.reduce_size + 256 ≤ uintRange
      ∧ run.sizes.outer_size * run.sizes.reduce_size * run.sizes.inner_size ≤ uintRange := by
  have hvec : run.use_vec4 = true → run.sizes.reduce_size % 4 = 0 := by simp [hscalar]
  have haddress : ∀ o i r, i < run.sizes.inner_size →
      run.inputIdx (o * run.sizes.inner_size + i) r
        = toUInt ((o * run.sizes.reduce_size + r) * run.sizes.inner_size + i) := by
    intro o i r hlt
    have hdiv : (o * run.sizes.inner_size + i) / run.sizes.inner_size = o := by
      rw [Nat.mul_comm, Nat.mul_add_div hi, Nat.div_eq_of_lt hlt, Nat.add_zero]
    have hmod : (o * run.sizes.inner_size + i) % run.sizes.inner_size = i := by
      rw [Nat.mul_comm, Nat.mul_add_mod, Nat.mod_eq_of_lt hlt]
    rw [inputIdx, hscalar, if_neg (by decide), hdiv, hmod]
  have hlast : (run.sizes.outer_size - 1) * run.sizes.inner_size + (run.sizes.inner_size - 1) + 1
      = run.sizes.outer_size * run.sizes.inner_size := by
    rw [Nat.add_assoc, Nat.sub_add_cancel hi, ← Nat.add_one_mul, Nat.sub_add_cancel ho]
  constructor
  · intro h
    refine ⟨?_, ?_, ?_⟩
    · -- the group of the last row
      have hactive := h.mem_activeGroups (Nat.sub_one_lt_of_lt ho) (Nat.sub_one_lt_of_lt hi)
      rw [mem_activeGroups_scalar hscalar hgroups, hgroups] at hactive
      have hword := toUInt_lt (run.sizes.outer_size * run.sizes.inner_size)
      omega
    · by_contra hlong
      exact not_succeeds_of_endless hscalar hlong ho hi h
    · by_contra hwrap
      have hpos : 0 < run.sizes.reduce_size := by
        by_contra hzero
        have hempty : run.sizes.reduce_size = 0 := by omega
        rw [hempty, Nat.mul_zero, Nat.zero_mul] at hwrap
        exact hwrap (Nat.zero_le _)
      refine not_succeeds_of_unread harg hvec (Nat.sub_one_lt_of_lt ho) (Nat.sub_one_lt_of_lt hi)
        hpos ?_ h
      intro r _
      have hword : run.inputIdx ((run.sizes.outer_size - 1) * run.sizes.inner_size
          + (run.sizes.inner_size - 1)) r < uintRange := by
        rw [haddress _ _ _ (Nat.sub_one_lt_of_lt hi)]
        exact toUInt_lt _
      have hend := run.sizes.index_last ho hpos hi
      omega
  · rintro ⟨hout, hloop, htotal⟩
    apply succeeds_of_reads harg hvec (ended_of_fits hn (Or.inr hloop))
    · intro o ho' i hi'
      rw [mem_activeGroups_scalar hscalar hgroups, hgroups, toUInt_of_lt hout]
      have hrow := Nat.mul_le_mul_right run.sizes.inner_size (Nat.succ_le_of_lt ho')
      rw [Nat.succ_mul] at hrow
      omega
    · intro o ho' i hi' r hr
      rw [haddress o i r hi']
      exact toUInt_of_lt (lt_of_lt_of_le (run.sizes.index_lt ho' hr hi') htotal)

/-- **The vectorised kernels.** -/
theorem succeeds_vec4 (harg : run.op.isArg = false) (hvec4 : run.use_vec4 = true)
    (hgroups : run.groups = run.sizes.outer_size * run.sizes.inner_size)
    (hinner : run.sizes.inner_size = 1) (hvec : run.sizes.reduce_size % 4 = 0)
    (hfit : run.sizes.outer_size < uintRange ∧ run.sizes.reduce_size < uintRange)
    (ho : 0 < run.sizes.outer_size) (hpos : 0 < run.sizes.reduce_size) :
    run.Succeeds ↔ (run.sizes.outer_size - 1) * run.sizes.reduce_size < uintRange := by
  have hcount : run.groups = run.sizes.outer_size := by rw [hgroups, hinner, Nat.mul_one]
  have haddress : ∀ o r, run.inputIdx (o * run.sizes.inner_size + 0) r
      = toUInt (o * run.sizes.reduce_size) + r := by
    intro o r
    rw [inputIdx, hvec4, if_pos rfl, hinner, Nat.mul_one, Nat.add_zero]
  constructor
  · intro h
    by_contra hwrap
    have hi : 0 < run.sizes.inner_size := by omega
    refine not_succeeds_of_unread harg (fun _ => hvec) (Nat.sub_one_lt_of_lt ho) hi hpos ?_ h
    intro r hr
    -- the row starts again at a lower index
    have hword := toUInt_lt ((run.sizes.outer_size - 1) * run.sizes.reduce_size)
    rw [haddress, hinner]
    omega
  · intro hstart
    apply succeeds_of_reads harg (fun _ => hvec) (ended_of_fits hfit.2 (Or.inl hvec4))
    · intro o ho' i hi'
      rw [mem_activeGroups_vec4 hvec4 (by omega), hcount, hinner]
      omega
    · intro o ho' i hi' r _
      obtain rfl : i = 0 := by omega
      have hle : o * run.sizes.reduce_size
          ≤ (run.sizes.outer_size - 1) * run.sizes.reduce_size :=
        Nat.mul_le_mul_right _ (by omega)
      rw [haddress, hinner, toUInt_of_lt (by omega)]
      omega

/-- A launch without rows. -/
theorem succeeds_of_zero (hgroups : run.groups = run.sizes.outer_size * run.sizes.inner_size)
    (hzero : run.sizes.outer_size = 0 ∨ run.sizes.inner_size = 0) : run.Succeeds := by
  have hnone : run.groups = 0 := by rw [hgroups, Nat.mul_eq_zero.mpr hzero]
  refine ⟨⟨0, ?_⟩, ?_⟩
  · intro fuel _
    simp [ended, activeGroups, hnone]
  · intro x undefined o ho i hi
    omega

end ReductionRun

/-! ### The calls -/

/-- The operations that have a vectorised kernel. -/
def ReductionOp.hasVec4 : ReductionOp → Bool
  | sum | mean | max => true
  | _ => false

/-- **The kernels that exist.** -/
theorem reductionPipeline_name (op : ReductionOp) (use_vec4 : Bool) {dtype : MNDType}
    (hdtype : dtype = .Float32 ∨ dtype = .Float16) :
    ∃ kernel_name, reductionKernelName op use_vec4 dtype = .ok kernel_name
      ∧ (reductionPipeline kernel_name = .ok () ↔ (use_vec4 = true → op.hasVec4 = true)) := by
  rcases hdtype with rfl | rfl
  · exact ⟨_, rfl, by cases op <;> cases use_vec4 <;> decide⟩
  · exact ⟨_, rfl, by cases op <;> cases use_vec4 <;> decide⟩

/-- The sizes that a launch covers. -/
def ReductionCovered (op : ReductionOp) (use_vec4 : Bool) (sizes : ReductionSizes) : Prop :=
  op.isArg = false ∧
    if use_vec4 then (sizes.outer_size - 1) * sizes.reduce_size < uintRange
    else sizes.outer_size * sizes.inner_size < uintRange ∧ sizes.reduce_size + 256 ≤ uintRange
      ∧ sizes.outer_size * sizes.reduce_size * sizes.inner_size ≤ uintRange

/-- The calls that have a kernel, with sizes that fit into its words and that it covers. -/
def ReductionSupported (op : ReductionOp) (extents : ReductionExtents) : Prop :=
  (extents.useVec4 = true → op.hasVec4 = true) ∧ ∃ sizes, extents.constants = .ok sizes ∧
    (sizes.outer_size = 0 ∨ sizes.inner_size = 0 ∨ ReductionCovered op extents.useVec4 sizes)

/-- The sizes fit into the words of a kernel, and keep their values. -/
theorem ReductionExtents.constants_spec {extents : ReductionExtents} {sizes : ReductionSizes}
    (h : extents.constants = .ok sizes) :
    sizes.outer_size < uintRange ∧ sizes.reduce_size < uintRange ∧
      (extents.useVec4 = true →
        sizes.inner_size = 1 ∧ sizes.reduce_size % 4 = 0 ∧ 16 ≤ sizes.reduce_size) := by
  have hsize : ∀ {size : ℤ} {n : ℕ}, checkedUInt "reduction" size = .ok n →
      size ≤ UINT32_MAX ∧ n = (size % uintRange).toNat := by
    intro size n hok
    simp only [checkedUInt, bind, Except.bind] at hok
    by_cases hle : size ≤ UINT32_MAX
    · simp only [hle, not_true, if_false] at hok
      exact ⟨hle, (Except.ok.inj hok).symm⟩
    · simp [hle] at hok
  simp only [constants, bind, Except.bind] at h
  split at h
  · cases h
  · rename_i houter
    split at h
    · cases h
    · rename_i hreduce
      split at h
      · cases h
      · rename_i hinner
        obtain rfl := Except.ok.inj h
        refine ⟨checkedUInt_lt houter, checkedUInt_lt hreduce, ?_⟩
        intro hvec
        obtain ⟨hle, hn⟩ := hsize hreduce
        obtain ⟨-, hm⟩ := hsize hinner
        simp only [useVec4, decide_eq_true_eq] at hvec
        unfold UINT32_MAX at hle
        unfold uintRange at hle hn hm
        dsimp only
        omega

/-- **Reductions.** A call on a contiguous tensor has a kernel and computes the reduction of every
row, for all contents of the tensor, exactly when it is supported. -/
theorem reduction_computes (op : ReductionOp) (input : MNTensor ℝ) (dim : ℤ)
    (hdtype : input.dtype = .Float32 ∨ input.dtype = .Float16)
    (hcontiguous : input.isContiguous = true) {d : ℕ}
    (hdim : normalizeDim "reduction" dim input.shape.length = .ok d) :
    ReductionComputes op input dim ↔ ReductionSupported op (reductionExtents input.shape d) := by
  obtain ⟨kernel_name, hname, hpipeline⟩ :=
    reductionPipeline_name op (reductionExtents input.shape d).useVec4 hdtype
  -- the launch of a call that has a kernel
  have hlaunch : ∀ sizes, (reductionExtents input.shape d).constants = .ok sizes →
      ((⟨op, kernel_name, (reductionExtents input.shape d).useVec4, sizes,
          sizes.outer_size * sizes.inner_size⟩ : ReductionRun).Succeeds
        ↔ sizes.outer_size = 0 ∨ sizes.inner_size = 0
          ∨ ReductionCovered op (reductionExtents input.shape d).useVec4 sizes) := by
    intro sizes hsizes
    obtain ⟨houter, hreduce, hvec⟩ := ReductionExtents.constants_spec hsizes
    by_cases hzero : sizes.outer_size = 0 ∨ sizes.inner_size = 0
    · exact iff_of_true (ReductionRun.succeeds_of_zero rfl hzero) (or_assoc.mp (Or.inl hzero))
    · have hpos : 0 < sizes.outer_size ∧ 0 < sizes.inner_size := by omega
      rw [not_or] at hzero
      rw [or_iff_right hzero.1, or_iff_right hzero.2, ReductionCovered]
      by_cases harg : op.isArg = true
      · exact iff_of_false (ReductionRun.not_succeeds_arg harg hpos.1 hpos.2)
          fun h => by simp [harg] at h
      · have hvalue : op.isArg = false := by simpa using harg
        rw [and_iff_right hvalue]
        by_cases huse : (reductionExtents input.shape d).useVec4 = true
        · obtain ⟨hinner, hmod, hlong⟩ := hvec huse
          rw [if_pos huse]
          exact ReductionRun.succeeds_vec4 hvalue huse rfl hinner hmod ⟨houter, hreduce⟩ hpos.1
            (lt_of_lt_of_le (by decide) hlong)
        · have hscalar : (reductionExtents input.shape d).useVec4 = false := by simpa using huse
          rw [if_neg huse]
          exact ReductionRun.succeeds_scalar hvalue hscalar rfl hreduce hpos.1 hpos.2
  simp only [ReductionComputes, ReductionSupported, dispatchReduction, hdim, hcontiguous, hname,
    bind, Except.bind, not_true, if_false, pure, Except.pure]
  rw [← hpipeline]
  cases reductionPipeline kernel_name with
  | error e => simp
  | ok _ =>
    cases hconstants : (reductionExtents input.shape d).constants with
    | error e => simp
    | ok sizes => simpa using hlaunch sizes hconstants

/-- Rows of 512 elements, which are added up four at a time. -/
theorem reduction_computes_rows :
    ReductionComputes .sum (indexTensor [3, 512] .Float32 (by decide) (by decide)) (-1) :=
  (reduction_computes .sum _ (-1) (Or.inl rfl) (by decide) rfl).mpr
    ⟨fun _ => rfl, ⟨3, 512, 1⟩, rfl, Or.inr (Or.inr ⟨rfl, by
      rw [if_pos (by decide)]
      decide⟩)⟩

/-- There is no `reduce_min_vec4_fp32`. -/
theorem reduction_computes_fails :
    ¬ ReductionComputes .min (indexTensor [16] .Float32 (by decide) (by decide)) 0 := by
  rintro ⟨run, hrun, -⟩
  exact absurd hrun (by
    rw [show dispatchReduction .min (indexTensor [16] .Float32 (by decide) (by decide)) 0
      = .error ⟨.KernelCompilationFailed,
        "KernelRegistry: function 'reduce_min_vec4_fp32' not found in loaded Metal library"⟩
      from rfl]
    simp)

end MetalNative
