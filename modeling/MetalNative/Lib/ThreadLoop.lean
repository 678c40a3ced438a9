import Mathlib.Algebra.BigOperators.Intervals

/-!
# Strided loops over the threads of a group

The threads of a group share the work on `n` items by the loop
`for (i = tid; i < n; i += threads)`.  `stride tid threads n` is the list of the items that one
thread visits, `allStrides threads n` the items that all of them visit.

* `mem_stride` — the items of one thread.
* `mem_allStrides`, `nodup_allStrides` — every item below `n` is visited exactly once, nothing else
  is visited.
* `storeAll_of_mem`, `storeAll_of_ne` — what memory holds after a list of stores, in whatever order
  they are made.
* `sum_range_mul` — a sum taken in groups.
* `copy_apply` — a cooperative copy, in any order of the threads.
-/

namespace ThreadLoop

/-! ### The items of one thread -/

/-- The values of `i` in `for (i = start; i < bound; i += step)`. -/
def stride (start step bound : ℕ) : List ℕ :=
  (List.range ((bound - start + step - 1) / step)).map fun t => start + t * step

theorem mem_stride {start step bound i : ℕ} (hstep : 0 < step) :
    i ∈ stride start step bound ↔ ∃ t, i = start + t * step ∧ i < bound := by
  simp only [stride, List.mem_map, List.mem_range]
  constructor
  · rintro ⟨t, ht, rfl⟩
    have hle : (t + 1) * step ≤ bound - start + step - 1 :=
      (Nat.le_div_iff_mul_le hstep).mp ht
    have hsucc : (t + 1) * step = t * step + step := Nat.add_one_mul t step
    exact ⟨t, rfl, by omega⟩
  · rintro ⟨t, rfl, ht⟩
    have hsucc : (t + 1) * step = t * step + step := Nat.add_one_mul t step
    have hle : (t + 1) * step ≤ bound - start + step - 1 := by omega
    exact ⟨t, (Nat.le_div_iff_mul_le hstep).mpr hle, rfl⟩

theorem lt_of_mem_stride {start step bound i : ℕ} (h : i ∈ stride start step bound)
    (hstep : 0 < step) : i < bound := by
  obtain ⟨t, rfl, ht⟩ := (mem_stride hstep).mp h
  exact ht

theorem nodup_stride {start step bound : ℕ} (hstep : 0 < step) :
    (stride start step bound).Nodup := by
  apply List.Nodup.map _ List.nodup_range
  intro s t hst
  exact Nat.eq_of_mul_eq_mul_right hstep (by simpa using hst)

/-- A loop that starts at `0` and whose step divides the bound runs `bound / step` times. -/
theorem stride_zero_mul (step n : ℕ) (hstep : 0 < step) :
    stride 0 step (step * n) = (List.range n).map fun t => step * t := by
  have hcount : (step * n - 0 + step - 1) / step = n := by
    rw [Nat.sub_zero, Nat.add_sub_assoc hstep, Nat.mul_add_div hstep,
      Nat.div_eq_of_lt (by omega), Nat.add_zero]
  rw [stride, hcount]
  simp [Nat.mul_comm]

/-- A loop over the multiples of `c`. -/
theorem stride_mul {c : ℕ} (hc : 0 < c) (start step bound : ℕ) :
    stride (start * c) (step * c) (bound * c) = (stride start step bound).map (· * c) := by
  have hcount : (bound * c - start * c + step * c - 1) / (step * c)
      = (bound - start + step - 1) / step := by
    rw [← Nat.sub_mul, ← Nat.add_mul]
    rcases Nat.eq_zero_or_pos (bound - start + step) with hzero | hpos
    · simp [hzero]
    · have hsplit : (bound - start + step) * c - 1 = (c - 1) + c * (bound - start + step - 1) := by
        obtain ⟨m, hm⟩ := Nat.exists_eq_succ_of_ne_zero hpos.ne'
        rw [hm, Nat.succ_mul, Nat.succ_sub_one, Nat.mul_comm m c]
        omega
      rw [hsplit, Nat.mul_comm step c, ← Nat.div_div_eq_div_mul, Nat.add_mul_div_left _ _ hc,
        Nat.div_eq_of_lt (show c - 1 < c by omega), Nat.zero_add]
  rw [stride, hcount, stride, List.map_map]
  apply List.map_congr_left
  intro t _
  simp only [Function.comp_apply, Nat.add_mul, Nat.mul_assoc]

/-! ### The items of all threads -/

/-- The items that the threads `0, …, threads - 1` visit. -/
def allStrides (threads n : ℕ) : List ℕ :=
  (List.range threads).flatMap fun tid => stride tid threads n

/-- Thread `tid` visits `i` when `i` leaves the remainder `tid`. -/
theorem mem_stride_iff_mod {threads tid n i : ℕ} (htid : tid < threads) :
    i ∈ stride tid threads n ↔ i % threads = tid ∧ i < n := by
  rw [mem_stride (by omega)]
  constructor
  · rintro ⟨t, rfl, ht⟩
    refine ⟨?_, ht⟩
    rw [Nat.add_mul_mod_self_right, Nat.mod_eq_of_lt htid]
  · rintro ⟨rfl, hi⟩
    refine ⟨i / threads, ?_, hi⟩
    have := Nat.mod_add_div i threads
    rw [Nat.mul_comm (i / threads)]
    omega

theorem nodup_allStrides (threads n : ℕ) : (allStrides threads n).Nodup := by
  rw [allStrides, List.nodup_flatMap]
  constructor
  · intro tid htid
    apply nodup_stride
    have := List.mem_range.mp htid
    omega
  · apply List.Pairwise.imp_of_mem _ (List.nodup_range (n := threads))
    intro s t hs ht hst i his hit
    rw [mem_stride_iff_mod (List.mem_range.mp hs)] at his
    rw [mem_stride_iff_mod (List.mem_range.mp ht)] at hit
    exact hst (his.1.symm.trans hit.1)

theorem mem_allStrides {threads n i : ℕ} (hthreads : 0 < threads) :
    i ∈ allStrides threads n ↔ i < n := by
  simp only [allStrides, List.mem_flatMap, List.mem_range]
  constructor
  · rintro ⟨tid, htid, hi⟩
    exact lt_of_mem_stride hi hthreads
  · intro hi
    have hmod := Nat.mod_lt i hthreads
    exact ⟨i % threads, hmod, (mem_stride_iff_mod hmod).mpr ⟨rfl, hi⟩⟩

/-! ### Stores -/

variable {ι α : Type*}

/-- Store `value x` at `address x` for every item `x` of a list, in the order of the list. -/
def storeAll (items : List ι) (address : ι → ℕ) (value : ι → α) (mem : ℕ → α) : ℕ → α :=
  items.foldl (fun mem x => Function.update mem (address x) (value x)) mem

@[simp] theorem storeAll_nil (address : ι → ℕ) (value : ι → α) (mem : ℕ → α) :
    storeAll [] address value mem = mem := rfl

@[simp] theorem storeAll_cons (x : ι) (items : List ι) (address : ι → ℕ) (value : ι → α)
    (mem : ℕ → α) :
    storeAll (x :: items) address value mem
      = storeAll items address value (Function.update mem (address x) (value x)) := rfl

/-- A cell that no store addresses keeps its value. -/
theorem storeAll_of_ne {items : List ι} {address : ι → ℕ} (value : ι → α) {mem : ℕ → α} {a : ℕ}
    (hne : ∀ x ∈ items, address x ≠ a) : storeAll items address value mem a = mem a := by
  induction items generalizing mem with
  | nil => simp
  | cons x rest ih =>
    have hx : address x ≠ a := hne x (by simp)
    rw [storeAll_cons, ih (fun y hy => hne y (by simp [hy])), Function.update_of_ne hx.symm]

/-- A cell that is stored to holds `v`, when every store to it stores `v`. -/
theorem storeAll_of_mem {items : List ι} {address : ι → ℕ} {value : ι → α} {mem : ℕ → α} {a : ℕ}
    {v : α} (hsame : ∀ x ∈ items, address x = a → value x = v)
    (hmem : (∃ x ∈ items, address x = a) ∨ mem a = v) :
    storeAll items address value mem a = v := by
  induction items generalizing mem with
  | nil => simpa using hmem
  | cons x rest ih =>
    rw [storeAll_cons]
    apply ih (fun y hy => hsame y (by simp [hy]))
    by_cases hx : address x = a
    · -- this store puts `v` there, and the stores after it change nothing
      right
      rw [← hx, Function.update_self]
      exact hsame x (by simp) hx
    · rcases hmem with ⟨y, hy, hya⟩ | hold
      · rcases List.mem_cons.mp hy with rfl | hrest
        · exact absurd hya hx
        · exact .inl ⟨y, hrest, hya⟩
      · right
        rw [Function.update_of_ne (Ne.symm hx), hold]

/-! ### Sums -/

section Sums

variable {κ M : Type*} [AddCommMonoid M]

theorem sum_map_flatMap (items : List ι) (h : ι → List κ) (f : κ → M) :
    ((items.flatMap h).map f).sum = (items.map fun x => ((h x).map f).sum).sum := by
  rw [List.flatMap_def, List.map_flatten, List.sum_flatten, List.map_map, List.map_map]
  rfl

/-- The sum over the items of one thread. -/
theorem sum_map_stride (start step bound : ℕ) (f : ℕ → M) :
    ((stride start step bound).map f).sum
      = ∑ t ∈ Finset.range (stride start step bound).length, f (start + t * step) := by
  rw [stride, List.length_map, List.length_range, List.map_map]
  rfl

/-- A sum over `w * n` items, `w` at a time. -/
theorem sum_range_mul (w n : ℕ) (f : ℕ → M) :
    ∑ i ∈ Finset.range (w * n), f i
      = ∑ t ∈ Finset.range n, ∑ l ∈ Finset.range w, f (w * t + l) := by
  induction n with
  | zero => simp
  | succ n ih => rw [Nat.mul_succ, Finset.sum_range_add, ih, Finset.sum_range_succ]

/-- A sum whose terms vanish from `n` on. -/
theorem sum_range_of_zero {m n : ℕ} {f : ℕ → M} (hzero : ∀ t, n ≤ t → f t = 0) (hmn : n ≤ m) :
    ∑ t ∈ Finset.range m, f t = ∑ t ∈ Finset.range n, f t := by
  obtain ⟨k, rfl⟩ := Nat.exists_eq_add_of_le hmn
  rw [Finset.sum_range_add, Finset.sum_eq_zero fun t _ => hzero (n + t) (by omega), add_zero]

end Sums

/-! ### Enumerations -/

section Enumerate

variable {κ : Type*}

/-- A list over `w * n` items, `w` at a time. -/
theorem flatMap_range_mul (w n : ℕ) (f : ℕ → List κ) :
    (List.range (w * n)).flatMap f
      = (List.range n).flatMap fun t => (List.range w).flatMap fun l => f (w * t + l) := by
  induction n with
  | zero => simp
  | succ n ih =>
    rw [Nat.mul_succ, List.range_add, List.range_succ, List.flatMap_append, List.flatMap_append,
      ih, List.flatMap_map]
    simp

/-- Those below a bound. -/
theorem flatMap_range_below (n bound : ℕ) (f : ℕ → κ) :
    ((List.range n).flatMap fun i => if i ≥ bound then [] else [f i])
      = (List.range (min n bound)).map f := by
  induction n with
  | zero => simp
  | succ n ih =>
    rw [List.range_succ, List.flatMap_append, ih]
    by_cases hn : n ≥ bound
    · have hmin : min (n + 1) bound = min n bound := by omega
      simp [hn, hmin]
    · have hmin : min (n + 1) bound = n + 1 := by omega
      have hmin' : min n bound = n := by omega
      simp [hn, hmin, hmin', List.range_succ]

/-- The items at one key of an enumeration by keys. -/
theorem filter_map_range (n p : ℕ) (f : ℕ → κ) (hp : p < n) :
    (((List.range n).map fun i => (i, f i)).filter fun w => w.1 = p) = [(p, f p)] := by
  have hkeys : (List.range n).filter (fun i => decide (i = p)) = [p] := by
    have hcount : (List.range n).count p = 1 :=
      List.count_eq_one_of_mem List.nodup_range (List.mem_range.mpr hp)
    rw [List.filter_eq, hcount, List.replicate_one]
  rw [List.filter_map]
  simp only [Function.comp_def]
  rw [hkeys]
  simp

/-- Copies of one list: each item of it comes as often as there are copies. -/
theorem filter_flatMap_const (n : ℕ) (items : List κ) (q : κ → Bool) {x : κ}
    (hx : items.filter q = [x]) :
    ((List.range n).flatMap fun _ => items).filter q = List.replicate n x := by
  induction n with
  | zero => simp
  | succ n ih =>
    rw [List.range_succ, List.flatMap_append, List.filter_append, ih, List.replicate_succ']
    simp [hx]

end Enumerate

/-! ### Orders of the threads -/

/-- An order in which the work of all threads is done: any interleaving of their loops. -/
structure Interleaving {ι : Type*} (work : List ι) where
  items : List ι
  perm : items.Perm work

namespace Interleaving

/-- One thread after the other. -/
def inOrder {ι : Type*} (work : List ι) : Interleaving work := ⟨work, .refl _⟩

theorem mem_items {work : List ι} (o : Interleaving work) {x : ι} : x ∈ o.items ↔ x ∈ work :=
  o.perm.mem_iff

end Interleaving

/-- An order of the loops over `n` items. -/
abbrev LoopOrder (threads n : ℕ) := Interleaving (allStrides threads n)

/-- A cooperative copy to `row * width + col` fills the first `n` cells, whatever the order. -/
theorem copy_apply {threads n : ℕ} (hthreads : 0 < threads) (o : LoopOrder threads n)
    (width : ℕ) (value mem : ℕ → α) {a : ℕ} (ha : a < n) :
    storeAll o.items (fun i => i / width * width + i % width) value mem a = value a := by
  apply storeAll_of_mem
  · intro i _ hi
    rw [← hi, Nat.div_add_mod']
  · exact .inl ⟨a, o.mem_items.mpr ((mem_allStrides hthreads).mpr ha), Nat.div_add_mod' a width⟩

end ThreadLoop
