import MetalNative.Ops.Elementwise

namespace MetalNative

open ThreadLoop

/-!
# The vectorised kernels

The element-wise kernels, the copies and the conversions between the floating-point types work on
four elements a thread, by a vector load where all four exist and by a loop over the tail otherwise.
The loop of the element-wise kernels and the copies ends at `min(idx + 4, num_elements)`, in `uint`;
that of the conversions ends at `count`.

* `vectorIndices`, `castIndices` — the elements of a thread.
* `CoversArray` — every element of the array once, and nothing else.
* `MapsArray` — the kernels compute the scalar map.
* `vector_coverage` — for which counts the two families do.
-/

/-! ### The kernels -/

/-- The elements that thread `tid` of a conversion works on. -/
def castIndices (count tid : ℕ) : List ℕ :=
  if (vectorBase tid + 3) % uintRange < count then
    [vectorBase tid, vectorBase tid + 1, vectorBase tid + 2, vectorBase tid + 3]
  else if vectorBase tid < count then stride (vectorBase tid) 1 count
  else []

/-- The elements that all threads of a conversion work on. -/
def castGridIndices (count grid : ℕ) : List ℕ := (List.range grid).flatMap (castIndices count)

/-- `(numel + 3) / 4`, the number of threads. -/
def vectorGrid (numel : ℕ) : ℕ := (numel + 3) / 4

variable {α β : Type}

/-- `exp_fp32` and its siblings: `output[i] = f(input[i])`. -/
def unaryKernel (f : α → β) (input : ℕ → α) (items : List ℕ) : ℕ → Option β :=
  storeAll items id (fun i => some (f (input i))) fun _ => none

/-- `copy_fp32` and `copy_fp16`. -/
def copyKernel (input : ℕ → α) (items : List ℕ) : ℕ → Option α := unaryKernel id input items

/-- `cast_fp32_to_fp16` and `cast_fp16_to_fp32`. -/
def castKernel (convert : α → β) (input : ℕ → α) (items : List ℕ) : ℕ → Option β :=
  unaryKernel convert input items

/-- The map that the kernels are to compute. -/
def scalarMap (n : ℕ) (value : ℕ → β) : ℕ → Option β :=
  fun i => if i < n then some (value i) else none

/-! ### Coverage -/

/-- The items are the indices of an array of `n` elements, each of them once.  They are the elements
    that are written, and those that are read of each operand. -/
structure CoversArray (n : ℕ) (items : List ℕ) : Prop where
  once : items.Nodup
  mem_iff : ∀ f, f ∈ items ↔ f < n

/-- In any order of the threads, a kernel with this work computes the scalar map of its
    operation. -/
structure MapsArray (n : ℕ) (items : List ℕ) : Prop where
  unary : ∀ (order : LaunchOrder) (α β : Type) (f : α → β) (input : ℕ → α),
    unaryKernel f input (order.items items) = scalarMap n fun i => f (input i)
  binary : ∀ (order : LaunchOrder) (α : Type) (op : α → α → α) (a b : ℕ → α),
    binaryKernel op a b (order.items items) = scalarMap n fun i => op (a i) (b i)

/-- The stores of a kernel, each of them to the element that it is computed from. -/
theorem storeAll_items {n : ℕ} {items : List ℕ} (hmem : ∀ f, f ∈ items ↔ f < n)
    (value : ℕ → β) :
    storeAll items id (fun i => some (value i)) (fun _ => none) = scalarMap n value := by
  funext i
  unfold scalarMap
  by_cases hi : i < n
  · rw [if_pos hi]
    apply storeAll_of_mem
    · rintro x - rfl
      rfl
    · exact .inl ⟨i, (hmem i).mpr hi, rfl⟩
  · rw [if_neg hi]
    apply storeAll_of_ne
    rintro x hx rfl
    exact hi ((hmem _).mp hx)

/-- A kernel whose work covers the array computes the scalar map. -/
theorem CoversArray.mapsArray {n : ℕ} {items : List ℕ} (h : CoversArray n items) :
    MapsArray n items where
  unary order α β f input := by
    apply storeAll_items
    intro i
    rw [order.mem_items, h.mem_iff]
  binary order α op a b := by
    apply storeAll_items
    intro i
    rw [order.mem_items, h.mem_iff]

/-! ### The groups of four -/

section Groups

variable {n id f : ℕ}

/-- The threads of a launch begin at different elements. -/
theorem vectorBase_of_lt (hn : n < uintRange) (hid : id < vectorGrid n) :
    vectorBase id = 4 * id := by
  unfold vectorGrid at hid
  unfold vectorBase
  unfold uintRange at hn ⊢
  omega

theorem nodup_vectorIndices (n id : ℕ) : (vectorIndices n id).Nodup := by
  unfold vectorIndices
  split_ifs
  · simp
  · exact nodup_stride Nat.one_pos

theorem nodup_castIndices (n id : ℕ) : (castIndices n id).Nodup := by
  unfold castIndices
  split_ifs
  · simp
  · exact nodup_stride Nat.one_pos
  · exact List.nodup_nil

/-- The thread of a conversion works on its group of four, as far as the array goes. -/
theorem mem_castIndices (hn : n < uintRange) (hid : id < vectorGrid n) :
    f ∈ castIndices n id ↔ f < n ∧ f / 4 = id := by
  have hbase := vectorBase_of_lt hn hid
  unfold vectorGrid at hid
  unfold castIndices
  rw [hbase]
  unfold uintRange at hn ⊢
  have hmod : (4 * id + 3) % 2 ^ 32 = 4 * id + 3 := by omega
  rw [hmod]
  split_ifs with hvector htail
  · simp only [List.mem_cons, List.not_mem_nil, or_false]
    omega
  · -- at most three elements are left
    rw [mem_stride Nat.one_pos]
    constructor
    · rintro ⟨t, rfl, ht⟩
      omega
    · rintro ⟨hf, hgroup⟩
      exact ⟨f - 4 * id, by omega, hf⟩
  · simp only [List.not_mem_nil, false_iff]
    omega

/-- Lists with different items, one for each thread. -/
theorem nodup_grid {work : ℕ → List ℕ} {grid : ℕ} (hnodup : ∀ id, (work id).Nodup)
    (hgroup : ∀ id < grid, ∀ f ∈ work id, f / 4 = id) :
    ((List.range grid).flatMap work).Nodup := by
  rw [List.nodup_flatMap]
  refine ⟨fun id _ => hnodup id, ?_⟩
  apply List.Pairwise.imp_of_mem _ List.nodup_range
  intro s t hs ht hst f hfs hft
  -- an element belongs to one group
  exact hst ((hgroup s (List.mem_range.mp hs) f hfs).symm.trans
    (hgroup t (List.mem_range.mp ht) f hft))

/-- **The conversions** cover every array that a `uint` counts. -/
theorem castGridIndices_covers (hn : n < uintRange) :
    CoversArray n (castGridIndices n (vectorGrid n)) where
  once := nodup_grid (nodup_castIndices n) fun _ hid _ hf => ((mem_castIndices hn hid).mp hf).2
  mem_iff f := by
    unfold castGridIndices
    simp only [List.mem_flatMap, List.mem_range]
    constructor
    · rintro ⟨id, hid, hf⟩
      exact ((mem_castIndices hn hid).mp hf).1
    · intro hf
      have hid : f / 4 < vectorGrid n := by
        unfold vectorGrid
        omega
      exact ⟨f / 4, hid, (mem_castIndices hn hid).mpr ⟨hf, rfl⟩⟩

/-- **The element-wise kernels and the copies** cover an array unless it reaches into the last group
    of four that a `uint` addresses. -/
theorem gridIndices_covers_iff (hn : n < uintRange) :
    CoversArray n (gridIndices n (vectorGrid n)) ↔ n ≤ uintRange - 4 := by
  constructor
  · intro hcovers
    by_contra hlarge
    -- the first element of that group is left out
    have hmem := (hcovers.mem_iff (uintRange - 4)).mpr (by omega)
    have hlast := ((mem_gridIndices hn).mp hmem).2.1
    omega
  · intro hle
    refine ⟨nodup_grid (nodup_vectorIndices n) ?_, fun f => mem_gridIndices_all hle⟩
    intro id hid f hf
    have hbase := ((mem_vectorIndices hn).mp hf).2.2
    rw [vectorBase_of_lt hn hid] at hbase
    omega

/-- An element that is left out is not written. -/
theorem not_mapsArray (hn : n < uintRange) (hlarge : ¬ n ≤ uintRange - 4) :
    ¬ MapsArray n (gridIndices n (vectorGrid n)) := by
  intro hmaps
  have hcopy := congrFun (hmaps.unary .inOrder Unit Unit id fun _ => ()) (uintRange - 4)
  have hin : scalarMap n (fun _ => ()) (uintRange - 4) = some () := if_pos (by omega)
  have hout : unaryKernel id (fun _ => ()) (LaunchOrder.inOrder.items
      (gridIndices n (vectorGrid n)))
      (uintRange - 4) = none := by
    apply storeAll_of_ne
    intro x hx
    have hlast := ((mem_gridIndices hn).mp ((LaunchOrder.mem_items _).mp hx)).2.1
    exact Nat.ne_of_lt hlast
  rw [hout] at hcopy
  rw [← hcopy] at hin
  cases hin

end Groups

/-- **The vectorised kernels.**  With the grid of the hosts and a count that they accept, an
    element-wise kernel or a copy covers the array and computes the scalar map exactly where the
    count is at most `2 ^ 32 - 4`; a conversion always does. -/
theorem vector_coverage (n : ℕ) (hpos : 1 ≤ n) (hn : n ≤ UINT32_MAX) :
    ((CoversArray n (gridIndices n (vectorGrid n)) ∧ MapsArray n (gridIndices n (vectorGrid n)))
        ↔ n ≤ uintRange - 4) ∧
      CoversArray n (castGridIndices n (vectorGrid n)) ∧
        MapsArray n (castGridIndices n (vectorGrid n)) := by
  have hlt : n < uintRange := by
    unfold UINT32_MAX at hn
    unfold uintRange at hn ⊢
    omega
  have hcast := castGridIndices_covers hlt
  refine ⟨?_, hcast, hcast.mapsArray⟩
  rw [gridIndices_covers_iff hlt |>.symm]
  exact ⟨fun h => h.1, fun h => ⟨h, h.mapsArray⟩⟩

/-- Five elements: a vector and a tail. -/
theorem vector_coverage_five :
    CoversArray 5 (gridIndices 5 (vectorGrid 5)) ∧ MapsArray 5 (gridIndices 5 (vectorGrid 5)) :=
  (vector_coverage 5 (by decide) (by decide)).1.mpr (by decide)

/-- The largest count: the last three elements are not written. -/
theorem vector_kernels_skip_tail :
    ¬ CoversArray UINT32_MAX (gridIndices UINT32_MAX (vectorGrid UINT32_MAX)) ∧
      ¬ MapsArray UINT32_MAX (gridIndices UINT32_MAX (vectorGrid UINT32_MAX)) :=
  ⟨fun h => absurd ((gridIndices_covers_iff (by decide)).mp h) (by decide),
    not_mapsArray (by decide) (by decide)⟩

end MetalNative
