import MetalNative.Ops.Elementwise

namespace MetalNative

open ThreadLoop Broadcast MNTensor

/-!
# When element-wise operations broadcast

The host computes the shape that the operands broadcast to, but the kernels index every operand
with the position in the result.

* `binary_broadcasts_iff` — a binary operation broadcasts exactly when no operand has fewer elements
  than the result (and the result ends before the last group of four that a `uint` can address).
* `where_broadcasts_iff` — the same for `where`, whose kernel reads `x` or `y` only.
* `elementwise_broadcasts` — both, and the scalar operations.
* `add_scalar_reads_past_end` — adding a scalar to two elements reads past the scalar.
-/

/-! ### What broadcasting means -/

/-- The shape that two shapes broadcast to. -/
def broadcastDims (ds es : List ℕ) : Option (List ℕ) :=
  (common ds.reverse es.reverse).map List.reverse

/-- `i` is a multi-index of a tensor with these dimensions. -/
def InShape (dims i : List ℕ) : Prop := Within dims.reverse i.reverse

/-- The position of a multi-index in a row-major tensor. -/
def rowMajor (dims i : List ℕ) : ℕ := Broadcast.offset dims.reverse i.reverse

/-- The element of an operand for the multi-index `i` of the result: dimensions of size `1` and
missing dimensions are collapsed. -/
def MNTensor.broadcastAt {α : Type} (t : MNTensor α) (i : List ℕ) : α :=
  t.data (Broadcast.offset t.dims.reverse (collapse t.dims.reverse i.reverse))

/-- The call returns a tensor of these dimensions with `value i` at every multi-index `i`, and no
thread reads past the end of an operand; `sizes` are the operands' numbers of elements. -/
def Broadcasts {α : Type} (r : Except MNException (KernelRun α)) (dims : List ℕ)
    (value : List ℕ → α) (sizes : List ℕ) : Prop :=
  ∃ run, r = .ok run ∧ run.shape = dims.map Nat.cast
    ∧ (∀ i, InShape dims i → run.output (rowMajor dims i) = some (value i))
    ∧ List.Forall₂ (fun indices size => ∀ f ∈ indices, f < size) run.reads sizes

/-- The data types that have element-wise kernels. -/
def IsFloating (dtype : MNDType) : Prop := dtype ∈ [MNDType.Float32, .Float16, .BFloat16]

instance (dtype : MNDType) : Decidable (IsFloating dtype) :=
  inferInstanceAs (Decidable (_ ∈ _))

theorem rowMajor_lt {dims i : List ℕ} (h : InShape dims i) : rowMajor dims i < dims.prod := by
  rw [← List.prod_reverse]
  exact offset_lt h

/-- Every position of a tensor is that of a multi-index. -/
theorem exists_rowMajor {dims : List ℕ} {f : ℕ} (hf : f < dims.prod) :
    ∃ i, InShape dims i ∧ rowMajor dims i = f := by
  rw [← List.prod_reverse] at hf
  obtain ⟨i, hi, hoff⟩ := exists_offset _ hf
  refine ⟨i.reverse, ?_, ?_⟩
  · rw [InShape, List.reverse_reverse]
    exact hi
  · rw [rowMajor, List.reverse_reverse, hoff]

theorem broadcastWith_natCast {ds es dims : List ℕ} (h : broadcastDims ds es = some dims) :
    MNShape.broadcastWith (ds.map Nat.cast) (es.map Nat.cast) = .ok (dims.map Nat.cast) := by
  obtain ⟨cs, hcs, rfl⟩ := Option.map_eq_some_iff.mp h
  have hcommon : common (ds.map Nat.cast : List ℤ).reverse (es.map Nat.cast : List ℤ).reverse
      = some (cs.map Nat.cast) := by
    rw [← List.map_reverse, ← List.map_reverse, common_natCast, hcs]
    rfl
  rw [MNShape.broadcastWith, hcommon]
  simp [List.map_reverse]

/-- Both operands expand to the shape they broadcast to. -/
theorem expands_of_broadcastDims {ds es dims : List ℕ} (h : broadcastDims ds es = some dims) :
    Expands ds.reverse dims.reverse ∧ Expands es.reverse dims.reverse := by
  obtain ⟨cs, hcs, rfl⟩ := Option.map_eq_some_iff.mp h
  rw [List.reverse_reverse]
  exact expands_of_common hcs

/-- An operand with as many elements as the result is read at the position of the result. -/
theorem broadcastAt_eq {α : Type} (t : MNTensor α) {dims i : List ℕ}
    (h : Expands t.dims.reverse dims.reverse) (hprod : t.dims.prod = dims.prod)
    (hi : InShape dims i) : t.broadcastAt i = t.data (rowMajor dims i) := by
  rw [broadcastAt, rowMajor, h.offset_collapse (by simpa using hprod) hi]

/-- An operand has at most as many elements as a result that is not empty. -/
theorem prod_le_of_expands {ds dims : List ℕ} (h : Expands ds.reverse dims.reverse)
    (hpos : 0 < dims.prod) : ds.prod ≤ dims.prod := by
  have := h.prod_le (by simpa using hpos)
  simpa using this

/-! ### Binary operations -/

section Binary

variable {α : Type} {op : α → α → α} {a b : ℕ → α} {items : List ℕ} {f : ℕ}

theorem binaryKernel_of_mem (h : f ∈ items) : binaryKernel op a b items f =
    some (op (a f) (b f)) := by
  apply storeAll_of_mem
  · rintro x - rfl
    rfl
  · exact .inl ⟨f, h, rfl⟩

theorem mem_of_binaryKernel {v : α} (h : binaryKernel op a b items f = some v) : f ∈ items := by
  by_contra hf
  have hnone : binaryKernel op a b items f = none := by
    apply storeAll_of_ne
    rintro x hx rfl
    exact hf hx
  rw [hnone] at h
  exact absurd h (by simp)

end Binary

theorem kernelSuffix_ok (caller : String) {dtype : MNDType} (h : IsFloating dtype) :
    ∃ suffix, kernelSuffix caller dtype = .ok suffix := by
  unfold IsFloating at h
  simp only [List.mem_cons, List.not_mem_nil, or_false] at h
  rcases h with rfl | rfl | rfl <;> exact ⟨_, rfl⟩

/-- The overflow check passes for a result whose elements a `uint` can count. -/
theorem emptyTensorCheck_ok {shape : MNShape} {n : ℕ} (hnumel : shape.numel = n)
    (hn : n ≤ uintRange) (dtype : MNDType) : emptyTensorCheck shape dtype (.ok ()) = .ok () := by
  have hsize : toSizeT n = n := toSizeT_natCast
      (by unfold uintRange at hn; unfold sizeTRange; omega)
  have hbound : n ≤ SIZE_MAX / dtypeSize dtype := by
    unfold uintRange at hn
    cases dtype <;> simp only [SIZE_MAX, sizeTRange, dtypeSize] <;> omega
  rw [emptyTensorCheck, hnumel, hsize, if_neg]
  omega

section Dispatch

variable {α : Type} {name : String} {op : MNDType → α → α → α} {a b : MNTensor α}
  {order : LaunchOrder} {dims : List ℕ}

/-- A call that returns has launched a grid over `num_elements` elements. -/
theorem dispatchBinaryOp_inv (hdims : broadcastDims a.dims b.dims = some dims) {run : KernelRun α}
    (h : dispatchBinaryOp name op a b (.ok ()) order = .ok run) :
    (toInt64 (dims.prod : ℕ) ≤ UINT32_MAX) ∧ ∃ numElements < uintRange, ∃ grid items,
      (∀ f, f ∈ items ↔ f ∈ gridIndices numElements grid)
        ∧ run.output = binaryKernel (op a.dtype) a.data b.data items
        ∧ run.reads = [items, items] := by
  have hshape := broadcastWith_natCast hdims
  unfold dispatchBinaryOp at h
  split_ifs at h
  rw [shape, shape, hshape] at h
  simp only [bind, Except.bind] at h
  split at h
  · exact absurd h (by simp)
  · split at h
    · exact absurd h (by simp)
    · split_ifs at h with hmax
      rw [MNShape.numel_map_natCast] at hmax
      obtain rfl := Except.ok.inj h
      exact ⟨hmax, _, Nat.mod_lt _ (by decide), _, _, fun _ => order.mem_items, rfl, rfl⟩

variable (name op order) in
/-- A call whose result has few enough elements launches a thread for every four of them. -/
theorem dispatchBinaryOp_ok (hdtype : a.dtype = b.dtype) (hfloat : IsFloating a.dtype)
    (hca : a.isContiguous) (hcb : b.isContiguous)
    (hdims : broadcastDims a.dims b.dims = some dims) (hn : dims.prod ≤ uintRange - 4) :
    ∃ run items, dispatchBinaryOp name op a b (.ok ()) order = .ok run
      ∧ (∀ f, f ∈ items ↔ f < dims.prod) ∧ run.shape = dims.map Nat.cast
      ∧ run.output = binaryKernel (op a.dtype) a.data b.data items
      ∧ run.reads = [items, items] := by
  have hlt : dims.prod < uintRange := by unfold uintRange at hn ⊢; omega
  have hnumel : MNShape.numel (dims.map Nat.cast) = (dims.prod : ℕ) := by
    rw [MNShape.numel_map_natCast]
    exact toInt64_natCast (by unfold uintRange at hlt; omega)
  obtain ⟨suffix, hsuffix⟩ := kernelSuffix_ok "elementwise" hfloat
  have hmax : ((dims.prod : ℕ) : ℤ) ≤ UINT32_MAX := by
    unfold UINT32_MAX uintRange at *
    omega
  have hnum : toSizeT (dims.prod : ℕ) % uintRange = dims.prod := by
    rw [toSizeT_natCast (by unfold uintRange at hlt; unfold sizeTRange; omega),
      Nat.mod_eq_of_lt hlt]
  have hgrid : toSizeT (((dims.prod : ℕ) + 3 : ℤ).tdiv 4) = (dims.prod + 3) / 4 := by
    have hdiv : ((dims.prod : ℕ) + 3 : ℤ).tdiv 4 = ((dims.prod + 3) / 4 : ℕ) := by
      rw [Int.tdiv_eq_ediv_of_nonneg (by omega)]
      omega
    rw [hdiv]
    exact toSizeT_natCast (by unfold uintRange at hlt; unfold sizeTRange; omega)
  have hcall : dispatchBinaryOp name op a b (.ok ()) order = .ok {
      kernelName := name ++ suffix
      shape := dims.map Nat.cast
      output := binaryKernel (op a.dtype) a.data b.data
        (order.items (gridIndices dims.prod ((dims.prod + 3) / 4)))
      reads := [order.items (gridIndices dims.prod ((dims.prod + 3) / 4)),
        order.items (gridIndices dims.prod ((dims.prod + 3) / 4))] } := by
    rw [dispatchBinaryOp, if_neg (by simpa using hdtype), if_neg (by simp [hca, hcb]),
      shape, shape, broadcastWith_natCast hdims]
    simp only [bind, Except.bind, hsuffix, emptyTensorCheck_ok hnumel hlt.le, hnumel, hnum, hgrid]
    rw [if_pos hmax]
  exact ⟨_, _, hcall, fun f => order.mem_items.trans (mem_gridIndices_all hn), rfl, rfl, rfl⟩

variable (name op order) in
/-- **Binary operations.**  They broadcast exactly when both operands have as many elements as the
result and the result ends before the last group of four. -/
theorem binary_broadcasts_iff (hdtype : a.dtype = b.dtype) (hfloat : IsFloating a.dtype)
    (hca : a.isContiguous) (hcb : b.isContiguous)
    (hdims : broadcastDims a.dims b.dims = some dims) :
    Broadcasts (dispatchBinaryOp name op a b (.ok ()) order) dims
        (fun i => op a.dtype (a.broadcastAt i) (b.broadcastAt i)) [a.dims.prod, b.dims.prod]
      ↔ dims.prod ≤ uintRange - 4
          ∧ (dims.prod = 0 ∨ (a.dims.prod = dims.prod ∧ b.dims.prod = dims.prod)) := by
  obtain ⟨hexpa, hexpb⟩ := expands_of_broadcastDims hdims
  constructor
  · rintro ⟨run, hrun, -, hout, hreads⟩
    obtain ⟨-, numElements, hnum, grid, items, hitems, houtput, hr⟩ :=
      dispatchBinaryOp_inv hdims hrun
    -- every element of the result is written, so it is one that the grid works on
    have hwork : ∀ f < dims.prod, f ∈ gridIndices numElements grid := by
      intro f hf
      obtain ⟨i, hi, rfl⟩ := exists_rowMajor hf
      have hcell := hout i hi
      rw [houtput] at hcell
      exact (hitems _).mp (mem_of_binaryKernel hcell)
    rw [hr] at hreads
    simp only [List.forall₂_cons, List.forall₂_nil_left_iff, and_true] at hreads
    obtain ⟨hreadsA, hreadsB⟩ := hreads
    by_cases hzero : dims.prod = 0
    · exact ⟨by omega, .inl hzero⟩
    · have hpos : 0 < dims.prod := Nat.pos_of_ne_zero hzero
      have hlast := hwork (dims.prod - 1) (by omega)
      have hA := hreadsA _ ((hitems _).mpr hlast)
      have hB := hreadsB _ ((hitems _).mpr hlast)
      have hleA := prod_le_of_expands hexpa hpos
      have hleB := prod_le_of_expands hexpb hpos
      have hgroup := ((mem_gridIndices hnum).mp hlast).2.1
      exact ⟨by omega, .inr ⟨by omega, by omega⟩⟩
  · rintro ⟨hn, hsize⟩
    obtain ⟨run, items, hrun, hitems, hshape, houtput, hr⟩ :=
      dispatchBinaryOp_ok name op order hdtype hfloat hca hcb hdims hn
    refine ⟨run, hrun, hshape, ?_, ?_⟩
    · intro i hi
      have hlt := rowMajor_lt hi
      obtain hzero | ⟨hA, hB⟩ := hsize
      · omega
      · have ha := broadcastAt_eq a hexpa hA hi
        have hb := broadcastAt_eq b hexpb hB hi
        simp only [houtput, binaryKernel_of_mem ((hitems _).mpr hlt), ha, hb]
    · rw [hr]
      simp only [List.forall₂_cons, List.forall₂_nil_left_iff, and_true]
      constructor
      · intro f hf
        have := (hitems f).mp hf
        omega
      · intro f hf
        have := (hitems f).mp hf
        omega

end Dispatch

/-! ### `where` -/

section Where

variable {α : Type} {condition : MNTensor Bool} {x y : MNTensor α} {order : LaunchOrder}
  {shape1 dims : List ℕ}

theorem whereKernel_of_mem {c : ℕ → Bool} {u v : ℕ → α} {items : List ℕ} {f : ℕ}
    (h : f ∈ items) : whereKernel c u v items f = some (if c f then u f else v f) := by
  apply storeAll_of_mem
  · rintro g - rfl
    rfl
  · exact .inl ⟨f, h, rfl⟩

theorem mem_of_whereKernel {c : ℕ → Bool} {u v : ℕ → α} {items : List ℕ} {f : ℕ} {w : α}
    (h : whereKernel c u v items f = some w) : f ∈ items := by
  by_contra hf
  have hnone : whereKernel c u v items f = none := by
    apply storeAll_of_ne
    rintro g hg rfl
    exact hf hg
  rw [hnone] at h
  exact absurd h (by simp)

theorem whereOp_inv (hshape1 : broadcastDims condition.dims x.dims = some shape1)
    (hdims : broadcastDims shape1 y.dims = some dims) {run : KernelRun α}
    (h : whereOp condition x y (.ok ()) order = .ok run) :
    ∃ items, (∀ f ∈ items, f < uintRange)
      ∧ run.output = whereKernel condition.data x.data y.data items
      ∧ run.reads
        = [items, items.filter (condition.data ·), items.filter (!condition.data ·)] := by
  unfold whereOp at h
  split_ifs at h
  rw [shape, shape, broadcastWith_natCast hshape1] at h
  simp only [bind, Except.bind] at h
  rw [shape, broadcastWith_natCast hdims] at h
  simp only at h
  split at h
  · exact absurd h (by simp)
  · split at h
    · exact absurd h (by simp)
    · obtain rfl := Except.ok.inj h
      refine ⟨_, ?_, rfl, rfl⟩
      intro f hf
      obtain ⟨id, -, rfl⟩ := List.mem_map.mp (order.mem_items.mp hf)
      exact Nat.mod_lt _ (by decide)

variable (order) in
theorem whereOp_ok (hc : condition.dtype = .Bool) (hdtype : x.dtype = y.dtype)
    (hfloat : IsFloating x.dtype) (hcc : condition.isContiguous) (hcx : x.isContiguous)
    (hcy : y.isContiguous) (hshape1 : broadcastDims condition.dims x.dims = some shape1)
    (hdims : broadcastDims shape1 y.dims = some dims) (hn : dims.prod ≤ uintRange) :
    ∃ run items, whereOp condition x y (.ok ()) order = .ok run
      ∧ (∀ f, f ∈ items ↔ f < dims.prod) ∧ run.shape = dims.map Nat.cast
      ∧ run.output = whereKernel condition.data x.data y.data items
      ∧ run.reads
        = [items, items.filter (condition.data ·), items.filter (!condition.data ·)] := by
  have hnumel : MNShape.numel (dims.map Nat.cast) = (dims.prod : ℕ) := by
    rw [MNShape.numel_map_natCast]
    exact toInt64_natCast (by unfold uintRange at hn; omega)
  obtain ⟨suffix, hsuffix⟩ := kernelSuffix_ok "where" hfloat
  have hgrid : toSizeT (dims.prod : ℕ) = dims.prod :=
    toSizeT_natCast (by unfold uintRange at hn; unfold sizeTRange; omega)
  have hcall : whereOp condition x y (.ok ()) order = .ok {
      kernelName := "where" ++ suffix
      shape := dims.map Nat.cast
      output := whereKernel condition.data x.data y.data
        (order.items ((List.range dims.prod).map (· % uintRange)))
      reads := [order.items ((List.range dims.prod).map (· % uintRange)),
        (order.items ((List.range dims.prod).map (· % uintRange))).filter (condition.data ·),
        (order.items ((List.range dims.prod).map (· % uintRange))).filter
          (!condition.data ·)] } := by
    rw [whereOp, if_neg (by simpa using hc), if_neg (by simpa using hdtype),
      if_neg (by simp [hcc, hcx, hcy]), shape, shape,
      broadcastWith_natCast hshape1]
    simp only [bind, Except.bind]
    rw [shape, broadcastWith_natCast hdims]
    simp only [hsuffix, emptyTensorCheck_ok hnumel hn, hnumel, hgrid]
  refine ⟨_, _, hcall, ?_, rfl, rfl, rfl⟩
  intro f
  simp only [order.mem_items, List.mem_map, List.mem_range]
  constructor
  · rintro ⟨id, hid, rfl⟩
    exact lt_of_le_of_lt (Nat.mod_le _ _) hid
  · exact fun hf => ⟨f, hf, Nat.mod_eq_of_lt (by omega)⟩

/-- What `where` needs: one element of the condition for each element of the result, and the operand
that the condition selects holds the right element at the position of the result. -/
def SelectsAligned (condition : MNTensor Bool) (x y : MNTensor α) (dims : List ℕ) : Prop :=
  condition.dims.prod = dims.prod
    ∧ ∀ i, InShape dims i →
        if condition.data (rowMajor dims i) then
          rowMajor dims i < x.dims.prod ∧ x.data (rowMajor dims i) = x.broadcastAt i
        else rowMajor dims i < y.dims.prod ∧ y.data (rowMajor dims i) = y.broadcastAt i

/-- **`where`.**  It broadcasts exactly when its operands are aligned with the result, whose
positions must be `uint` values. -/
theorem where_broadcasts_iff (hc : condition.dtype = .Bool) (hdtype : x.dtype = y.dtype)
    (hfloat : IsFloating x.dtype) (hcc : condition.isContiguous) (hcx : x.isContiguous)
    (hcy : y.isContiguous) (hshape1 : broadcastDims condition.dims x.dims = some shape1)
    (hdims : broadcastDims shape1 y.dims = some dims) :
    Broadcasts (whereOp condition x y (.ok ()) order) dims
        (fun i => if condition.broadcastAt i then x.broadcastAt i else y.broadcastAt i)
        [condition.dims.prod, x.dims.prod, y.dims.prod]
      ↔ dims.prod ≤ uintRange ∧ (dims.prod = 0 ∨ SelectsAligned condition x y dims) := by
  have hexpc := (expands_of_broadcastDims hshape1).1.trans (expands_of_broadcastDims hdims).1
  constructor
  · rintro ⟨run, hrun, -, hout, hreads⟩
    obtain ⟨items, hitems, houtput, hr⟩ := whereOp_inv hshape1 hdims hrun
    have hwork : ∀ i, InShape dims i → rowMajor dims i ∈ items := by
      intro i hi
      have hcell := hout i hi
      rw [houtput] at hcell
      exact mem_of_whereKernel hcell
    rw [hr] at hreads
    simp only [List.forall₂_cons, List.forall₂_nil_left_iff, and_true, List.mem_filter] at hreads
    obtain ⟨hreadsC, hreadsX, hreadsY⟩ := hreads
    by_cases hzero : dims.prod = 0
    · exact ⟨by unfold uintRange; omega, .inl hzero⟩
    · have hpos : 0 < dims.prod := Nat.pos_of_ne_zero hzero
      have hlastlt : dims.prod - 1 < dims.prod := by omega
      obtain ⟨last, hlast, hlastpos⟩ := exists_rowMajor hlastlt
      have hmem := hwork last hlast
      rw [hlastpos] at hmem
      have hrange := hitems _ hmem
      have hC := hreadsC _ hmem
      have hleC := prod_le_of_expands hexpc hpos
      have hprod : condition.dims.prod = dims.prod := by omega
      refine ⟨by omega, .inr ⟨hprod, ?_⟩⟩
      intro i hi
      have hcell := hout i hi
      rw [houtput, whereKernel_of_mem (hwork i hi), ← broadcastAt_eq condition hexpc hprod hi,
        Option.some_inj] at hcell
      rw [← broadcastAt_eq condition hexpc hprod hi]
      by_cases hsel : condition.broadcastAt i = true
      · have hsel' := hsel
        rw [broadcastAt_eq condition hexpc hprod hi] at hsel'
        simp only [if_pos hsel] at hcell
        rw [if_pos hsel]
        exact ⟨hreadsX _ ⟨hwork i hi, hsel'⟩, hcell⟩
      · have hsel' := hsel
        rw [broadcastAt_eq condition hexpc hprod hi] at hsel'
        simp only [if_neg hsel] at hcell
        rw [if_neg hsel]
        exact ⟨hreadsY _ ⟨hwork i hi, by simpa using hsel'⟩, hcell⟩
  · rintro ⟨hn, hsize⟩
    obtain ⟨run, items, hrun, hitems, hshape, houtput, hr⟩ :=
      whereOp_ok order hc hdtype hfloat hcc hcx hcy hshape1 hdims hn
    refine ⟨run, hrun, hshape, ?_, ?_⟩
    · intro i hi
      have hlt := rowMajor_lt hi
      obtain hzero | ⟨hprod, hsel⟩ := hsize
      · omega
      · have hval := hsel i hi
        simp only [houtput, whereKernel_of_mem ((hitems _).mpr hlt),
          broadcastAt_eq condition hexpc hprod hi]
        split_ifs at hval ⊢ with hcond
        · rw [hval.2]
        · rw [hval.2]
    · rw [hr]
      simp only [List.forall₂_cons, List.forall₂_nil_left_iff, and_true, List.mem_filter]
      obtain hzero | ⟨hprod, hsel⟩ := hsize
      · have hnone : ∀ f, f ∉ items := fun f hf => by
          have := (hitems f).mp hf
          omega
        exact ⟨fun f hf => absurd hf (hnone f), fun f hf => absurd hf.1 (hnone f),
          fun f hf => absurd hf.1 (hnone f)⟩
      · refine ⟨fun f hf => hprod ▸ (hitems f).mp hf, ?_, ?_⟩
        · rintro f ⟨hf, hcond⟩
          obtain ⟨i, hi, rfl⟩ := exists_rowMajor ((hitems f).mp hf)
          have hval := hsel i hi
          rw [if_pos hcond] at hval
          exact hval.1
        · rintro f ⟨hf, hcond⟩
          obtain ⟨i, hi, rfl⟩ := exists_rowMajor ((hitems f).mp hf)
          have hval := hsel i hi
          rw [if_neg (by simpa using hcond)] at hval
          exact hval.1

end Where

/-! ### All operations -/

section All

variable {α : Type}

/-- Contiguous operands of one floating data type whose shapes broadcast to `dims`. -/
structure BinaryOperands (a b : MNTensor α) (dims : List ℕ) : Prop where
  sameDtype : a.dtype = b.dtype
  floating : IsFloating a.dtype
  contiguousA : a.isContiguous
  contiguousB : b.isContiguous
  broadcast : broadcastDims a.dims b.dims = some dims

/-- A contiguous condition and contiguous operands of one floating data type whose shapes broadcast
to `dims`. -/
structure WhereOperands (condition : MNTensor Bool) (x y : MNTensor α) (dims : List ℕ) : Prop where
  boolean : condition.dtype = .Bool
  sameDtype : x.dtype = y.dtype
  floating : IsFloating x.dtype
  contiguousC : condition.isContiguous
  contiguousX : x.isContiguous
  contiguousY : y.isContiguous
  broadcast : ∃ shape1, broadcastDims condition.dims x.dims = some shape1
    ∧ broadcastDims shape1 y.dims = some dims

theorem call_broadcasts_iff (E : ElementwiseOps α) (order : LaunchOrder) (op : BinaryOp)
    {a b : MNTensor α} {dims : List ℕ} (h : BinaryOperands a b dims) :
    Broadcasts (op.call E a b (.ok ()) order) dims
        (fun i => op.op E a.dtype (a.broadcastAt i) (b.broadcastAt i)) [a.dims.prod, b.dims.prod]
      ↔ dims.prod ≤ uintRange - 4
          ∧ (dims.prod = 0 ∨ (a.dims.prod = dims.prod ∧ b.dims.prod = dims.prod)) := by
  have hcall : ∀ name op', Broadcasts (dispatchBinaryOp name op' a b (.ok ()) order) dims
      (fun i => op' a.dtype (a.broadcastAt i) (b.broadcastAt i)) [a.dims.prod, b.dims.prod] ↔ _ :=
    fun name op' => binary_broadcasts_iff name op' order h.sameDtype h.floating h.contiguousA
      h.contiguousB h.broadcast
  cases op with
  | add => exact hcall "add" E.add
  | sub => exact hcall "sub" E.sub
  | mul => exact hcall "mul" E.mul
  | div => exact hcall "div" E.div

/-- A scalar broadcasts to the tensor's shape, in either order of the operands. -/
theorem broadcastDims_scalar {ds dims : List ℕ} (h : broadcastDims ds [1] = some dims) :
    broadcastDims [1] ds = some dims ∧ dims.prod = ds.prod := by
  unfold broadcastDims at h ⊢
  cases hds : ds.reverse with
  | nil =>
    have hnil : ds = [] := by simpa using hds
    subst hnil
    obtain rfl : [1] = dims := Option.some.inj h
    exact ⟨rfl, rfl⟩
  | cons d rest =>
    have hprod : (d :: rest).reverse.prod = ds.prod := by rw [← hds, List.reverse_reverse]
    rw [hds] at h
    have hdims : dims = (d :: rest).reverse := by
      by_cases hd : d = 1 <;> cases rest <;> simpa [common, commonDim, hd, eq_comm] using h
    rw [hdims, hprod]
    refine ⟨?_, rfl⟩
    by_cases hd : d = 1 <;> simp [common, commonDim, hd, eq_comm]

/-- **Element-wise operations.**  When a binary operation and `where` broadcast their operands; the
operations with a scalar do only for at most one element. -/
theorem elementwise_broadcasts (E : ElementwiseOps α) (order : LaunchOrder) :
    (∀ (op : BinaryOp) (a b : MNTensor α) (dims : List ℕ), BinaryOperands a b dims →
      (Broadcasts (op.call E a b (.ok ()) order) dims
          (fun i => op.op E a.dtype (a.broadcastAt i) (b.broadcastAt i))
          [a.dims.prod, b.dims.prod]
        ↔ dims.prod ≤ uintRange - 4
            ∧ (dims.prod = 0 ∨ (a.dims.prod = dims.prod ∧ b.dims.prod = dims.prod))))
    ∧ (∀ (condition : MNTensor Bool) (x y : MNTensor α) (dims : List ℕ),
        WhereOperands condition x y dims →
        (Broadcasts (whereOp condition x y (.ok ()) order) dims
            (fun i => if condition.broadcastAt i then x.broadcastAt i else y.broadcastAt i)
            [condition.dims.prod, x.dims.prod, y.dims.prod]
          ↔ dims.prod ≤ uintRange ∧ (dims.prod = 0 ∨ SelectsAligned condition x y dims)))
    ∧ (∀ (op : BinaryOp) (t : MNTensor α) (scalar : α) (dims : List ℕ), IsFloating t.dtype →
        t.isContiguous → broadcastDims t.dims [1] = some dims →
          (Broadcasts (op.call E t (makeScalarTensor scalar t.dtype) (.ok ()) order) dims
              (fun i => op.op E t.dtype (t.broadcastAt i) scalar) [t.dims.prod, 1]
            ↔ t.dims.prod ≤ 1)
          ∧ (Broadcasts (op.call E (makeScalarTensor scalar t.dtype) t (.ok ()) order) dims
              (fun i => op.op E t.dtype scalar (t.broadcastAt i)) [1, t.dims.prod]
            ↔ t.dims.prod ≤ 1)) := by
  refine ⟨fun op a b dims h => call_broadcasts_iff E order op h, ?_, ?_⟩
  · intro condition x y dims h
    obtain ⟨shape1, hshape1, hdims⟩ := h.broadcast
    exact where_broadcasts_iff h.boolean h.sameDtype h.floating h.contiguousC h.contiguousX
      h.contiguousY hshape1 hdims
  · intro op t scalar dims hfloat hct hts
    obtain ⟨hst, hprod⟩ := broadcastDims_scalar hts
    have hsc : (makeScalarTensor scalar t.dtype).isContiguous = true := rfl
    have hright := call_broadcasts_iff E order op (a := t)
      (b := makeScalarTensor scalar t.dtype) ⟨rfl, hfloat, hct, hsc, hts⟩
    have hleft := call_broadcasts_iff E order op (a := makeScalarTensor scalar t.dtype)
      (b := t) ⟨rfl, hfloat, hsc, hct, hst⟩
    have hone : (makeScalarTensor scalar t.dtype).dims.prod = 1 := rfl
    rw [hone, hprod] at hright hleft
    refine ⟨hright.trans ?_, hleft.trans ?_⟩
    · unfold uintRange
      omega
    · unfold uintRange
      omega

end All

/-! ### A scalar and two elements -/

/-- Integers in place of floating-point numbers. -/
def intOps : ElementwiseOps ℤ where
  add := fun _ => (· + ·)
  sub := fun _ => (· - ·)
  mul := fun _ => (· * ·)
  div := fun _ => (· / ·)

/-- Two elements. -/
def pairTensor : MNTensor ℤ where
  buffer := fun i => i
  dims := [2]
  strides := [1]
  dtype := .Float32
  dims_lt := by decide
  numel_lt := by decide

/-- `tensor_add_scalar` on two elements reads past the end of the scalar. -/
theorem add_scalar_reads_past_end :
    ¬ Broadcasts (add intOps pairTensor (makeScalarTensor 10 .Float32) (.ok ()) .inOrder) [2]
      (fun i => pairTensor.broadcastAt i + 10) [2, 1] := by
  rintro ⟨run, hrun, -, -, hreads⟩
  have hlist : run.reads = [[0, 1], [0, 1]] := by
    obtain rfl := Except.ok.inj hrun
    rfl
  rw [hlist] at hreads
  revert hreads
  decide

/-- Two tensors of two elements are added element by element. -/
theorem elementwise_broadcasts_pair :
    Broadcasts (add intOps pairTensor pairTensor (.ok ()) .inOrder) [2]
      (fun i => pairTensor.broadcastAt i + pairTensor.broadcastAt i) [2, 2] := by
  have h := (elementwise_broadcasts intOps .inOrder).1 .add pairTensor pairTensor [2]
    ⟨rfl, by decide, by decide, by decide, by decide⟩
  exact h.mpr (by decide)

end MetalNative
