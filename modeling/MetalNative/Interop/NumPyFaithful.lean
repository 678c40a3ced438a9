import MetalNative.Interop.NumPyImport
import MetalNative.Core.ViewSafety

namespace MetalNative

open List Strided NumPy

/-!
# When a NumPy array is imported faithfully

`tensor_from_numpy` copies as many bytes as the tensor needs from the first element on, whatever the
strides of the array are.

* `tensorFromNumpy_spec` — what the copy makes of any array.
* `cContiguous_iff` — the flag `C_CONTIGUOUS` says that the elements follow each other in row-major
  order.
* `Faithful` — the import of an array with this layout is right for all contents and conversions;
  `Imports` is the condition for it.
-/

open Broadcast (Within)
open Strided (position unravel rowMajorStrides linear)

/-! ### Contiguous arrays -/

/-- Without strides there is nothing to add up. -/
theorem byteOffset_replicate (strides : List ℤ) (n : ℕ) :
    byteOffset strides (replicate n 0) = 0 := by
  induction strides generalizing n with
  | nil => simp [byteOffset]
  | cons s strides ih =>
    cases n with
    | zero => simp [byteOffset]
    | succ n => simp [byteOffset, replicate_succ, ih]

theorem within_replicate {ds : List ℕ} (h : 0 < ds.prod) :
    Within ds (replicate ds.length 0) := by
  rw [← unravel_zero]
  exact within_unravel h

theorem position_replicate (ds : List ℕ) : position ds (replicate ds.length 0) = 0 := by
  induction ds with
  | nil => rfl
  | cons d ds ih => simp [position, replicate_succ, ih]

/-- The flag, for an array with elements: they follow each other in row-major order. -/
theorem cContiguous_iff {e : ℕ} {shape : List ℕ} {strides : List ℤ} (hpos : 0 < shape.prod)
    (hlen : strides.length = shape.length) :
    CContiguous e shape strides ↔
      ∀ idx, Within shape idx → byteOffset strides idx = (e * position shape idx : ℕ) := by
  induction shape generalizing strides with
  | nil =>
    obtain rfl := length_eq_zero_iff.mp hlen
    simp [CContiguous, byteOffset, position]
  | cons d shape ih =>
    cases strides with
    | nil => simp at hlen
    | cons s strides =>
      rw [prod_cons] at hpos
      have hd : 0 < d := Nat.pos_of_mul_pos_right hpos
      have htail : 0 < shape.prod := Nat.pos_of_mul_pos_left hpos
      rw [CContiguous, ih htail (by simpa using hlen)]
      constructor
      · rintro ⟨hs, hrest⟩ idx hidx
        cases idx with
        | nil => exact hidx.elim
        | cons i idx =>
          have hi : i < d := hidx.1
          rw [byteOffset, position, hrest idx hidx.2]
          by_cases hone : d = 1
          · have hzero : i = 0 := by omega
            simp [hzero]
          · rw [hs hone]
            push_cast
            ring
      · intro h
        constructor
        · intro hone
          -- the second element along this dimension
          have hunit := h (1 :: replicate shape.length 0)
            ⟨by omega, within_replicate htail⟩
          rw [byteOffset, position, byteOffset_replicate, position_replicate] at hunit
          simpa using hunit
        · intro idx hidx
          have hzero := h (0 :: idx) ⟨hd, hidx⟩
          rw [byteOffset, position] at hzero
          simpa using hzero

/-- A copy in C order is contiguous. -/
theorem byteOffset_cOrder {d : NpDtype} {shape idx : List ℕ} :
    byteOffset (cOrderLayout d shape).strides idx =
      (d.itemsize * position shape idx : ℕ) := by
  unfold cOrderLayout
  induction shape generalizing idx with
  | nil => simp [rowMajorStrides, byteOffset, position]
  | cons c shape ih =>
    cases idx with
    | nil => simp [byteOffset, position]
    | cons i idx =>
      simp only [rowMajorStrides, map_cons, byteOffset, position] at ih ⊢
      rw [ih]
      push_cast
      ring

/-! ### The copy -/

namespace BufferDevice

/-- The device has a buffer of this length. -/
def Grants (device : BufferDevice) (size : ℕ) : Prop :=
  size ≤ device.maxBufferLength ∧ (device.newBuffer size).isSome = true

end BufferDevice

variable {device : BufferDevice}

theorem newMNBuffer_ok {size : ℕ} (hsize : 0 < size)
    (h : device.Grants size) :
    ∃ buffer, newMNBuffer device size = .ok buffer ∧ buffer.length = size := by
  obtain ⟨bytes, hbytes⟩ := Option.isSome_iff_exists.mp h.2
  refine ⟨⟨size, bytes⟩, ?_, rfl⟩
  unfold newMNBuffer newBufferWithLength
  rw [if_neg (Nat.ne_of_gt hsize), if_neg (Nat.not_lt.mpr h.1), hbytes,
    if_neg (Nat.ne_of_gt hsize)]
  rfl

theorem dtypeSize_pos (d : MNDType) : 0 < dtypeSize d := by cases d <;> decide

/-- What `tensor_from_numpy` makes of an array: the bytes from the first element on, in row-major
    order. -/
theorem tensorFromNumpy_spec (device : BufferDevice) (a : NdArray) (d : MNDType)
    (hpos : 0 < a.shape.prod) (hsmall : a.shape.prod * dtypeSize d < 2 ^ 63)
    (hdevice : device.Grants (a.shape.prod * dtypeSize d)) :
    ∃ t, tensorFromNumpy device a d = .ok t ∧ t.shape = a.shape.map Nat.cast ∧
      t.numel = (a.shape.prod : ℕ) ∧ t.nbytes = a.shape.prod * dtypeSize d ∧
      ∀ idx, Within a.shape idx → t.element idx = (range (dtypeSize d)).map fun b : ℕ =>
        a.memory (a.data + ((dtypeSize d * position a.shape idx : ℕ) + b)) := by
  have hbytes : importBytes a.toNdLayout d = a.shape.prod * dtypeSize d := by
    unfold importBytes sizeTRange
    apply Nat.mod_eq_of_lt
    omega
  obtain ⟨buf, hbuf, hlen⟩ := newMNBuffer_ok (Nat.mul_pos hpos (dtypeSize_pos d)) hdevice
  let t : ByteTensor :=
    { buffer := buf.store 0 (a.shape.prod * dtypeSize d) fun i => a.memory (a.data + i)
      mode := .Shared
      shape := a.shape.map Nat.cast
      strides := MNShape.contiguousStrides (a.shape.map Nat.cast)
      dtype := d }
  have hbounds : t.shape.bounds = a.shape := MNShape.bounds_map_natCast a.shape
  have hplaced : t.Placed := by
    apply ByteTensor.placed_new
    · intro c hc
      obtain ⟨n, -, rfl⟩ := mem_map.mp hc
      exact Int.natCast_nonneg n
    · rfl
    · rfl
    · rw [hbounds]
      exact hsmall
    · rw [hbounds]
      exact Nat.le_of_eq hlen.symm
  refine ⟨t, ?_, rfl, ?_, ?_, ?_⟩
  · simp only [tensorFromNumpy, hbytes, hbuf]
    rfl
  · rw [hplaced.numel_eq, hbounds]
  · rw [hplaced.nbytes_eq, hbounds]
    rfl
  · intro idx hidx
    have hidx' : t.shape.InRange idx := by
      unfold MNShape.InRange
      rwa [hbounds]
    have hprod : a.shape.prod < 2 ^ 63 :=
      Nat.lt_of_le_of_lt (Nat.le_mul_of_pos_right _ (dtypeSize_pos d)) hsmall
    have haddress : t.address idx = dtypeSize d * position a.shape idx := by
      rw [hplaced.address_eq hidx']
      change 0 + dtypeSize d * linear _ idx = _
      rw [Nat.zero_add]
      exact congrArg _ (MNShape.linear_contiguousStrides hprod hidx)
    have hrow : (position a.shape idx + 1) * dtypeSize d ≤ a.shape.prod * dtypeSize d :=
      Nat.mul_le_mul_right _ (position_lt hidx)
    rw [Nat.add_mul, Nat.one_mul, Nat.mul_comm (position a.shape idx)] at hrow
    apply map_congr_left
    intro b hb
    have hb' : b < dtypeSize d := mem_range.mp hb
    have hin : 0 ≤ dtypeSize d * position a.shape idx + b ∧
        dtypeSize d * position a.shape idx + b < 0 + a.shape.prod * dtypeSize d := by omega
    change (buf.store 0 (a.shape.prod * dtypeSize d) fun i => a.memory (a.data + i)).bytes
      (t.address idx + b) = _
    rw [haddress]
    simp only [MTLBuffer.store, if_pos hin, Nat.sub_zero, Nat.cast_add]

/-! ### What the constructor passes on -/

section

variable {np : NumPy} {convert : Conversion} {a : NdArray} {shape : Option (List ℤ)}
  {dtype : Option MNDType}

theorem length_element (a : NdArray) (idx : List ℕ) :
    (a.element idx).length = a.dtype.itemsize := by
  simp [NdArray.element]

/-- The layout after the conversion. -/
def convertedLayout (np : NumPy) (l : NdLayout) (dtype : Option MNDType) : NdLayout :=
  if converts l.dtype dtype then np.astypeLayout l (.native (targetDtype l.dtype dtype)) else l

theorem toNdLayout_converted (np : NumPy) (convert : Conversion) (a : NdArray)
    (dtype : Option MNDType) :
    (convertedArray np convert a dtype).toNdLayout = convertedLayout np a.toNdLayout dtype := by
  unfold convertedArray convertedLayout
  by_cases h : converts a.dtype dtype = true
  · rw [if_pos h, if_pos h]
    rfl
  · rw [if_neg h, if_neg h]

theorem shape_converted (np : NumPy) (l : NdLayout) (dtype : Option MNDType) :
    (convertedLayout np l dtype).shape = l.shape := by
  unfold convertedLayout
  by_cases h : converts l.dtype dtype = true
  · rw [if_pos h]
    rfl
  · rw [if_neg h]

/-- Where nothing is converted, the array has the data type of the tensor, unless it is imported as
    `bfloat16`. -/
theorem dtype_of_not_converts {source : NpDtype} (h : converts source dtype = false)
    (hbf : dtype = some .BFloat16 → source = .native .BFloat16) :
    source = .native (targetDtype source dtype) := by
  cases dtype with
  | none =>
    cases source with
    | native d => cases d <;> simp_all [converts, numpyToDtype, targetDtype]
    | other num itemsize => simp [converts, numpyToDtype] at h
  | some d =>
    have hd : d = .BFloat16 := by simpa [converts] using h
    rw [hbf (by rw [hd]), hd]
    rfl

/-- The array is passed on with the data type of the tensor. -/
theorem dtype_converted (hbf : dtype = some .BFloat16 → a.dtype = .native .BFloat16) :
    (convertedArray np convert a dtype).dtype = .native (targetDtype a.dtype dtype) := by
  unfold convertedArray
  by_cases h : converts a.dtype dtype = true
  · rw [if_pos h]
    rfl
  · rw [if_neg h]
    exact dtype_of_not_converts (by simpa using h) hbf

/-- The conversion converts every element. -/
theorem element_converted (hnp : np.Documented) (hconv : convert.Documented)
    (hbf : dtype = some .BFloat16 → a.dtype = .native .BFloat16) {idx : List ℕ}
    (hidx : Within a.shape idx) :
    (convertedArray np convert a dtype).element idx
      = convert a.dtype (.native (targetDtype a.dtype dtype)) (a.element idx) := by
  unfold convertedArray
  by_cases h : converts a.dtype dtype = true
  · rw [if_pos h]
    apply hnp.astype_fill _ _ _ _ _ hidx
    intro i
    exact hconv.length _ _ _
  · rw [if_neg h]
    have hsame := dtype_of_not_converts (by simpa using h) hbf
    conv_rhs => rw [← hsame]
    exact (hconv.same _ _ (length_element a idx)).symm

/-- `reshape` is called and has to copy. -/
def MustCopy (np : NumPy) (l : NdLayout) (shape : Option (List ℤ)) : Prop :=
  ∃ request newShape, shape = some request ∧ l.shape.map Nat.cast ≠ request ∧
    np.reshapeShape l.shape.prod request = some newShape ∧ np.reshapeView l newShape = none

/-- What `reshape` leaves: the elements in C order, in a new copy or where they were. -/
theorem reshaped_spec (hnp : np.Documented) {b c : NdArray}
    (h : reshapedArray np b shape = some c) :
    c.dtype = b.dtype ∧ c.shape.prod = b.shape.prod ∧
      (∀ idx, Within c.shape idx →
        c.element idx = b.element (unravel b.shape (position c.shape idx))) ∧
      ((c.data = b.data ∧ c.memory = b.memory ∧ ∀ idx, Within c.shape idx →
          c.address idx = b.address (unravel b.shape (position c.shape idx))) ∨
        (MustCopy np b.toNdLayout shape ∧
          c.toNdLayout = cOrderLayout b.dtype c.shape)) := by
  have hself : ∀ idx, Within b.shape idx → unravel b.shape (position b.shape idx) = idx :=
    fun idx hidx => unravel_position hidx
  have hsame : ∀ c, some b = some c → c.dtype = b.dtype ∧ c.shape.prod = b.shape.prod ∧
      (∀ idx, Within c.shape idx →
        c.element idx = b.element (unravel b.shape (position c.shape idx))) ∧
      ((c.data = b.data ∧ c.memory = b.memory ∧ ∀ idx, Within c.shape idx →
          c.address idx = b.address (unravel b.shape (position c.shape idx))) ∨
        (MustCopy np b.toNdLayout shape ∧
          c.toNdLayout = cOrderLayout b.dtype c.shape)) := by
    intro c hc
    obtain rfl := Option.some.inj hc
    refine ⟨rfl, rfl, ?_, .inl ⟨rfl, rfl, ?_⟩⟩
    · intro idx hidx
      rw [hself idx hidx]
    · intro idx hidx
      rw [hself idx hidx]
  unfold reshapedArray at h
  cases shape with
  | none => exact hsame c h
  | some request =>
    by_cases hne : b.shape.map Nat.cast ≠ request
    · simp only [if_pos hne] at h
      unfold reshape at h
      obtain ⟨newShape, hshape, hview⟩ := Option.map_eq_some_iff.mp h
      have hprod := hnp.reshapeShape_prod _ _ _ hshape
      split at hview
      · next strides hstrides =>
        subst hview
        obtain ⟨-, haddress⟩ := hnp.reshapeView_address _ _ _ hstrides
        have hplace : ∀ idx, Within newShape idx → b.data + byteOffset strides idx
            = b.data + byteOffset b.strides (unravel b.shape (position newShape idx)) :=
          fun idx hidx => congrArg _ (haddress idx hidx)
        refine ⟨rfl, hprod, ?_, .inl ⟨rfl, rfl, hplace⟩⟩
        intro idx hidx
        unfold NdArray.element NdLayout.address
        rw [hplace idx hidx]
      · next hnone =>
        subst hview
        refine ⟨rfl, hprod, ?_, .inr ⟨⟨request, newShape, rfl, hne, hshape, hnone⟩, rfl⟩⟩
        intro idx hidx
        apply hnp.cOrder_fill _ _ _ _ _ hidx
        intro i
        exact length_element b _
    · simp only [if_neg hne] at h
      exact hsame c h

/-- What is passed on is contiguous when the array after the conversion is, or when `reshape` has to
    copy it. -/
theorem cContiguous_reshaped (hnp : np.Documented) {b c : NdArray}
    (h : reshapedArray np b shape = some c) (hpos : 0 < b.shape.prod)
    (hlen : b.strides.length = b.shape.length)
    (hc : CContiguous b.dtype.itemsize b.shape b.strides ∨
      c.toNdLayout = cOrderLayout b.dtype c.shape) :
    ∀ idx, Within c.shape idx →
      c.address idx = c.data + (b.dtype.itemsize * position c.shape idx : ℕ) := by
  obtain ⟨-, hprod, -, hplace⟩ := reshaped_spec hnp h
  have hcopy : c.toNdLayout = cOrderLayout b.dtype c.shape → ∀ idx, Within c.shape idx →
      c.address idx = c.data + (b.dtype.itemsize * position c.shape idx : ℕ) := by
    intro hlayout idx _
    have hstrides : c.strides = (cOrderLayout b.dtype c.shape).strides := by rw [← hlayout]
    rw [NdLayout.address, hstrides, byteOffset_cOrder]
  rcases hc with hc | hlayout
  · rcases hplace with ⟨hdata, -, haddress⟩ | ⟨-, hlayout⟩
    · intro idx hidx
      have hp : position c.shape idx < b.shape.prod := by
        rw [← hprod]
        exact position_lt hidx
      rw [haddress idx hidx, NdLayout.address,
        (cContiguous_iff hpos hlen).mp hc _ (within_unravel hp),
        position_unravel hp, hdata]
    · exact hcopy hlayout
  · exact hcopy hlayout

end

/-! ### Faithful imports -/

/-- The bytes that the copy reads are bytes of elements. -/
def ReadsOwn (l : NdLayout) (d : MNDType) : Prop :=
  ∀ i < importBytes l d, ∃ idx, Within l.shape idx ∧ ∃ b < l.dtype.itemsize,
    l.data + (i : ℕ) = l.address idx + (b : ℕ)

/-- The import of an array with this layout is right, whatever it holds and however elements are
    converted: the tensor has the element of the array, converted, at each multi-index (in C order
    where the array is reshaped), the copy reads bytes of the array only, and the properties of the
    Python tensor are those of the native one. -/
def Faithful (np : NumPy) (l : NdLayout) (shape : Option (List ℤ))
    (dtype : Option MNDType) : Prop :=
  ∀ (memory : ℤ → UInt8) (convert : Conversion) (device : BufferDevice), convert.Documented →
    device.Grants (l.shape.prod * dtypeSize (targetDtype l.dtype dtype)) →
    ∃ t npData, tensorInit np convert device ⟨l, memory⟩ shape dtype = .ok t ∧
      reshapedArray np (convertedArray np convert ⟨l, memory⟩ dtype) shape = some npData ∧
      t.handle.shape = npData.shape.map Nat.cast ∧
      (∀ idx, Within npData.shape idx →
        t.handle.element idx = convert l.dtype (.native (targetDtype l.dtype dtype))
          (NdArray.element ⟨l, memory⟩ (unravel l.shape (position npData.shape idx)))) ∧
      ReadsOwn npData.toNdLayout (targetDtype l.dtype dtype) ∧
      t.shape = t.handle.shape ∧ t.size = t.handle.numel ∧ t.nbytes = t.handle.nbytes

/-- The condition under which an array is imported faithfully. -/
structure Imports (np : NumPy) (l : NdLayout) (shape : Option (List ℤ)) (dtype : Option MNDType) :
    Prop where
  elements : 0 < l.shape.prod
  bfloat16 : dtype = some .BFloat16 → l.dtype = .native .BFloat16
  contiguous : CContiguous (convertedLayout np l dtype).dtype.itemsize
      (convertedLayout np l dtype).shape (convertedLayout np l dtype).strides ∨
    MustCopy np (convertedLayout np l dtype) shape
  request : ∀ request, shape = some request → ∀ d ∈ request, 0 ≤ d

/-- The request fits the array. -/
def RequestFits (np : NumPy) (l : NdLayout) (shape : Option (List ℤ)) : Prop :=
  ∀ request, shape = some request → l.shape.map Nat.cast ≠ request →
    (np.reshapeShape l.shape.prod request).isSome = true

variable {np : NumPy}

/-- A request that fits is not refused. -/
theorem reshapedArray_isSome {b : NdArray} {shape : Option (List ℤ)}
    (hfits : RequestFits np b.toNdLayout shape) : ∃ c, reshapedArray np b shape = some c := by
  unfold reshapedArray
  cases shape with
  | none => exact ⟨b, rfl⟩
  | some request =>
    by_cases hne : b.shape.map Nat.cast ≠ request
    · obtain ⟨newShape, hshape⟩ := Option.isSome_iff_exists.mp (hfits request rfl hne)
      simp only [if_pos hne, reshape, hshape]
      exact ⟨_, rfl⟩
    · simp only [if_neg hne]
      exact ⟨b, rfl⟩

/-- A copy that `reshape` has to make. -/
theorem layout_of_mustCopy {b c : NdArray} {shape : Option (List ℤ)}
    (hcopy : MustCopy np b.toNdLayout shape) (h : reshapedArray np b shape = some c) :
    c.toNdLayout = cOrderLayout b.dtype c.shape := by
  obtain ⟨request, newShape, rfl, hne, hshape, hview⟩ := hcopy
  simp only [reshapedArray, if_pos hne, reshape, hshape, Option.map_some, hview] at h
  obtain rfl := Option.some.inj h
  rfl

/-- The shape that is passed on is the one that was asked for. -/
theorem shape_of_request (hnp : np.Documented) {b c : NdArray} {request : List ℤ}
    (hnonneg : ∀ d ∈ request, 0 ≤ d) (h : reshapedArray np b (some request) = some c) :
    c.shape.map Nat.cast = request := by
  unfold reshapedArray at h
  by_cases hne : b.shape.map Nat.cast ≠ request
  · simp only [if_pos hne, reshape] at h
    obtain ⟨newShape, hshape, hview⟩ := Option.map_eq_some_iff.mp h
    have hrequest := hnp.reshapeShape_request _ _ _ hshape hnonneg
    split at hview
    · subst hview
      exact hrequest
    · subst hview
      exact hrequest
  · simp only [if_neg hne] at h
    obtain rfl := Option.some.inj h
    exact not_not.mp hne

/-- The array after the conversion has a stride for each dimension. -/
theorem rank_converted (hnp : np.Documented) {l : NdLayout}
    (hrank : l.strides.length = l.shape.length) (dtype : Option MNDType) :
    (convertedLayout np l dtype).strides.length = (convertedLayout np l dtype).shape.length := by
  unfold convertedLayout
  by_cases h : converts l.dtype dtype = true
  · rw [if_pos h]
    exact hnp.keepOrder_length _ _ hrank
  · rw [if_neg h]
    exact hrank

/-! ### The condition is enough -/

theorem readsOwn_of_contiguous {l : NdLayout} {d : MNDType} (hdtype : l.dtype = .native d)
    (hc : ∀ idx, Within l.shape idx →
      l.address idx = l.data + (dtypeSize d * position l.shape idx : ℕ)) : ReadsOwn l d := by
  intro i hi
  have hi' : i < l.shape.prod * dtypeSize d := Nat.lt_of_lt_of_le hi (Nat.mod_le _ _)
  have hpos := dtypeSize_pos d
  have hp : i / dtypeSize d < l.shape.prod := Nat.div_lt_of_lt_mul (by rwa [Nat.mul_comm])
  refine ⟨unravel l.shape (i / dtypeSize d), within_unravel hp, i % dtypeSize d, ?_, ?_⟩
  · rw [hdtype]
    exact Nat.mod_lt _ hpos
  · rw [hc _ (within_unravel hp), position_unravel hp]
    have hdiv := Nat.div_add_mod i (dtypeSize d)
    omega

variable {np : NumPy} {l : NdLayout} {shape : Option (List ℤ)} {dtype : Option MNDType}

variable {convert : Conversion}

/-- The constructor, from its two halves. -/
theorem tensorInit_ok {a c : NdArray}
    {t : ByteTensor} (hc : reshapedArray np (convertedArray np convert a dtype) shape = some c)
    (ht : tensorFromNumpy device c (targetDtype a.dtype dtype) = .ok t) :
    tensorInit np convert device a shape dtype = .ok ⟨t, shape, targetDtype a.dtype dtype⟩ := by
  simp only [tensorInit, hc, ht]

/-- An array that meets the condition is imported faithfully. -/
theorem faithful_of_imports (hnp : np.Documented) (hrank : l.strides.length = l.shape.length)
    (hfits : RequestFits np l shape)
    (hsmall : l.shape.prod * dtypeSize (targetDtype l.dtype dtype) < 2 ^ 63)
    (h : Imports np l shape dtype) : Faithful np l shape dtype := by
  intro memory convert device hconv hdevice
  let a : NdArray := ⟨l, memory⟩
  let d := targetDtype l.dtype dtype
  let b := convertedArray np convert a dtype
  have hlayout : b.toNdLayout = convertedLayout np l dtype := toNdLayout_converted ..
  have hbshape : b.shape = l.shape := by
    rw [hlayout]
    exact shape_converted np l dtype
  have hbdtype : b.dtype = .native d := dtype_converted (a := a) h.bfloat16
  have hbfits : RequestFits np b.toNdLayout shape := by
    unfold RequestFits
    rw [hbshape]
    exact hfits
  obtain ⟨c, hc⟩ := reshapedArray_isSome hbfits
  obtain ⟨hcdtype, hcprod, hcelement, -⟩ := reshaped_spec hnp hc
  rw [hbshape] at hcprod
  -- what is passed on follows in memory in row-major order
  have hcontiguous : ∀ idx, Within c.shape idx →
      c.address idx = c.data + (dtypeSize d * position c.shape idx : ℕ) := by
    have hsize : b.dtype.itemsize = dtypeSize d := by rw [hbdtype]; rfl
    rw [← hsize]
    apply cContiguous_reshaped hnp hc
    · rw [hbshape]
      exact h.elements
    · rw [hlayout]
      exact rank_converted hnp hrank dtype
    · have hcond := h.contiguous
      rw [← hlayout] at hcond
      exact hcond.imp id fun hcopy => layout_of_mustCopy hcopy hc
  have hcpos : 0 < c.shape.prod := by
    rw [hcprod]
    exact h.elements
  obtain ⟨t, ht, htshape, htnumel, htbytes, htelement⟩ :=
    tensorFromNumpy_spec device c d hcpos (by rwa [hcprod])
      (by rwa [hcprod])
  have hshape : (⟨t, shape, d⟩ : PyTensor).shape = t.shape := by
    unfold PyTensor.shape
    cases shape with
    | none => rfl
    | some request =>
      rw [htshape]
      exact (shape_of_request hnp (h.request request rfl) hc).symm
  have hprod : (t.shape.prod : ℤ) = (c.shape.prod : ℕ) := by
    rw [htshape]
    exact (Nat.cast_list_prod _).symm
  refine ⟨⟨t, shape, d⟩, c, tensorInit_ok hc ht, hc, htshape, ?_, ?_, hshape, ?_, ?_⟩
  · intro idx hidx
    have hp : position c.shape idx < l.shape.prod := by
      rw [← hcprod]
      exact position_lt hidx
    have hconverted : b.element (unravel b.shape (position c.shape idx)) = _ :=
      element_converted (a := a) hnp hconv h.bfloat16 (by
        rw [hbshape]
        exact within_unravel hp)
    rw [hbshape] at hconverted hcelement
    rw [htelement idx hidx, ← hconverted, ← hcelement idx hidx, NdArray.element, hcdtype, hbdtype,
      hcontiguous idx hidx]
    apply map_congr_left
    intro i _
    congr 1
    ring
  · apply readsOwn_of_contiguous (hcdtype.trans hbdtype)
    exact hcontiguous
  · rw [PyTensor.size, hshape, hprod]
    exact htnumel.symm
  · rw [PyTensor.nbytes, PyTensor.size, hshape, hprod, htbytes, Nat.cast_mul]

/-! ### The condition is needed -/

theorem NpDtype.itemsize_pos (d : NpDtype) : 0 < d.itemsize := by
  cases d with
  | native d => exact dtypeSize_pos d
  | other num itemsize => exact itemsize.pos

/-- A conversion that fills an element with one byte. -/
def fillConversion (f : List UInt8 → UInt8) : Conversion := fun s d bytes =>
  if s = d ∧ bytes.length = d.itemsize then bytes else List.replicate d.itemsize (f bytes)

theorem fillConversion_documented (f : List UInt8 → UInt8) : (fillConversion f).Documented := by
  refine ⟨?_, ?_⟩
  · intro s d bytes
    unfold fillConversion
    by_cases h : s = d ∧ bytes.length = d.itemsize
    · rw [if_pos h]
      exact h.2
    · rw [if_neg h, length_replicate]
  · intro d bytes h
    unfold fillConversion
    rw [if_pos ⟨rfl, h⟩]

/-- The first byte of a converted element. -/
theorem headD_fillConversion {f : List UInt8 → UInt8} {s d : NpDtype} {bytes : List UInt8}
    (h : s = d → f bytes = bytes.headD 0) : (fillConversion f s d bytes).headD 0 = f bytes := by
  unfold fillConversion
  by_cases hsame : s = d ∧ bytes.length = d.itemsize
  · rw [if_pos hsame, h hsame.1]
  · rw [if_neg hsame]
    obtain ⟨n, hn⟩ := Nat.exists_eq_succ_of_ne_zero (Nat.ne_of_gt d.itemsize_pos)
    rw [hn, replicate_succ, headD_cons]

theorem headD_map_range {n : ℕ} (h : 0 < n) (f : ℕ → UInt8) :
    ((range n).map f).headD 0 = f 0 := by
  obtain ⟨m, rfl⟩ := Nat.exists_eq_succ_of_ne_zero (Nat.ne_of_gt h)
  rw [range_succ_eq_map, map_cons, headD_cons]

/-- The first byte of an element. -/
theorem headD_element (a : NdArray) (idx : List ℕ) :
    (a.element idx).headD 0 = a.memory (a.address idx) := by
  rw [NdArray.element, headD_map_range a.dtype.itemsize_pos, Nat.cast_zero, add_zero]

/-- The two halves of the constructor. -/
theorem eq_ok_of_tensorInit {a c : NdArray}
    {t : PyTensor} (hc : reshapedArray np (convertedArray np convert a dtype) shape = some c)
    (h : tensorInit np convert device a shape dtype = .ok t) :
    tensorFromNumpy device c (targetDtype a.dtype dtype) = .ok t.handle ∧ t.shape_ = shape := by
  simp only [tensorInit, hc] at h
  cases ht : tensorFromNumpy device c (targetDtype a.dtype dtype) with
  | error e => simp [ht] at h
  | ok handle =>
    rw [ht] at h
    obtain rfl := Except.ok.inj h
    exact ⟨rfl, rfl⟩

/-- A device that grants buffers up to a length. -/
def grantingBuffers (size : ℕ) : BufferDevice := ⟨size, fun _ => some fun _ => 0⟩

/-- An array without elements is refused. -/
theorem elements_of_faithful (hnp : np.Documented) (h : Faithful np l shape dtype) :
    0 < l.shape.prod := by
  rw [Nat.pos_iff_ne_zero]
  intro hzero
  obtain ⟨t, c, hinit, hc, -⟩ := h (fun _ => 0) (fillConversion fun _ => 0)
    (grantingBuffers (l.shape.prod * dtypeSize (targetDtype l.dtype dtype)))
    (fillConversion_documented _) ⟨Nat.le_refl _, rfl⟩
  obtain ⟨-, hprod, -⟩ := reshaped_spec hnp hc
  have hbytes : importBytes c.toNdLayout (targetDtype l.dtype dtype) = 0 := by
    rw [importBytes, hprod, toNdLayout_converted, shape_converted, hzero, Nat.zero_mul,
      Nat.zero_mod]
  have hcopy := (eq_ok_of_tensorInit hc hinit).1
  simp [tensorFromNumpy, hbytes, newMNBuffer, Except.map] at hcopy

/-- What a faithful import says about the first bytes that are copied for each element. -/
theorem faithful_bytes (hnp : np.Documented)
    (hsmall : l.shape.prod * dtypeSize (targetDtype l.dtype dtype) < 2 ^ 63)
    (h : Faithful np l shape dtype) (memory : ℤ → UInt8)
    (hconv : convert.Documented) :
    ∃ c, reshapedArray np (convertedArray np convert ⟨l, memory⟩ dtype) shape = some c ∧
      c.shape.prod = l.shape.prod ∧ ReadsOwn c.toNdLayout (targetDtype l.dtype dtype) ∧
      (∀ request, shape = some request → c.shape.map Nat.cast = request) ∧
      ∀ idx, Within c.shape idx →
        c.memory (c.data + (dtypeSize (targetDtype l.dtype dtype) * position c.shape idx : ℕ))
          = (convert l.dtype (.native (targetDtype l.dtype dtype))
              (NdArray.element ⟨l, memory⟩ (unravel l.shape (position c.shape idx)))).headD 0 := by
  have hpos := elements_of_faithful hnp h
  obtain ⟨t, c, hinit, hc, htshape, helement, hreads, hshape, -⟩ := h memory convert
    (grantingBuffers (l.shape.prod * dtypeSize (targetDtype l.dtype dtype))) hconv
    ⟨Nat.le_refl _, rfl⟩
  obtain ⟨hhandle, hshape_⟩ := eq_ok_of_tensorInit hc hinit
  obtain ⟨-, hprod, -⟩ := reshaped_spec hnp hc
  rw [toNdLayout_converted, shape_converted] at hprod
  obtain ⟨t', ht', -, -, -, hbytes⟩ :=
    tensorFromNumpy_spec (grantingBuffers
      (l.shape.prod * dtypeSize (targetDtype l.dtype dtype))) c
      (targetDtype l.dtype dtype) (by rwa [hprod]) (by rwa [hprod])
      ⟨by rw [hprod]; exact Nat.le_refl _, rfl⟩
  obtain rfl := Except.ok.inj (hhandle.symm.trans ht')
  refine ⟨c, hc, hprod, hreads, ?_, ?_⟩
  · intro request hrequest
    rw [← htshape, ← hshape, PyTensor.shape, hshape_, hrequest]
  · intro idx hidx
    rw [← helement idx hidx, hbytes idx hidx, headD_map_range (dtypeSize_pos _), Nat.cast_zero,
      add_zero]

/-- An array that is not `bfloat16` is not imported as one. -/
theorem bfloat16_of_faithful (hnp : np.Documented)
    (hsmall : l.shape.prod * dtypeSize (targetDtype l.dtype dtype) < 2 ^ 63)
    (h : Faithful np l shape dtype) (hbf : dtype = some .BFloat16) :
    l.dtype = .native .BFloat16 := by
  by_contra hne
  have hpos := elements_of_faithful hnp h
  -- the conversion makes ones of an array of zeros, and is not called
  obtain ⟨c, hc, hprod, -, -, hbytes⟩ := faithful_bytes hnp hsmall h (fun _ => 0)
    (fillConversion_documented fun _ => 1)
  have hraw : convertedArray np (fillConversion fun _ => 1) ⟨l, fun _ => 0⟩ dtype
      = ⟨l, fun _ => 0⟩ := by
    rw [hbf]
    simp [convertedArray, converts]
  rw [hraw] at hc
  have hzero : Within c.shape (replicate c.shape.length 0) := by
    apply within_replicate
    rwa [hprod]
  obtain ⟨hcdtype, -, helement, hplace⟩ := reshaped_spec hnp hc
  have hone := hbytes _ hzero
  rw [position_replicate, Nat.mul_zero, Nat.cast_zero, add_zero, headD_fillConversion] at hone
  · rcases hplace with ⟨-, hmemory, -⟩ | ⟨-, hlayout⟩
    · rw [hmemory] at hone
      change (0 : UInt8) = 1 at hone
      exact absurd hone (by decide)
    · -- the copy holds the zeros of the array
      have hfirst := congrArg (headD · 0) (helement _ hzero)
      have haddress : c.address (replicate c.shape.length 0) = c.data := by
        have hstrides : c.strides = (cOrderLayout l.dtype c.shape).strides := by
          rw [← hlayout]
        rw [NdLayout.address, hstrides, byteOffset_replicate, add_zero]
      simp only [headD_element, haddress, hone] at hfirst
      exact absurd hfirst (by decide)
  · intro hsame
    rw [hbf] at hsame
    exact absurd hsame hne

/-- Every element has an address of its own. -/
def NdLayout.Distinct (l : NdLayout) : Prop :=
  ∀ idx idx', Within l.shape idx → Within l.shape idx' → l.address idx = l.address idx' → idx = idx'

/-- Memory that is zero apart from one byte. -/
def markedMemory (address : ℤ) : ℤ → UInt8 := fun x => if x = address then 1 else 0

/-- The strides of the copy that `astype` makes lead to whole elements. -/
theorem dvd_byteOffset {e : ℤ} {strides : List ℤ} (h : ∀ s ∈ strides, e ∣ s) (idx : List ℕ) :
    e ∣ byteOffset strides idx := by
  induction strides generalizing idx with
  | nil => simp [byteOffset]
  | cons s strides ih =>
    cases idx with
    | nil => simp [byteOffset]
    | cons i idx =>
      rw [byteOffset]
      apply dvd_add
      · exact Dvd.dvd.mul_left (h s (mem_cons_self ..)) _
      · exact ih (fun x hx => h x (mem_cons_of_mem _ hx)) idx

/-- Where elements lie at multiples of their size, and the copy reads bytes of elements only, each
    block that it reads is an element. -/
theorem exists_element_at {b c : NdArray} {d : MNDType} (hdtype : b.dtype = .native d)
    (hzero : b.data = 0) (hdvd : ∀ idx, (dtypeSize d : ℤ) ∣ b.address idx)
    (hsmall : b.shape.prod * dtypeSize d < 2 ^ 63) (hcdtype : c.dtype = b.dtype)
    (hdata : c.data = b.data) (hprod : c.shape.prod = b.shape.prod)
    (haddress : ∀ idx, Within c.shape idx →
      c.address idx = b.address (unravel b.shape (position c.shape idx)))
    (hreads : ReadsOwn c.toNdLayout d) {p : ℕ} (hp : p < b.shape.prod) :
    ∃ q, Within b.shape q ∧ b.address q = (dtypeSize d * p : ℕ) := by
  have hpos := dtypeSize_pos d
  have hin : dtypeSize d * p < importBytes c.toNdLayout d := by
    have hmul : (p + 1) * dtypeSize d ≤ b.shape.prod * dtypeSize d := Nat.mul_le_mul_right _ hp
    rw [Nat.add_mul, Nat.one_mul, Nat.mul_comm p] at hmul
    have hfits : b.shape.prod * dtypeSize d < sizeTRange := by
      unfold sizeTRange
      omega
    rw [importBytes, hprod, Nat.mod_eq_of_lt hfits]
    omega
  obtain ⟨idx, hidx, r, hr, hsum⟩ := hreads _ hin
  have hq : position c.shape idx < b.shape.prod := by
    rw [← hprod]
    exact position_lt hidx
  refine ⟨_, within_unravel hq, ?_⟩
  rw [haddress idx hidx, hdata, hzero, zero_add] at hsum
  -- the remainder is a multiple of the element size, and below it
  have hrzero : r = 0 := by
    rw [hcdtype, hdtype] at hr
    obtain ⟨k, hk⟩ := hdvd (unravel b.shape (position c.shape idx))
    rw [hk, Nat.cast_mul] at hsum
    have hsub : (r : ℤ) = dtypeSize d * (p - k) := by
      rw [mul_sub]
      omega
    have hdvdr : (dtypeSize d : ℤ) ∣ (r : ℕ) := Dvd.intro _ hsub.symm
    exact Nat.eq_zero_of_dvd_of_lt (Int.natCast_dvd_natCast.mp hdvdr) hr
  rw [hsum, hrzero, Nat.cast_zero, add_zero]

/-- An array that is passed on out of order is not imported faithfully. -/
theorem contiguous_of_faithful (hnp : np.Documented) (hrank : l.strides.length = l.shape.length)
    (hsmall : l.shape.prod * dtypeSize (targetDtype l.dtype dtype) < 2 ^ 63)
    (hdistinct : l.Distinct) (h : Faithful np l shape dtype) :
    CContiguous (convertedLayout np l dtype).dtype.itemsize (convertedLayout np l dtype).shape
      (convertedLayout np l dtype).strides ∨ MustCopy np (convertedLayout np l dtype) shape := by
  by_contra hno
  rw [not_or] at hno
  obtain ⟨hnot, hview⟩ := hno
  have hpos := elements_of_faithful hnp h
  have hbf := bfloat16_of_faithful hnp hsmall h
  -- the layout after the conversion, and an element that is not where the copy looks for it
  let d := targetDtype l.dtype dtype
  have hldtype : (convertedLayout np l dtype).dtype = .native d :=
    (congrArg NdLayout.dtype (toNdLayout_converted np (fillConversion fun _ => 0)
      ⟨l, fun _ => 0⟩ dtype)).symm.trans (dtype_converted (a := ⟨l, fun _ => 0⟩) hbf)
  have hlshape := shape_converted np l dtype
  rw [cContiguous_iff (by rwa [hlshape]) (rank_converted hnp hrank dtype), hlshape, hldtype] at hnot
  rw [not_forall] at hnot
  obtain ⟨target, hnot⟩ := hnot
  rw [Classical.not_imp] at hnot
  obtain ⟨htarget, hoff⟩ := hnot
  -- the array is zero but for the first byte of that element
  let a : NdArray := ⟨l, markedMemory (l.address target)⟩
  let convert := fillConversion (headD · 0)
  have hconv : convert.Documented := fillConversion_documented _
  let b := convertedArray np convert a dtype
  have hlayout : b.toNdLayout = convertedLayout np l dtype := toNdLayout_converted ..
  have hbshape : b.shape = l.shape := by
    rw [hlayout]
    exact hlshape
  obtain ⟨c, hc, hprod, hreads, -, hbytes⟩ :=
    faithful_bytes hnp hsmall h (markedMemory (l.address target)) hconv
  obtain ⟨hcdtype, -, -, hplace⟩ := reshaped_spec hnp hc
  rcases hplace with ⟨hdata, hmemory, haddress⟩ | ⟨hcopy, -⟩
  · change c.data = b.data at hdata
    change c.memory = b.memory at hmemory
    change ∀ idx, Within c.shape idx → c.address idx
      = b.address (unravel b.shape (position c.shape idx)) at haddress
    have hp : position l.shape target < c.shape.prod := by
      rw [hprod]
      exact position_lt htarget
    have hfirst := hbytes _ (within_unravel hp)
    rw [position_unravel hp, unravel_position htarget, headD_fillConversion
      (fun _ => rfl), headD_element] at hfirst
    have hone : markedMemory (l.address target) (l.address target) = 1 := if_pos rfl
    change _ = markedMemory (l.address target) (l.address target) at hfirst
    rw [hone, hmemory, hdata] at hfirst
    by_cases hconverts : converts l.dtype dtype = true
    · -- the byte that is copied is the first one of another element
      have hldata : (convertedLayout np l dtype).data = 0 := by
        rw [convertedLayout, if_pos hconverts]
        rfl
      have hdvd : ∀ idx, (dtypeSize d : ℤ) ∣ b.address idx := by
        intro idx
        rw [NdLayout.address, hlayout, hldata, zero_add, convertedLayout, if_pos hconverts]
        exact dvd_byteOffset (hnp.keepOrder_dvd l (.native d)) idx
      obtain ⟨q, hq, hqaddress⟩ := exists_element_at (b := b) (c := c) (d := d)
        (by rw [hlayout, hldtype]) (by rw [hlayout, hldata]) hdvd (by rwa [hbshape])
        hcdtype hdata (by rw [hprod, hbshape]) haddress hreads
        (p := position l.shape target) (by
          rw [hbshape]
          exact position_lt htarget)
      rw [hbshape] at hq
      rw [hlayout] at hqaddress
      have hother : q ≠ target := by
        rintro rfl
        apply hoff
        rwa [NdLayout.address, hldata, zero_add] at hqaddress
      have hcell : ¬ l.address q = l.address target :=
        fun heq => hother (hdistinct _ _ hq htarget heq)
      have hsecond := congrArg (headD · 0)
        (element_converted (a := a) hnp hconv hbf hq)
      simp only [headD_element] at hsecond
      rw [headD_fillConversion (fun _ => rfl), headD_element] at hsecond
      change b.memory (b.address q) = markedMemory (l.address target) (l.address q) at hsecond
      have hzero : markedMemory (l.address target) (l.address q) = 0 := if_neg hcell
      rw [hzero, hlayout, hqaddress] at hsecond
      rw [hlayout, hldata, zero_add] at hfirst
      rw [hfirst] at hsecond
      exact absurd hsecond (by decide)
    · -- the byte that is copied is not the one that is marked
      have hraw : b = a := if_neg hconverts
      rw [hraw] at hfirst
      have heq : l.data + (dtypeSize d * position l.shape target : ℕ) = l.address target := by
        by_contra hne
        have hzero : markedMemory (l.address target)
            (l.data + (dtypeSize d * position l.shape target : ℕ)) = 0 := if_neg hne
        change markedMemory (l.address target)
          (l.data + (dtypeSize d * position l.shape target : ℕ)) = 1 at hfirst
        rw [hzero] at hfirst
        exact absurd hfirst (by decide)
      rw [convertedLayout, if_neg hconverts] at hoff
      apply hoff
      exact (add_left_cancel heq).symm
  · rw [toNdLayout_converted] at hcopy
    exact hview hcopy

/-- A request that leaves a dimension to NumPy is not imported faithfully. -/
theorem request_of_faithful (hnp : np.Documented)
    (hsmall : l.shape.prod * dtypeSize (targetDtype l.dtype dtype) < 2 ^ 63)
    (h : Faithful np l shape dtype) {request : List ℤ} (hrequest : shape = some request) :
    ∀ d ∈ request, 0 ≤ d := by
  intro e he
  obtain ⟨c, -, -, -, hshape, -⟩ := faithful_bytes hnp hsmall h (fun _ => 0)
    (fillConversion_documented fun _ => 0)
  rw [← hshape request hrequest] at he
  obtain ⟨n, -, rfl⟩ := mem_map.mp he
  exact Int.natCast_nonneg n

/-- **NumPy import.**  An array that meets the condition is imported faithfully, and an array whose
    elements have addresses of their own is imported faithfully only then. -/
theorem numpy_import (hnp : np.Documented) (hrank : l.strides.length = l.shape.length)
    (hfits : RequestFits np l shape)
    (hsmall : l.shape.prod * dtypeSize (targetDtype l.dtype dtype) < 2 ^ 63) :
    (Imports np l shape dtype → Faithful np l shape dtype) ∧
      (l.Distinct → Faithful np l shape dtype → Imports np l shape dtype) := by
  refine ⟨faithful_of_imports hnp hrank hfits hsmall, ?_⟩
  intro hdistinct h
  exact ⟨elements_of_faithful hnp h, bfloat16_of_faithful hnp hsmall h,
    contiguous_of_faithful hnp hrank hsmall hdistinct h,
    fun _ hrequest => request_of_faithful hnp hsmall h hrequest⟩

/-! ### A NumPy for arrays in C order -/

/-- NumPy, as it treats arrays in C order: copies are in C order too, and `reshape` returns a
view. -/
def cOrderNumPy : NumPy where
  keepOrder := fun l d => (NumPy.cOrderLayout d l.shape).strides
  reshapeShape := fun size request =>
    if (∀ d ∈ request, 0 ≤ d) ∧ (request.map Int.toNat).prod = size then
      some (request.map Int.toNat)
    else if request = [-1] then some [size] else none
  reshapeView := fun l shape =>
    if l.strides = (NumPy.cOrderLayout l.dtype l.shape).strides ∧ shape.prod = l.shape.prod then
      some (NumPy.cOrderLayout l.dtype shape).strides
    else none
  fill := fun l elements address =>
    (elements (unravel l.shape (address.toNat / l.dtype.itemsize))).getD
      (address.toNat % l.dtype.itemsize) 0

/-- A copy in C order holds its elements. -/
theorem cOrderNumPy_fill (d : NpDtype) (shape : List ℕ) (elements : List ℕ → List UInt8)
    (idx : List ℕ) (hlen : ∀ i, (elements i).length = d.itemsize) (hidx : Within shape idx) :
    (cOrderNumPy.copy (cOrderLayout d shape) elements).element idx = elements idx := by
  have hpos := d.itemsize_pos
  apply ext_getElem
  · rw [length_element, hlen]
    rfl
  · intro b hb _
    rw [length_element] at hb
    change b < d.itemsize at hb
    have haddress : ((cOrderLayout d shape).address idx + (b : ℤ)).toNat
        = d.itemsize * position shape idx + b := by
      rw [NdLayout.address, byteOffset_cOrder]
      change (0 + ((d.itemsize * position shape idx : ℕ) : ℤ) + (b : ℤ)).toNat = _
      omega
    have hdiv : (d.itemsize * position shape idx + b) / d.itemsize = position shape idx := by
      rw [Nat.mul_add_div hpos, Nat.div_eq_of_lt hb, Nat.add_zero]
    have hmod : (d.itemsize * position shape idx + b) % d.itemsize = b := by
      rw [Nat.mul_add_mod, Nat.mod_eq_of_lt hb]
    simp only [NdArray.element, getElem_map, getElem_range]
    change (elements (unravel shape
      (((cOrderLayout d shape).address idx + (b : ℤ)).toNat / d.itemsize))).getD
      (((cOrderLayout d shape).address idx + (b : ℤ)).toNat % d.itemsize) 0 = _
    rw [haddress, hdiv, hmod, unravel_position hidx, getD_eq_getElem]

theorem cOrderNumPy_documented : cOrderNumPy.Documented where
  astype_fill := fun l d elements idx hlen hidx =>
    cOrderNumPy_fill d l.shape elements idx hlen hidx
  cOrder_fill := cOrderNumPy_fill
  keepOrder_dvd := by
    intro l d s hs
    obtain ⟨n, -, rfl⟩ := mem_map.mp hs
    rw [Nat.cast_mul]
    exact Dvd.intro _ rfl
  keepOrder_length := by
    intro l d _
    simp [cOrderNumPy, cOrderLayout, length_rowMajorStrides]
  reshapeShape_prod := by
    intro size request shape h
    simp only [cOrderNumPy] at h
    split_ifs at h with hnonneg hinfer
    · obtain rfl := Option.some.inj h
      exact hnonneg.2
    · obtain rfl := Option.some.inj h
      simp
  reshapeShape_request := by
    intro size request shape h hnonneg
    simp only [cOrderNumPy] at h
    split_ifs at h with hall hinfer
    · obtain rfl := Option.some.inj h
      exact (MNShape.eq_map_bounds hnonneg).symm
    · subst hinfer
      exact absurd (hnonneg (-1) (mem_singleton_self _)) (by decide)
  reshapeView_address := by
    intro l shape strides h
    simp only [cOrderNumPy] at h
    split_ifs at h with hview
    obtain rfl := Option.some.inj h
    refine ⟨by simp [cOrderLayout, length_rowMajorStrides], ?_⟩
    intro idx hidx
    have hp : position shape idx < l.shape.prod := by
      rw [← hview.2]
      exact position_lt hidx
    rw [byteOffset_cOrder, hview.1, byteOffset_cOrder, position_unravel hp]

/-- An array of another data type, converted and reshaped. -/
theorem numpy_import_converted :
    Faithful cOrderNumPy ⟨.other 12 8, [2, 2], [16, 8], 0⟩ (some [4]) none := by
  apply (numpy_import cOrderNumPy_documented rfl _ (by decide)).1
  · refine ⟨by decide, by decide, .inl ?_, ?_⟩
    · refine ⟨fun _ => rfl, fun _ => rfl, trivial⟩
    · intro request hrequest
      obtain rfl := Option.some.inj hrequest
      decide
  · intro request hrequest _
    obtain rfl := Option.some.inj hrequest
    decide

theorem exists_of_within_pair {c d : ℕ} {idx : List ℕ} (h : Within [c, d] idx) :
    ∃ i j, i < c ∧ j < d ∧ idx = [i, j] := by
  match idx, h with
  | [i, j], ⟨hi, hj, _⟩ => exact ⟨i, j, hi, hj, rfl⟩

/-- A transposed array, an array imported as `bfloat16` and a request with `-1` are not imported
    faithfully. -/
theorem numpy_import_fails :
    ¬ Faithful cOrderNumPy ⟨.native .UInt8, [2, 2], [1, 2], 0⟩ none none ∧
      ¬ Faithful cOrderNumPy ⟨.native .Float32, [2], [4], 0⟩ none (some .BFloat16) ∧
      ¬ Faithful cOrderNumPy ⟨.native .UInt8, [2, 2], [2, 1], 0⟩ (some [-1]) none := by
  refine ⟨?_, ?_, ?_⟩
  · intro h
    have hdistinct : NdLayout.Distinct ⟨.native .UInt8, [2, 2], [1, 2], 0⟩ := by
      intro idx idx' hidx hidx' heq
      obtain ⟨i, j, hi, hj, rfl⟩ := exists_of_within_pair hidx
      obtain ⟨i', j', hi', hj', rfl⟩ := exists_of_within_pair hidx'
      simp [NdLayout.address, byteOffset] at heq ⊢
      omega
    rcases contiguous_of_faithful cOrderNumPy_documented rfl (by decide) hdistinct h with
      hflag | ⟨request, -, hrequest, -⟩
    · exact absurd (hflag.1 (by decide)) (by decide)
    · cases hrequest
  · intro h
    exact absurd (bfloat16_of_faithful cOrderNumPy_documented (by decide) h rfl) (by decide)
  · intro h
    exact absurd (request_of_faithful cOrderNumPy_documented (by decide) h rfl) (by decide)

end MetalNative
