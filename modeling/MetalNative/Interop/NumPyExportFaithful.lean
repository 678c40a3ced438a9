import MetalNative.Interop.NumPyExport
import MetalNative.Interop.NumPyFaithful

namespace MetalNative

open ByteTensor Option

open Broadcast (Within)
open FloatFormat (Format Number)
open Strided (linear position unravel)

/-!
# When tensors are exported faithfully

* `isContiguous_iff` — the code's predicate says that the strides are row-major.
* `numpy_round_trip` — an array that was imported is exported as it was.
* `NumpyFaithful`, `ItemFaithful`, `CopyFaithful` — what `tensor_to_numpy`, `tensor_item` and
  `Tensor(t)` have to be for a tensor, whatever its buffer holds.
* `numpy_export` — for the tensors of all chains of views, exactly which of them are.
* `numpy_export_fails` — a `bfloat16` one, columns of a `Private` tensor, a `Private` scalar.
-/

/-! ### Strides -/

namespace ByteTensor

/-- The code's predicate, for a tensor with elements: the strides lead to the row-major
    positions. -/
theorem Placed.isContiguous_iff {t : ByteTensor} (hp : t.Placed)
    (hint : ∀ s ∈ t.strides, IsInt64 s) (hpos : 0 < t.shape.bounds.prod) :
    t.isContiguous = true ↔
      ∀ idx, t.shape.InRange idx → linear t.sizeStrides idx = position t.shape.bounds idx := by
  constructor
  · intro hc idx hidx
    exact hp.linear_eq hc hidx
  · intro h
    unfold isContiguous
    rw [hp.shape_eq]
    refine MNShape.isContiguous_of_linear ?_ hint hpos hp.prod_lt h
    rw [hp.rank, MNShape.bounds, List.length_map]

/-- As many elements as there are need as many bytes: a blit of them stays inside the buffer. -/
theorem Placed.offset_add_nbytes_le {t : ByteTensor} (hp : t.Placed)
    (hpos : 0 < t.shape.bounds.prod) :
    t.offset + t.elem * t.shape.bounds.prod ≤ t.buffer.length := by
  -- some element lies at the last position or behind it
  obtain ⟨idx, hidx, hle⟩ := Strided.exists_le_linear hpos hp.inj
  have hinside := hp.inside idx hidx
  have hmul := Nat.mul_le_mul_left t.elem hle
  rw [Nat.mul_add_one] at hmul
  omega

end ByteTensor

/-! ### Elements -/

variable {device : BufferDevice}

/-- A new buffer has the length that was asked for, and the device has one. -/
theorem newMNBuffer_spec {size : ℕ} {buf : MTLBuffer}
    (h : newMNBuffer device size = .ok buf) :
    0 < size ∧ buf.length = size ∧ device.Grants size := by
  unfold newMNBuffer newBufferWithLength at h
  split_ifs at h with hzero hmax
  cases hnew : device.newBuffer size with
  | none =>
    rw [hnew] at h
    cases h
  | some bytes =>
    rw [hnew] at h
    obtain rfl := Except.ok.inj h
    exact ⟨Nat.pos_of_ne_zero hzero, rfl, Nat.not_lt.mp hmax, by rw [hnew]; rfl⟩

namespace ByteTensor

variable {t : ByteTensor}

/-- The element at a position among the bytes from the offset on. -/
def packed (t : ByteTensor) (p : ℕ) : List UInt8 :=
  (List.range t.elem).map fun b => t.buffer.bytes (t.offset + t.elem * p + b)

/-- The tensor, with other contents in its buffer. -/
def withBytes (t : ByteTensor) (bytes : ℕ → UInt8) : ByteTensor :=
  { t with buffer := { t.buffer with bytes := bytes } }

theorem Placed.withBytes (hp : t.Placed) (bytes : ℕ → UInt8) : (t.withBytes bytes).Placed :=
  ⟨hp.nonneg, hp.rank, hp.small, hp.inside, hp.fits, hp.inj⟩

theorem Placed.element_eq (hp : t.Placed) {idx : List ℕ} (hidx : t.shape.InRange idx) :
    t.element idx = t.packed (linear t.sizeStrides idx) := by
  unfold element packed
  rw [hp.address_eq hidx]

/-- What a blit into a new buffer leaves: the elements in row-major order, read off the bytes from
    the offset on. -/
structure CopiedTo (t r : ByteTensor) : Prop where
  placed : r.Placed
  dtype : r.dtype = t.dtype
  shape : r.shape = t.shape
  contiguous : r.isContiguous = true
  elements : ∀ p < t.shape.bounds.prod, r.packed p = t.packed p

/-- A tensor in a new buffer of its own. -/
theorem placed_copy {r : ByteTensor} (hp : t.Placed) (hdtype : r.dtype = t.dtype)
    (hshape : r.shape = t.shape) (hstrides : r.strides = r.shape.contiguousStrides)
    (hoffset : r.offset = 0) (hlen : t.nbytes = r.buffer.length) : r.Placed := by
  have helem : r.elem = t.elem := congrArg dtypeSize hdtype
  apply placed_new
  · rw [hshape]
    exact hp.nonneg
  · exact hstrides
  · exact hoffset
  · rw [hshape, helem]
    exact hp.small
  · rw [hshape, helem, ← hlen, hp.nbytes_eq]

/-- What `to_shared` does. -/
theorem Placed.toShared_cases (hp : t.Placed) (device : BufferDevice) :
    (t.mode = .Shared ∧ t.toShared device = some (.ok t)) ∨
      (∃ e, t.toShared device = some (.error e)) ∨
      (t.mode = .Private ∧ ∃ r, t.toShared device = some (.ok r) ∧ t.CopiedTo r) := by
  unfold toShared
  cases hmode : t.mode with
  | Shared => exact .inl ⟨rfl, rfl⟩
  | Private =>
    right
    rw [if_neg (by decide)]
    cases hbuf : newMNBuffer device t.nbytes with
    | error e => exact .inl ⟨e, rfl⟩
    | ok buf =>
      obtain ⟨hpos, hlen, -⟩ := newMNBuffer_spec hbuf
      rw [hp.nbytes_eq] at hpos
      have hprod : 0 < t.shape.bounds.prod := Nat.pos_of_mul_pos_right hpos
      have hsource : t.offset + t.nbytes ≤ t.buffer.length := by
        rw [hp.nbytes_eq, Nat.mul_comm]
        exact hp.offset_add_nbytes_le hprod
      have hcopy : t.buffer.copyFromBuffer t.offset buf 0 t.nbytes
          = some (buf.store 0 t.nbytes fun i => t.buffer.bytes (t.offset + i)) := by
        unfold MTLBuffer.copyFromBuffer
        rw [if_pos ⟨hsource, by omega⟩]
      refine .inr ⟨rfl, _, by simp only [hcopy]; rfl, ?_⟩
      have hplaced := @placed_copy t
        { buffer := buf.store 0 t.nbytes fun i => t.buffer.bytes (t.offset + i)
          mode := .Shared
          shape := t.shape
          strides := t.shape.contiguousStrides
          dtype := t.dtype } hp rfl rfl rfl rfl hlen.symm
      refine ⟨hplaced, rfl, rfl, ?_, fun p hlt => ?_⟩
      · refine (hplaced.isContiguous_iff (MNShape.isInt64_contiguousStrides _) hprod).mpr ?_
        intro idx hidx
        have hlinear := MNShape.linear_contiguousStrides hp.prod_lt hidx
        rwa [← hp.shape_eq] at hlinear
      · -- the blit put the bytes from the offset on in front
        refine List.map_congr_left fun b hb => ?_
        have hb' : b < t.elem := List.mem_range.mp hb
        have hrow : (p + 1) * t.elem ≤ t.shape.bounds.prod * t.elem := Nat.mul_le_mul_right _ hlt
        rw [Nat.add_mul, Nat.one_mul, Nat.mul_comm p, ← hp.nbytes_eq] at hrow
        have hin : 0 ≤ 0 + t.elem * p + b ∧ 0 + t.elem * p + b < 0 + t.nbytes := by omega
        show (buf.store 0 t.nbytes fun i => t.buffer.bytes (t.offset + i)).bytes
          (0 + t.elem * p + b) = _
        simp only [MTLBuffer.store, if_pos hin]
        congr 1
        omega

end ByteTensor

/-! ### The exported array -/

/-- The data type of the exported array. -/
def numpyDtype : MNDType → MNDType
  | .BFloat16 => .Float16
  | d => d

theorem pyDtype_format (d : MNDType) :
    pyDtype (dtypeToNumpyFormat d) = some (.native (numpyDtype d)) := by
  cases d <;> rfl

theorem dtypeSize_numpyDtype (d : MNDType) : dtypeSize (numpyDtype d) = dtypeSize d := by
  cases d <;> rfl

/-- The strides in bytes do not wrap where the elements are. -/
theorem byteOffset_bytes {elem : ℕ} {strides : List ℤ} {idx : List ℕ}
    (h : elem * linear (strides.map toSizeT) idx < 2 ^ 63) :
    byteOffset (strides.map fun s => toInt64 (s * elem)) idx
      = (elem * linear (strides.map toSizeT) idx : ℕ) := by
  induction strides generalizing idx with
  | nil => cases idx <;> simp [byteOffset, linear]
  | cons s strides ih =>
    cases idx with
    | nil => simp [byteOffset, linear]
    | cons i idx =>
      rw [List.map_cons, linear, Nat.mul_add] at h
      rw [List.map_cons, List.map_cons, byteOffset, linear, ih (by omega)]
      by_cases hi : i = 0
      · simp [hi]
      · -- an index that is not zero bounds the stride
        have hle : elem * toSizeT s ≤ elem * (i * toSizeT s) :=
          Nat.mul_le_mul_left _ (Nat.le_mul_of_pos_left _ (Nat.pos_of_ne_zero hi))
        have hstride : toInt64 (s * elem) = (toSizeT s * elem : ℕ) := by
          have hcast : ((toSizeT s : ℕ) : ℤ) = s % sizeTRange :=
            Int.toNat_of_nonneg (Int.emod_nonneg _ (by decide))
          calc toInt64 (s * elem)
              _ = toInt64 (((toSizeT s : ℕ) : ℤ) * elem) := by
                unfold toInt64
                rw [hcast, Int.emod_mul_bmod]
              _ = toInt64 ((toSizeT s * elem : ℕ) : ℤ) := by rw [Nat.cast_mul]
              _ = (toSizeT s * elem : ℕ) := by
                apply toInt64_natCast
                rw [Nat.mul_comm]
                omega
        rw [hstride]
        push_cast
        ring

/-- The array that is exported for a tensor. -/
def exportedArray (r : ByteTensor) : NdArray where
  dtype := .native (numpyDtype r.dtype)
  shape := r.shape.bounds
  strides := r.strides.map fun s => toInt64 (s * r.elem)
  data := r.offset
  memory := fun address => r.buffer.bytes address.toNat

/-- The array shows the bytes of the elements. -/
theorem element_exportedArray {r : ByteTensor} (hp : r.Placed) {idx : List ℕ}
    (hidx : r.shape.InRange idx) : (exportedArray r).element idx = r.element idx := by
  have hfits := hp.fits idx hidx
  have hoffset : byteOffset (exportedArray r).strides idx
      = (r.elem * linear r.sizeStrides idx : ℕ) :=
    byteOffset_bytes (show r.elem * linear r.sizeStrides idx < 2 ^ 63 by omega)
  unfold NdArray.element element
  have hsize : (exportedArray r).dtype.itemsize = r.elem := dtypeSize_numpyDtype r.dtype
  rw [hsize, hp.address_eq hidx]
  refine List.map_congr_left fun b _ => ?_
  unfold NdLayout.address
  rw [hoffset]
  show r.buffer.bytes (((r.offset : ℤ) + (r.elem * linear r.sizeStrides idx : ℕ) + b).toNat) = _
  congr 1

/-- `tensor_to_numpy`, for a placed tensor. -/
theorem tensorToNumpy_eq {maxDims : ℕ} {t r : ByteTensor}
    (hp : r.Placed) (h : t.toShared device = some (.ok r)) :
    tensorToNumpy maxDims device t = some
      (if maxDims < r.shape.length then .error .ValueError else .ok (exportedArray r)) := by
  have hneg : ¬ ∃ d ∈ r.shape, d < 0 := by
    rintro ⟨d, hd, hlt⟩
    exact absurd (hp.nonneg d hd) (not_le.mpr hlt)
  unfold tensorToNumpy
  rw [h, map_some]
  simp only [pyDtype_format, hneg, or_false]
  rfl

/-! ### Round trip -/

/-- What `tensor_from_numpy` makes of an array is placed in a `Shared` buffer. -/
theorem placed_tensorFromNumpy {c : NdArray} {d : MNDType} {t : ByteTensor}
    (h : tensorFromNumpy device c d = .ok t) (hsmall : c.shape.prod * dtypeSize d < 2 ^ 63) :
    t.Placed ∧ t.mode = .Shared ∧ t.dtype = d := by
  have hbytes : importBytes c.toNdLayout d = c.shape.prod * dtypeSize d := by
    unfold importBytes sizeTRange
    exact Nat.mod_eq_of_lt (by omega)
  simp only [tensorFromNumpy, hbytes] at h
  cases hbuf : newMNBuffer device (c.shape.prod * dtypeSize d) with
  | error e =>
    rw [hbuf] at h
    cases h
  | ok buf =>
    rw [hbuf] at h
    obtain rfl := Except.ok.inj h
    obtain ⟨-, hlen, -⟩ := newMNBuffer_spec hbuf
    have hbounds : MNShape.bounds (c.shape.map Nat.cast) = c.shape := MNShape.bounds_map_natCast _
    refine ⟨placed_new (fun n hn => ?_) rfl rfl ?_ ?_, rfl, rfl⟩
    · obtain ⟨m, -, rfl⟩ := List.mem_map.mp hn
      exact Int.natCast_nonneg m
    · show (MNShape.bounds (c.shape.map Nat.cast)).prod * dtypeSize d < 2 ^ 63
      rwa [hbounds]
    · show (MNShape.bounds (c.shape.map Nat.cast)).prod * dtypeSize d ≤ buf.length
      rw [hbounds, hlen]

/-- **Round trip.**  The array of a tensor made from an array is what NumPy makes of that array with
    the same data type and shape, whatever device it is read on. -/
theorem numpy_round_trip {np : NumPy} {convert : Conversion} {a : NdArray}
    {shape : Option (List ℤ)} {dtype : Option MNDType} (maxDims : ℕ) (reader : BufferDevice)
    (hnp : np.Documented) (hconv : convert.Documented)
    (hrank : a.strides.length = a.shape.length) (hfits : RequestFits np a.toNdLayout shape)
    (hsmall : a.shape.prod * dtypeSize (targetDtype a.dtype dtype) < 2 ^ 63)
    (h : Imports np a.toNdLayout shape dtype)
    (hdevice : device.Grants (a.shape.prod * dtypeSize (targetDtype a.dtype dtype))) :
    ∃ x c, tensorInit np convert device a shape dtype = .ok x ∧
      reshapedArray np (convertedArray np convert a dtype) shape = some c ∧
      (c.shape.length ≤ maxDims → ∃ b, tensorToNumpy maxDims reader x.handle = some (.ok b) ∧
        b.dtype = .native (numpyDtype (targetDtype a.dtype dtype)) ∧ b.shape = c.shape ∧
        ∀ idx, Within c.shape idx → b.element idx = c.element idx) := by
  obtain ⟨x, c, hx, hc, hshape, helement, -⟩ :=
    faithful_of_imports hnp hrank hfits hsmall h a.memory convert device hconv hdevice
  obtain ⟨hcdtype, hcprod, hcelement, -⟩ := reshaped_spec hnp hc
  have hbshape : (convertedArray np convert a dtype).shape = a.shape := by
    rw [toNdLayout_converted]
    exact shape_converted np a.toNdLayout dtype
  rw [hbshape] at hcprod hcelement
  obtain ⟨t, ht, rfl⟩ : ∃ t, tensorFromNumpy device c (targetDtype a.dtype dtype) = .ok t ∧
      x = ⟨t, shape, targetDtype a.dtype dtype⟩ := by
    unfold tensorInit at hx
    rw [hc] at hx
    cases ht : tensorFromNumpy device c (targetDtype a.dtype dtype) with
    | error e => simp [ht] at hx
    | ok t => exact ⟨t, rfl, by simpa [ht] using hx.symm⟩
  obtain ⟨hp, hmode, hdtype⟩ := placed_tensorFromNumpy ht (by rwa [hcprod])
  have hbounds : t.shape.bounds = c.shape := by
    rw [hshape]
    exact MNShape.bounds_map_natCast _
  have hlen : t.shape.length = c.shape.length := by rw [← hbounds, MNShape.bounds, List.length_map]
  -- nothing is copied out of a `Shared` buffer
  have hshared : t.toShared reader = some (.ok t) := by rw [toShared, if_pos hmode]
  refine ⟨_, c, hx, hc, fun hdims => ⟨exportedArray t, ?_, ?_, hbounds, fun idx hidx => ?_⟩⟩
  · rw [tensorToNumpy_eq hp hshared, if_neg (by omega)]
  · rw [← hdtype]
    rfl
  · have hplace : Within a.shape (unravel a.shape (position c.shape idx)) := by
      refine Strided.within_unravel ?_
      rw [← hcprod]
      exact Strided.position_lt hidx
    have hin : t.shape.InRange idx := by
      unfold MNShape.InRange
      rwa [hbounds]
    calc (exportedArray t).element idx
        _ = t.element idx := element_exportedArray hp hin
        _ = convert a.dtype (.native (targetDtype a.dtype dtype))
              (a.element (unravel a.shape (position c.shape idx))) := helement idx hidx
        _ = (convertedArray np convert a dtype).element
              (unravel a.shape (position c.shape idx)) :=
            (element_converted hnp hconv h.bfloat16 hplace).symm
        _ = c.element idx := (hcelement idx hidx).symm

/-- A square in C order comes back. -/
theorem numpy_round_trip_square :
    let a : NdArray := ⟨⟨.native .Float32, [2, 2], [8, 4], 0⟩, fun _ => 1⟩
    ∃ x b, tensorInit cOrderNumPy (fillConversion (·.headD 0)) (grantingBuffers 16) a none none
        = .ok x ∧
      tensorToNumpy 64 (grantingBuffers 0) x.handle = some (.ok b) ∧ b.shape = [2, 2] := by
  intro a
  have himports : Imports cOrderNumPy a.toNdLayout none none :=
    ⟨by decide, nofun, .inl ⟨fun _ => rfl, fun _ => rfl, trivial⟩, nofun⟩
  obtain ⟨x, c, hx, hc, h⟩ := numpy_round_trip 64 (grantingBuffers 0) cOrderNumPy_documented
    (fillConversion_documented (·.headD 0)) rfl (fun _ h => by cases h) (by decide) himports
    (⟨le_refl 16, rfl⟩ : (grantingBuffers 16).Grants 16)
  obtain rfl := Option.some.inj hc
  obtain ⟨b, hb, -, hshape, -⟩ := h (by decide)
  exact ⟨x, b, hx, hb, hshape⟩

/-! ### What a faithful export is -/

/-- A call throws, or returns something with the property. -/
def ThrowsOr {ε β : Type} (r : Option (Except ε β)) (P : β → Prop) : Prop :=
  ∃ x, r = some x ∧ ∀ b, x = .ok b → P b

/-- `tensor_to_numpy` throws, or returns an array with the numeric value of the tensor's element at
    each multi-index, whatever the buffer holds and the device answers. -/
def NumpyFaithful (maxDims : ℕ) (t : ByteTensor) : Prop :=
  ∀ bytes device, ThrowsOr (tensorToNumpy maxDims device (t.withBytes bytes)) fun a =>
    a.shape = t.shape.bounds ∧ ∀ idx, t.shape.InRange idx →
      a.value idx = some (elementValue t.dtype ((t.withBytes bytes).element idx))

/-- `tensor_item` of a tensor with one element throws, or returns its numeric value. -/
def ItemFaithful (t : ByteTensor) : Prop :=
  t.numel = 1 → ∀ bytes, ThrowsOr (tensorItem (t.withBytes bytes)) fun v =>
    ∀ idx, t.shape.InRange idx → v = elementValue t.dtype ((t.withBytes bytes).element idx)

/-- `Tensor(t)` throws, or is a tensor with the data type, the shape and the elements of `t`. -/
def CopyFaithful (np : NumPy) (convert : Conversion) (maxDims : ℕ) (t : ByteTensor) : Prop :=
  ∀ bytes device, ThrowsOr (tensorFromTensor np convert maxDims device (t.withBytes bytes)) fun r =>
    r.dtype = t.dtype ∧ r.handle.dtype = t.dtype ∧ r.shape = t.shape ∧
      r.handle.shape = t.shape ∧
      ∀ idx, t.shape.InRange idx → r.handle.element idx = (t.withBytes bytes).element idx

/-! ### Contents that tell -/

/-- The data types have different values for an element that is zero and one whose first byte is
    one. -/
theorem elementValue_mark (d : MNDType) :
    elementValue d ((List.range (dtypeSize d)).map fun b => if b = 0 then 1 else 0)
      ≠ elementValue d ((List.range (dtypeSize d)).map fun _ => 0) := by
  cases d <;> decide

/-- A device with a buffer for every length. -/
def anyLength (size : ℕ) : BufferDevice := ⟨size, fun _ => some fun _ => 0⟩

/-- Contents that are zero but for one byte. -/
def markedBytes (address i : ℕ) : UInt8 := if i = address then 1 else 0

namespace ByteTensor

variable {t : ByteTensor}

/-- With the first byte of an element marked, that element is marked and the others are zero. -/
theorem packed_marked (t : ByteTensor) (p q : ℕ) :
    (t.withBytes (markedBytes (t.offset + t.elem * q))).packed p
      = (List.range t.elem).map fun b => if p = q ∧ b = 0 then 1 else 0 := by
  refine List.map_congr_left fun b hb => ?_
  have hb' : b < t.elem := List.mem_range.mp hb
  show (if t.offset + t.elem * p + b = t.offset + t.elem * q then (1 : UInt8) else 0) = _
  have hiff : t.offset + t.elem * p + b = t.offset + t.elem * q ↔ p = q ∧ b = 0 := by
    constructor
    · intro heq
      rcases Nat.lt_trichotomy p q with hlt | rfl | hlt
      · have hmul := Nat.mul_le_mul_left t.elem hlt
        rw [Nat.succ_eq_add_one, Nat.mul_add_one] at hmul
        omega
      · exact ⟨rfl, by omega⟩
      · have hmul := Nat.mul_le_mul_left t.elem hlt
        rw [Nat.succ_eq_add_one, Nat.mul_add_one] at hmul
        omega
    · rintro ⟨rfl, rfl⟩
      rfl
  simp only [hiff]

/-- Elements at different places differ in their values for some contents. -/
theorem exists_value_ne (t : ByteTensor) {p q : ℕ} (h : p ≠ q) :
    ∃ bytes, elementValue t.dtype ((t.withBytes bytes).packed p)
      ≠ elementValue t.dtype ((t.withBytes bytes).packed q) := by
  refine ⟨markedBytes (t.offset + t.elem * q), ?_⟩
  rw [packed_marked, packed_marked]
  have hmark := elementValue_mark t.dtype
  simp only [h, false_and, if_false, true_and]
  exact hmark.symm

/-! ### What is read -/

/-- The place that is read for a multi-index: the strides count in a `Shared` buffer only. -/
def readPosition (t : ByteTensor) (idx : List ℕ) : ℕ :=
  if t.mode = .Shared then linear t.sizeStrides idx else position t.shape.bounds idx

/-- `to_shared` of a placed tensor returns or throws. -/
theorem Placed.toShared_returns (hp : t.Placed) (device : BufferDevice) :
    (∃ e, t.toShared device = some (.error e)) ∨ ∃ r, t.toShared device = some (.ok r) := by
  rcases hp.toShared_cases device with ⟨-, h⟩ | h | ⟨-, r, h, -⟩
  · exact .inr ⟨t, h⟩
  · exact .inl h
  · exact .inr ⟨r, h⟩

/-- With a buffer for the bytes, `to_shared` of a tensor with elements returns. -/
theorem Placed.toShared_granted (hp : t.Placed)
    (hpos : 0 < t.shape.bounds.prod) (hdevice : device.Grants t.nbytes) :
    ∃ r, t.toShared device = some (.ok r) := by
  rcases hp.toShared_returns device with ⟨e, h⟩ | h
  · exfalso
    have hnbytes : 0 < t.nbytes := by
      rw [hp.nbytes_eq]
      exact Nat.mul_pos hpos t.elem_pos
    obtain ⟨buf, hbuf, -⟩ := newMNBuffer_ok hnbytes hdevice
    unfold toShared at h
    split_ifs at h
    · cases h
    · simp only [hbuf] at h
      obtain ⟨_, -, heq⟩ := map_eq_some_iff.mp h
      cases heq
  · exact h

/-- What `to_shared` returns has the elements that are read. -/
theorem Placed.toShared_spec (hp : t.Placed) {r : ByteTensor}
    (h : t.toShared device = some (.ok r)) :
    r.Placed ∧ r.dtype = t.dtype ∧ r.shape = t.shape ∧
      (∀ idx, t.shape.InRange idx → r.element idx = t.packed (t.readPosition idx)) ∧
      ∀ p < t.shape.bounds.prod, r.packed p = t.packed p := by
  rcases hp.toShared_cases device with ⟨hmode, h'⟩ | ⟨e, h'⟩ | ⟨hmode, r', h', hcopied⟩
  · rw [h'] at h
    obtain rfl := Except.ok.inj (some.inj h)
    refine ⟨hp, rfl, rfl, fun idx hidx => ?_, fun p _ => rfl⟩
    rw [readPosition, if_pos hmode]
    exact hp.element_eq hidx
  · rw [h'] at h
    cases some.inj h
  · rw [h'] at h
    obtain rfl := Except.ok.inj (some.inj h)
    refine ⟨hcopied.placed, hcopied.dtype, hcopied.shape, fun idx hidx => ?_, hcopied.elements⟩
    have hidx' : r'.shape.InRange idx := by rwa [hcopied.shape]
    rw [readPosition, if_neg (by rw [hmode]; decide), hcopied.placed.element_eq hidx',
      hcopied.placed.linear_eq hcopied.contiguous hidx', hcopied.shape]
    exact hcopied.elements _ (Strided.position_lt hidx)

/-- Some index is read at another place, unless the buffer is `Shared` or the tensor contiguous. -/
theorem Placed.readPosition_eq_iff (hp : t.Placed) (hint : ∀ s ∈ t.strides, IsInt64 s)
    (hpos : 0 < t.shape.bounds.prod) :
    (∀ idx, t.shape.InRange idx → t.readPosition idx = linear t.sizeStrides idx) ↔
      t.mode = .Shared ∨ t.isContiguous = true := by
  rw [hp.isContiguous_iff hint hpos]
  unfold readPosition
  by_cases hmode : t.mode = .Shared
  · simp [hmode]
  · simp only [hmode, if_false, false_or]
    exact ⟨fun h idx hidx => (h idx hidx).symm, fun h idx hidx => (h idx hidx).symm⟩

end ByteTensor

/-! ### Values that are read -/

theorem numpyDtype_eq_iff (d : MNDType) : numpyDtype d = d ↔ d ≠ .BFloat16 := by
  cases d <;> decide

/-- Two bytes `0x3F` are not the same number as a `bfloat16` and as a `float16`. -/
theorem elementValue_bfloat16_ne :
    elementValue .Float16 [0x3F, 0x3F] ≠ elementValue .BFloat16 [0x3F, 0x3F] := by decide

/-- Elements at the places `f` have the values of those at the places `g`, whatever the buffer
    holds, when the data type is kept and the places are the same. -/
theorem values_eq_iff {t : ByteTensor} {P : List ℕ → Prop} {f g : List ℕ → ℕ}
    (hne : ∃ idx, P idx) :
    (∀ bytes idx, P idx →
        elementValue (numpyDtype t.dtype) ((t.withBytes bytes).packed (f idx))
          = elementValue t.dtype ((t.withBytes bytes).packed (g idx))) ↔
      t.dtype ≠ .BFloat16 ∧ ∀ idx, P idx → f idx = g idx := by
  constructor
  · intro h
    have hdtype : t.dtype ≠ .BFloat16 := by
      intro hbf
      obtain ⟨idx, hidx⟩ := hne
      have hvalues := h (fun _ => 0x3F) idx hidx
      have hpacked : ∀ p, (t.withBytes fun _ => 0x3F).packed p = [0x3F, 0x3F] := by
        intro p
        show (List.range (dtypeSize t.dtype)).map (fun _ => (0x3F : UInt8)) = _
        rw [hbf]
        rfl
      rw [hpacked, hpacked, hbf] at hvalues
      exact elementValue_bfloat16_ne hvalues
    refine ⟨hdtype, fun idx hidx => ?_⟩
    by_contra hdiffer
    obtain ⟨bytes, hvalue⟩ := t.exists_value_ne hdiffer
    have hvalues := h bytes idx hidx
    rw [(numpyDtype_eq_iff _).mpr hdtype] at hvalues
    exact hvalue hvalues
  · rintro ⟨hdtype, hsame⟩ bytes idx hidx
    rw [(numpyDtype_eq_iff _).mpr hdtype, hsame idx hidx]

/-! ### `tensor_to_numpy` -/

section

variable {maxDims : ℕ} {t : ByteTensor}

/-- An array that the tensor is exported to. -/
theorem value_exportedArray {r : ByteTensor} (hp : r.Placed) {idx : List ℕ}
    (hidx : r.shape.InRange idx) :
    (exportedArray r).value idx = some (elementValue (numpyDtype r.dtype) (r.element idx)) := by
  rw [← element_exportedArray hp hidx]
  rfl

/-- A tensor that NumPy has too many dimensions of is not exported. -/
theorem tensorToNumpy_throws (device : BufferDevice) (hp : t.Placed)
    (hdims : maxDims < t.shape.length) : ∃ e, tensorToNumpy maxDims device t = some (.error e) := by
  rcases hp.toShared_returns device with ⟨e, h⟩ | ⟨r, h⟩
  · exact ⟨.native e, by simp [tensorToNumpy, h]⟩
  · obtain ⟨hr, -, hshape, -⟩ := hp.toShared_spec h
    refine ⟨.ValueError, ?_⟩
    rw [tensorToNumpy_eq hr h, hshape, if_pos hdims]

/-- `tensor_to_numpy` throws, or exports what `to_shared` returns. -/
theorem tensorToNumpy_cases (device : BufferDevice) (hp : t.Placed)
    (hdims : t.shape.length ≤ maxDims) :
    (∃ e, tensorToNumpy maxDims device t = some (.error e)) ∨
      ∃ r, t.toShared device = some (.ok r) ∧
        tensorToNumpy maxDims device t = some (.ok (exportedArray r)) := by
  rcases hp.toShared_returns device with ⟨e, h⟩ | ⟨r, h⟩
  · exact .inl ⟨.native e, by simp [tensorToNumpy, h]⟩
  · obtain ⟨hr, -, hshape, -⟩ := hp.toShared_spec h
    refine .inr ⟨r, h, ?_⟩
    rw [tensorToNumpy_eq hr h, hshape, if_neg (Nat.not_lt.mpr hdims)]

theorem ThrowsOr.of_error {ε β : Type} {r : Option (Except ε β)} {P : β → Prop}
    (h : ∃ e, r = some (.error e)) : ThrowsOr r P := by
  obtain ⟨e, rfl⟩ := h
  exact ⟨_, rfl, fun b hb => by cases hb⟩

theorem throwsOr_ok {ε β : Type} {b : β} {P : β → Prop} :
    ThrowsOr (some (.ok b) : Option (Except ε β)) P ↔ P b := by
  constructor
  · rintro ⟨x, hx, h⟩
    exact h b (some.inj hx).symm
  · intro h
    exact ⟨_, rfl, fun b' hb => by rwa [← Except.ok.inj hb]⟩

/-- `tensor_to_numpy` of a tensor with elements and not too many dimensions. -/
theorem numpyFaithful_iff_values (hp : t.Placed) (hpos : 0 < t.shape.bounds.prod)
    (hdims : t.shape.length ≤ maxDims) :
    NumpyFaithful maxDims t ↔ ∀ bytes idx, t.shape.InRange idx →
      elementValue (numpyDtype t.dtype) ((t.withBytes bytes).packed (t.readPosition idx))
        = elementValue t.dtype ((t.withBytes bytes).packed (linear t.sizeStrides idx)) := by
  -- what the array has at an index, when there is one
  have hvalue : ∀ bytes device r, (t.withBytes bytes).toShared device = some (.ok r) →
      ∀ idx, t.shape.InRange idx → (exportedArray r).value idx
        = some (elementValue (numpyDtype t.dtype)
            ((t.withBytes bytes).packed (t.readPosition idx))) := by
    intro bytes device r h idx hidx
    obtain ⟨hr, hdtype, hshape, helement, -⟩ := (hp.withBytes bytes).toShared_spec h
    have hidx' : r.shape.InRange idx := by rwa [hshape]
    rw [value_exportedArray hr hidx', hdtype, helement idx hidx]
    rfl
  constructor
  · intro hfaithful bytes idx hidx
    let device := anyLength t.nbytes
    have hdevice : device.Grants t.nbytes := ⟨le_refl _, rfl⟩
    obtain ⟨r, h⟩ := (hp.withBytes bytes).toShared_granted hpos hdevice
    have hthrows := hfaithful bytes device
    obtain ⟨hr, -, hshape, -⟩ := (hp.withBytes bytes).toShared_spec h
    have hdims' : ¬ maxDims < (t.withBytes bytes).shape.length := Nat.not_lt.mpr hdims
    rw [tensorToNumpy_eq hr h, hshape, if_neg hdims', throwsOr_ok] at hthrows
    have hsame := hthrows.2 idx hidx
    rw [hvalue bytes device r h idx hidx, (hp.withBytes bytes).element_eq hidx] at hsame
    exact some.inj hsame
  · intro h bytes device
    rcases tensorToNumpy_cases device (hp.withBytes bytes) hdims with he | ⟨r, hr, heq⟩
    · exact .of_error he
    · rw [heq, throwsOr_ok]
      obtain ⟨-, -, hshape, -⟩ := (hp.withBytes bytes).toShared_spec hr
      refine ⟨congrArg MNShape.bounds hshape, fun idx hidx => ?_⟩
      rw [hvalue bytes device r hr idx hidx, h bytes idx hidx,
        (hp.withBytes bytes).element_eq hidx]
      rfl

/-- The condition under which `tensor_to_numpy` is right. -/
def ExportsToNumpy (maxDims : ℕ) (t : ByteTensor) : Prop :=
  t.numel = 0 ∨ maxDims < t.shape.length ∨
    (t.dtype ≠ .BFloat16 ∧ (t.mode = .Shared ∨ t.isContiguous = true))

/-- A tensor without elements has no multi-index. -/
theorem MNShape.not_inRange {shape : MNShape} (hempty : shape.bounds.prod = 0) (idx : List ℕ) :
    ¬ shape.InRange idx := by
  intro hidx
  exact absurd (Strided.position_lt hidx) (by omega)

theorem ByteTensor.Placed.numel_eq_zero_iff (hp : t.Placed) :
    t.numel = 0 ↔ t.shape.bounds.prod = 0 := by
  rw [hp.numel_eq]
  exact Int.natCast_eq_zero

/-- **`tensor_to_numpy`** of a view is right exactly under `ExportsToNumpy`. -/
theorem numpyFaithful_iff (hp : t.Placed) (hint : ∀ s ∈ t.strides, IsInt64 s) :
    NumpyFaithful maxDims t ↔ ExportsToNumpy maxDims t := by
  unfold ExportsToNumpy
  rw [hp.numel_eq_zero_iff]
  by_cases hempty : t.shape.bounds.prod = 0
  · -- there is nothing to compare
    simp only [hempty, true_or, iff_true]
    intro bytes device
    rcases lt_or_ge maxDims t.shape.length with hdims | hdims
    · exact .of_error (tensorToNumpy_throws device (hp.withBytes bytes) hdims)
    · rcases tensorToNumpy_cases device (hp.withBytes bytes) hdims with he | ⟨r, hr, heq⟩
      · exact .of_error he
      · rw [heq, throwsOr_ok]
        obtain ⟨-, -, hshape, -⟩ := (hp.withBytes bytes).toShared_spec hr
        exact ⟨congrArg MNShape.bounds hshape,
          fun idx hidx => absurd hidx (MNShape.not_inRange hempty idx)⟩
  · have hpos : 0 < t.shape.bounds.prod := Nat.pos_of_ne_zero hempty
    by_cases hdims : maxDims < t.shape.length
    · simp only [hdims, true_or, or_true, iff_true]
      intro bytes device
      exact .of_error (tensorToNumpy_throws device (hp.withBytes bytes) hdims)
    · have hne : ∃ idx, t.shape.InRange idx := ⟨_, Strided.within_unravel hpos⟩
      rw [numpyFaithful_iff_values hp hpos (Nat.not_lt.mp hdims), values_eq_iff hne,
        hp.readPosition_eq_iff hint hpos]
      simp only [hempty, hdims, false_or]

/-! ### `tensor_item` -/

/-- The upper half of a `float` is the number of the `bfloat16`. -/
theorem itemValue_eq (d : MNDType) (bytes : List UInt8) :
    itemValue d bytes = elementValue d bytes := by
  cases d with
  | BFloat16 => exact congrArg Value.float (Format.decode_widen 8 7 0 16 (fromBytes bytes))
  | _ => rfl

/-- The only element of a tensor lies at its offset. -/
theorem ByteTensor.Placed.element_of_one (hp : t.Placed) (hone : t.shape.bounds.prod = 1)
    {idx : List ℕ} (hidx : t.shape.InRange idx) : t.element idx = t.packed 0 := by
  have hposition : position t.shape.bounds idx
      = position t.shape.bounds (List.replicate t.shape.bounds.length 0) := by
    have hlt := Strided.position_lt hidx
    rw [position_replicate]
    omega
  have hzero : idx = List.replicate t.shape.bounds.length 0 := by
    rw [← Strided.unravel_position hidx, hposition,
      Strided.unravel_position (within_replicate (by omega))]
  rw [hp.element_eq hidx, hzero, Strided.linear_replicate_zero]

/-- **`tensor_item`** of a view is right exactly in a `Shared` buffer. -/
theorem itemFaithful_iff (hp : t.Placed) :
    ItemFaithful t ↔ (t.numel = 1 → t.mode = .Shared) := by
  constructor
  · intro h hone
    obtain ⟨x, hx, -⟩ := h hone t.buffer.bytes
    cases hmode : t.mode with
    | Shared => rfl
    | Private =>
      -- the pointer to the contents is null
      have hnone : tensorItem (t.withBytes t.buffer.bytes) = none := by
        have hone' : ¬ ¬ (t.withBytes t.buffer.bytes).numel = 1 := not_not.mpr hone
        have hmode' : (t.withBytes t.buffer.bytes).mode = .Private := hmode
        simp only [tensorItem, if_neg hone', hmode']
      rw [hnone] at hx
      cases hx
  · intro h hone bytes
    have hitem : tensorItem (t.withBytes bytes) =
        some (.ok (elementValue t.dtype ((t.withBytes bytes).packed 0))) := by
      have hone' : ¬ ¬ (t.withBytes bytes).numel = 1 := not_not.mpr hone
      have hmode : (t.withBytes bytes).mode = .Shared := h hone
      simp only [tensorItem, if_neg hone', hmode, ← itemValue_eq]
      rfl
    rw [hitem, throwsOr_ok]
    intro idx hidx
    have hprod : t.shape.bounds.prod = 1 := by
      have hnumel := hp.numel_eq
      omega
    rw [(hp.withBytes bytes).element_of_one hprod hidx]

/-! ### `Tensor(t)` -/

/-- The constructor passes an exported array on as it is. -/
theorem tensorInit_exportedArray (np : NumPy) (convert : Conversion) (device : BufferDevice)
    (r : ByteTensor) (x : PyTensor) :
    tensorInit np convert device (exportedArray r) none none = .ok x ↔
      ∃ handle, tensorFromNumpy device (exportedArray r) (numpyDtype r.dtype) = .ok handle ∧
        x = ⟨handle, none, numpyDtype r.dtype⟩ := by
  have hknown : numpyToDtype (exportedArray r).dtype = some (numpyDtype r.dtype) := by
    show numpyToDtype (.native (numpyDtype r.dtype)) = _
    cases r.dtype <;> rfl
  have htarget : targetDtype (exportedArray r).dtype none = numpyDtype r.dtype := by
    rw [targetDtype, hknown, getD_some]
  have hsame : convertedArray np convert (exportedArray r) none = exportedArray r := by
    simp [convertedArray, converts, hknown]
  unfold tensorInit
  rw [hsame, htarget]
  simp only [reshapedArray]
  cases tensorFromNumpy device (exportedArray r) (numpyDtype r.dtype) with
  | error e => simp
  | ok handle => simp [eq_comm]

/-- What is copied from an exported array: the elements from its offset on, in row-major order. -/
theorem tensorFromNumpy_exportedArray {r handle : ByteTensor}
    (hr : r.Placed) (h : tensorFromNumpy device (exportedArray r) (numpyDtype r.dtype)
      = .ok handle) :
    0 < r.shape.bounds.prod ∧ handle.dtype = numpyDtype r.dtype ∧ handle.shape = r.shape ∧
      ∀ idx, r.shape.InRange idx → handle.element idx = r.packed (position r.shape.bounds idx) := by
  have hsmall : r.shape.bounds.prod * dtypeSize (numpyDtype r.dtype) < 2 ^ 63 := by
    rw [dtypeSize_numpyDtype]
    exact hr.small
  have hbytes : importBytes (exportedArray r).toNdLayout (numpyDtype r.dtype)
      = r.shape.bounds.prod * dtypeSize (numpyDtype r.dtype) := by
    show (r.shape.bounds.prod * dtypeSize (numpyDtype r.dtype)) % sizeTRange = _
    unfold sizeTRange
    apply Nat.mod_eq_of_lt
    omega
  obtain ⟨buf, hbuf, hhandle⟩ : ∃ buf, newMNBuffer device
      (importBytes (exportedArray r).toNdLayout (numpyDtype r.dtype)) = .ok buf ∧
        handle.dtype = numpyDtype r.dtype := by
    unfold tensorFromNumpy at h
    cases hnew : newMNBuffer device
        (importBytes (exportedArray r).toNdLayout (numpyDtype r.dtype)) with
    | error e =>
      simp only [hnew] at h
      cases h
    | ok buf =>
      simp only [hnew] at h
      obtain rfl := Except.ok.inj h
      exact ⟨buf, rfl, rfl⟩
  rw [hbytes] at hbuf
  obtain ⟨hbytespos, -, hdevice⟩ := newMNBuffer_spec hbuf
  have hpos : 0 < r.shape.bounds.prod := Nat.pos_of_mul_pos_right hbytespos
  obtain ⟨t', ht', hshape, -, -, helement⟩ :=
    tensorFromNumpy_spec device (exportedArray r) (numpyDtype r.dtype) hpos hsmall hdevice
  rw [h] at ht'
  obtain rfl := Except.ok.inj ht'
  refine ⟨hpos, hhandle, hshape.trans hr.shape_eq.symm, fun idx hidx => ?_⟩
  rw [helement idx hidx, dtypeSize_numpyDtype]
  refine List.map_congr_left fun b _ => ?_
  show r.buffer.bytes (((r.offset : ℤ) + ((dtypeSize r.dtype * position r.shape.bounds idx : ℕ)
    + b)).toNat) = r.buffer.bytes (r.offset + dtypeSize r.dtype * position r.shape.bounds idx + b)
  congr 1
  omega

/-- The condition under which `Tensor(t)` is right. -/
def CopiesTensor (maxDims : ℕ) (t : ByteTensor) : Prop :=
  t.numel = 0 ∨ maxDims < t.shape.length ∨ (t.dtype ≠ .BFloat16 ∧ t.isContiguous = true)

/-- `Tensor(t)` returns, when the device has a buffer, a tensor with the data type of the array and
    the elements in row-major order from the offset on. -/
theorem tensorFromTensor_spec (np : NumPy) (convert : Conversion)
    {x : PyTensor} (hp : t.Placed)
    (h : tensorFromTensor np convert maxDims device t = some (.ok x)) :
    0 < t.shape.bounds.prod ∧ x.dtype = numpyDtype t.dtype ∧ x.handle.dtype = numpyDtype t.dtype ∧
      x.shape = t.shape ∧ x.handle.shape = t.shape ∧
      ∀ idx, t.shape.InRange idx →
        x.handle.element idx = t.packed (position t.shape.bounds idx) := by
  obtain ⟨y, hy, hx⟩ := map_eq_some_iff.mp h
  cases y with
  | error e => cases hx
  | ok a =>
    have hdims : t.shape.length ≤ maxDims := by
      by_contra hlt
      obtain ⟨e, he⟩ := tensorToNumpy_throws device hp (Nat.not_le.mp hlt)
      rw [he] at hy
      cases some.inj hy
    rcases tensorToNumpy_cases device hp hdims with ⟨e, he⟩ | ⟨r, hr, heq⟩
    · rw [he] at hy
      cases some.inj hy
    · rw [heq] at hy
      obtain rfl := Except.ok.inj (some.inj hy)
      obtain ⟨hplaced, hdtype, hshape, -, hpacked⟩ := hp.toShared_spec hr
      obtain ⟨handle, hhandle, rfl⟩ := (tensorInit_exportedArray np convert device r x).mp hx
      obtain ⟨hpos, hdtype', hshape', helement⟩ := tensorFromNumpy_exportedArray hplaced hhandle
      rw [hshape] at hpos hshape' helement
      rw [hdtype] at hdtype'
      refine ⟨hpos, congrArg numpyDtype hdtype, hdtype', hshape', hshape', fun idx hidx => ?_⟩
      rw [helement idx hidx, hpacked _ (Strided.position_lt hidx)]

/-- With buffers for the bytes, `Tensor(t)` of a tensor with elements returns. -/
theorem tensorFromTensor_granted (np : NumPy) (convert : Conversion)
    (hp : t.Placed) (hpos : 0 < t.shape.bounds.prod) (hdims : t.shape.length ≤ maxDims)
    (hdevice : device.Grants t.nbytes) :
    ∃ x, tensorFromTensor np convert maxDims device t = some (.ok x) := by
  obtain ⟨r, hr⟩ := hp.toShared_granted hpos hdevice
  obtain ⟨hplaced, hdtype, hshape, -⟩ := hp.toShared_spec hr
  have hdims' : ¬ maxDims < r.shape.length := by
    rw [hshape]
    exact Nat.not_lt.mpr hdims
  have hsize : r.shape.bounds.prod * dtypeSize (numpyDtype r.dtype) = t.nbytes := by
    rw [dtypeSize_numpyDtype, hshape, hdtype, hp.nbytes_eq]
    rfl
  have hsmall : r.shape.bounds.prod * dtypeSize (numpyDtype r.dtype) < 2 ^ 63 := by
    rw [dtypeSize_numpyDtype]
    exact hplaced.small
  obtain ⟨handle, hhandle, -⟩ :=
    tensorFromNumpy_spec device (exportedArray r) (numpyDtype r.dtype) (by rwa [← hshape] at hpos)
      hsmall (by rw [← hsize] at hdevice; exact hdevice)
  refine ⟨⟨handle, none, numpyDtype r.dtype⟩, ?_⟩
  unfold tensorFromTensor
  rw [tensorToNumpy_eq hplaced hr, if_neg hdims', map_some]
  exact congrArg some ((tensorInit_exportedArray np convert device r _).mpr ⟨handle, hhandle, rfl⟩)

/-- `Tensor(t)` throws where it does not return. -/
theorem throwsOr_tensorFromTensor (np : NumPy) (convert : Conversion) (device : BufferDevice)
    {P : PyTensor → Prop} (hp : t.Placed)
    (h : ∀ x, tensorFromTensor np convert maxDims device t = some (.ok x) → P x) :
    ThrowsOr (tensorFromTensor np convert maxDims device t) P := by
  have hsome : ∃ y, tensorFromTensor np convert maxDims device t = some y := by
    unfold tensorFromTensor
    rcases lt_or_ge maxDims t.shape.length with hdims | hdims
    · obtain ⟨e, he⟩ := tensorToNumpy_throws device hp hdims
      exact ⟨_, by rw [he, map_some]⟩
    · rcases tensorToNumpy_cases device hp hdims with ⟨e, he⟩ | ⟨r, -, heq⟩
      · exact ⟨_, by rw [he, map_some]⟩
      · exact ⟨_, by rw [heq, map_some]⟩
  obtain ⟨y, hy⟩ := hsome
  exact ⟨y, hy, fun x hx => h x (by rw [hy, hx])⟩

/-- **`Tensor(t)`** of a view is right exactly under `CopiesTensor`. -/
theorem copyFaithful_iff (np : NumPy) (convert : Conversion) (hp : t.Placed)
    (hint : ∀ s ∈ t.strides, IsInt64 s) :
    CopyFaithful np convert maxDims t ↔ CopiesTensor maxDims t := by
  unfold CopiesTensor
  rw [hp.numel_eq_zero_iff]
  constructor
  · intro h
    by_contra hnot
    push Not at hnot
    obtain ⟨hne, hdims, hcond⟩ := hnot
    have hpos : 0 < t.shape.bounds.prod := Nat.pos_of_ne_zero hne
    have hreturns : ∀ bytes, ∃ x : PyTensor, x.dtype = t.dtype ∧ x.dtype = numpyDtype t.dtype ∧
        ∀ idx, t.shape.InRange idx →
          (t.withBytes bytes).packed (position t.shape.bounds idx)
            = (t.withBytes bytes).packed (linear t.sizeStrides idx) := by
      intro bytes
      have hgrants : (anyLength t.nbytes).Grants (t.withBytes bytes).nbytes := ⟨le_refl _, rfl⟩
      obtain ⟨x, hx⟩ := tensorFromTensor_granted np convert (hp.withBytes bytes) hpos hdims hgrants
      have hthrows := h bytes (anyLength t.nbytes)
      rw [hx, throwsOr_ok] at hthrows
      obtain ⟨-, hdtype, -, -, -, helement⟩ :=
        tensorFromTensor_spec np convert (hp.withBytes bytes) hx
      refine ⟨x, hthrows.1, hdtype, fun idx hidx => ?_⟩
      have hsame := hthrows.2.2.2.2 idx hidx
      rw [helement idx hidx, (hp.withBytes bytes).element_eq hidx] at hsame
      exact hsame
    have hdtype : t.dtype ≠ .BFloat16 := by
      obtain ⟨x, hx, hx', -⟩ := hreturns t.buffer.bytes
      exact (numpyDtype_eq_iff _).mp (hx'.symm.trans hx)
    refine hcond hdtype ((hp.isContiguous_iff hint hpos).mpr fun idx hidx => ?_)
    by_contra hdiffer
    obtain ⟨bytes, hvalue⟩ := t.exists_value_ne hdiffer
    obtain ⟨x, -, -, hsame⟩ := hreturns bytes
    exact hvalue (by rw [hsame idx hidx])
  · intro hcond bytes device
    apply throwsOr_tensorFromTensor np convert device (hp.withBytes bytes)
    intro x hx
    obtain ⟨hpos, hdtype, hdtype', hshape, hshape', helement⟩ :=
      tensorFromTensor_spec np convert (hp.withBytes bytes) hx
    rcases hcond with hempty | hdims | ⟨hbf, hcontiguous⟩
    · exact absurd hempty (Nat.ne_of_gt hpos)
    · -- NumPy has no array with so many dimensions
      obtain ⟨e, he⟩ := tensorToNumpy_throws device (hp.withBytes bytes) hdims
      unfold tensorFromTensor at hx
      rw [he, map_some] at hx
      cases some.inj hx
    · have hkept := (numpyDtype_eq_iff _).mpr hbf
      refine ⟨hdtype.trans hkept, hdtype'.trans hkept, hshape, hshape', fun idx hidx => ?_⟩
      rewrite [helement idx hidx, (hp.withBytes bytes).element_eq hidx,
        (hp.withBytes bytes).linear_eq hcontiguous hidx]
      rfl

end

/-! ### Chains of views -/

/-- Every call leaves strides that are `int64_t` values. -/
theorem isInt64_call {t t' : ByteTensor} {call : ViewCall}
    (hint : ∀ s ∈ t.strides, IsInt64 s) (h : call.result t = some (.ok t')) :
    ∀ s ∈ t'.strides, IsInt64 s := by
  cases call with
  | reshape newDims =>
    have hreshape := some.inj h
    unfold reshape at hreshape
    split_ifs at hreshape
    cases hdims : resolveDims t.numel newDims with
    | error e =>
      rw [hdims] at hreshape
      cases hreshape
    | ok resolved =>
      rw [hdims] at hreshape
      obtain rfl := Except.ok.inj hreshape
      exact MNShape.isInt64_contiguousStrides resolved
  | slice dim start stop =>
    have hslice := some.inj h
    unfold slice at hslice
    simp only at hslice
    split_ifs at hslice
    obtain rfl := Except.ok.inj hslice
    exact hint
  | clone answer =>
    have hclone : t.clone answer = some (.ok t') := h
    unfold clone at hclone
    split_ifs at hclone
    · obtain ⟨r, -, hr⟩ := map_eq_some_iff.mp hclone
      cases r with
      | error e => cases hr
      | ok newBuf =>
        obtain rfl := Except.ok.inj hr
        exact MNShape.isInt64_contiguousStrides t.shape
    · cases some.inj hclone

/-- The strides of a new tensor are `int64_t` values. -/
theorem isInt64_empty {shape : MNShape} {dtype : MNDType} {mode : StorageMode}
    {answer : Except MNException (ℕ → UInt8)} {t : ByteTensor}
    (h : empty shape dtype mode answer = some (.ok t)) :
    ∀ s ∈ t.strides, IsInt64 s := by
  unfold empty at h
  cases hcheck : emptyTensorCheck shape dtype (.ok ()) with
  | error e => simp [hcheck] at h
  | ok =>
    simp only [hcheck] at h
    obtain ⟨r, -, hok⟩ := map_eq_some_iff.mp h
    cases r with
    | error e => cases hok
    | ok buffer =>
      obtain rfl := Except.ok.inj hok
      exact MNShape.isInt64_contiguousStrides shape

section

variable {shape : MNShape} {dtype : MNDType} {mode : StorageMode}
  {answer : Except MNException (ℕ → UInt8)} {t : ByteTensor} {s : ViewState}

/-- The strides of a tensor in a chain of views are `int64_t` values. -/
theorem isInt64_chain (hempty : empty shape dtype mode answer = some (.ok t))
    (hrun : Run.Runs viewStep FittingCall (viewInit t) s) :
    ∀ x ∈ s.tensor.strides, IsInt64 x := by
  apply hrun.invariant (P := fun s => ∀ x ∈ s.tensor.strides, IsInt64 x)
  · exact isInt64_empty hempty
  · intro u call v hu _ hstep
    unfold viewStep at hstep
    split at hstep
    · next t' hresult =>
      obtain rfl := some.inj hstep
      exact isInt64_call hu hresult
    · cases hstep

/-- **Exports**: of the tensors of a chain of views, whatever their buffers hold,
    `tensor_to_numpy`, `tensor_item` and `Tensor(t)` are right for exactly these. -/
theorem numpy_export {maxDims : ℕ} (hnonneg : ∀ d ∈ shape, 0 ≤ d)
    (hsize : shape.prod * dtypeSize dtype ≤ 2 ^ 63 - 1)
    (hempty : ByteTensor.empty shape dtype mode answer = some (.ok t))
    (hrun : Run.Runs viewStep FittingCall (viewInit t) s) :
    (NumpyFaithful maxDims s.tensor ↔ ExportsToNumpy maxDims s.tensor) ∧
      (ItemFaithful s.tensor ↔ (s.tensor.numel = 1 → s.tensor.mode = .Shared)) ∧
      ∀ np convert, CopyFaithful np convert maxDims s.tensor ↔ CopiesTensor maxDims s.tensor := by
  obtain ⟨hplaced, -⟩ := chain_invariant hnonneg hsize hempty hrun
  have hint := isInt64_chain hempty hrun
  exact ⟨numpyFaithful_iff hplaced hint, itemFaithful_iff hplaced,
    fun np convert => copyFaithful_iff np convert hplaced hint⟩

end

/-- Two rows and two columns of `float`; the second element is not zero. -/
def squareTensor (mode : StorageMode) : ByteTensor :=
  ⟨⟨64, markedBytes 4⟩, mode, [2, 2], [2, 1], .Float32, 0⟩

/-- Its first column. -/
def columnTensor (mode : StorageMode) : ByteTensor :=
  ⟨⟨64, markedBytes 4⟩, mode, [2, 1], [2, 1], .Float32, 0⟩

theorem reaches_columnTensor (mode : StorageMode) :
    ∃ s, Run.Reaches viewStep (viewInit (squareTensor mode)) s ∧ s.tensor = columnTensor mode :=
  ⟨_, Run.reaches_exec (show Run.exec viewStep (viewInit (squareTensor mode)) [.slice 1 0 1]
    = some _ from rfl), rfl⟩

/-- The first column of a `Private` tensor. -/
theorem numpy_export_column :
    ∃ s : ViewState, s.tensor = columnTensor .Private ∧
      (NumpyFaithful 64 s.tensor ↔ ExportsToNumpy 64 s.tensor) ∧
      (ItemFaithful s.tensor ↔ (s.tensor.numel = 1 → s.tensor.mode = .Shared)) ∧
      ∀ np convert, CopyFaithful np convert 64 s.tensor ↔ CopiesTensor 64 s.tensor := by
  have hempty : empty [2, 2] .Float32 .Private (.ok (markedBytes 4))
      = some (.ok (squareTensor .Private)) := rfl
  have hguard : Run.GuardedAlong viewStep FittingCall (viewInit (squareTensor .Private))
      [.slice 1 0 1] := by decide
  exact ⟨⟨columnTensor .Private, _⟩, rfl,
    numpy_export (by decide) (by decide) hempty (Run.runs_exec rfl hguard)⟩

/-- The `bfloat16` one is exported as 1.875.  The first column of a `Private` tensor is exported as
    the first row, and so is that of a `Shared` one by `Tensor(t)`.  `tensor_item` of a `Private`
    tensor reads through a null pointer. -/
theorem numpy_export_fails :
    (∃ t a, ByteTensor.empty [1] .BFloat16 .Shared
        (.ok fun i => if i = 0 then 0x80 else 0x3F) = some (.ok t) ∧
      tensorToNumpy 64 (anyLength 2) t = some (.ok a) ∧
      elementValue t.dtype (t.element [0]) = .float (.finite (2 ^ 149)) ∧
      a.value [0] = some (.float (.finite (15 * 2 ^ 146)))) ∧
    (∃ s : ViewState, Run.Reaches viewStep (viewInit (squareTensor .Private)) s ∧
      ∃ a, tensorToNumpy 64 (anyLength 8) s.tensor = some (.ok a) ∧
        elementValue s.tensor.dtype (s.tensor.element [1, 0]) = .float (.finite 0) ∧
        a.value [1, 0] = some (.float (.finite 1))) ∧
    (∃ t, ByteTensor.empty [1] .Float32 .Private (.ok fun _ => 0) = some (.ok t) ∧
      t.numel = 1 ∧ tensorItem t = none) ∧
    ∃ s : ViewState, Run.Reaches viewStep (viewInit (squareTensor .Shared)) s ∧
      ∀ np convert, ∃ x, tensorFromTensor np convert 64 (anyLength 8) s.tensor = some (.ok x) ∧
        x.handle.element [1, 0] ≠ s.tensor.element [1, 0] := by
  refine ⟨⟨_, _, rfl, rfl, by decide +kernel, by decide +kernel⟩, ?_, ⟨_, rfl, rfl, rfl⟩, ?_⟩
  · obtain ⟨s, hs, hcolumn⟩ := reaches_columnTensor .Private
    refine ⟨s, hs, ?_⟩
    rw [hcolumn]
    exact ⟨_, rfl, by decide, by decide⟩
  · obtain ⟨s, hs, hcolumn⟩ := reaches_columnTensor .Shared
    refine ⟨s, hs, fun np convert => ?_⟩
    rw [hcolumn]
    have hdiffer : ([1, 0, 0, 0] : List UInt8) ≠ (columnTensor .Shared).element [1, 0] := by decide
    exact ⟨_, rfl, hdiffer⟩

end MetalNative
