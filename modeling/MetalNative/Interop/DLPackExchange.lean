import MetalNative.Interop.DLPack
import MetalNative.Core.ViewSafety

namespace MetalNative

open ByteTensor

/-!
# What an exchange keeps

* `round_trip` — a contiguous tensor at the beginning of its buffer comes back with its shape and
  its elements.  Booleans come back as bytes: `exchangedDtype`.
* `import_cpu` — a dense tensor in CPU memory is imported element by element.
* `dlpack_exchange` — both, for the tensors that chains of views lead to.
-/

open Broadcast (Within)
open Strided (linear position rowMajorStrides)

/-! ### Data types -/

/-- The data type that a tensor comes back with. -/
def exchangedDtype : MNDType → MNDType
  | .Bool => .UInt8
  | d => d

theorem dldtypeToMndtype_export (d : MNDType) :
    dldtypeToMndtype (mndtypeToDldtype d) = .ok (exchangedDtype d) := by
  cases d <;> rfl

theorem dtypeSize_exchanged (d : MNDType) : dtypeSize (exchangedDtype d) = dtypeSize d := by
  cases d <;> rfl

/-! ### Sizes and strides -/

theorem totalBytes_eq (dtype : MNDType) (ds : List ℕ) (h : ds.prod * dtypeSize dtype < 2 ^ 63) :
    totalBytes dtype (ds.map Nat.cast) = ds.prod * dtypeSize dtype := by
  have hfold : ∀ (ds : List ℕ) (total : ℕ), total < sizeTRange →
      (ds.map Nat.cast : List ℤ).foldl (fun total d => (total * toSizeT d) % sizeTRange) total
        = total * ds.prod % sizeTRange := by
    intro ds
    induction ds with
    | nil =>
      intro total htotal
      simp [Nat.mod_eq_of_lt htotal]
    | cons d ds ih =>
      intro total _
      have hd : toSizeT ((d : ℕ) : ℤ) = d % sizeTRange := by
        rw [toSizeT, ← Int.natCast_mod, Int.toNat_natCast]
      have hmod : total * (d % sizeTRange) * ds.prod ≡ total * d * ds.prod [MOD sizeTRange] :=
        ((Nat.mod_modEq d sizeTRange).mul_left total).mul_right ds.prod
      rw [List.map_cons, List.foldl_cons, ih _ (Nat.mod_lt _ (by decide)), hd, List.prod_cons,
        Nat.mod_mul_mod, ← Nat.mul_assoc]
      exact hmod
  have hsmall : dtypeSize dtype < sizeTRange := by cases dtype <;> decide
  rw [totalBytes, hfold ds _ hsmall, Nat.mul_comm, Nat.mod_eq_of_lt]
  unfold sizeTRange
  omega

/-- The loop over the dimensions gives row-major strides. -/
theorem rowMajorLoop_eq {ds : List ℕ} (hpos : 0 < ds.prod) (hlt : ds.prod < 2 ^ 63) :
    rowMajorLoop (ds.map Nat.cast) = ((rowMajorStrides ds).map Nat.cast, ((ds.prod : ℕ) : ℤ)) := by
  induction ds with
  | nil => rfl
  | cons d ds ih =>
    rw [List.prod_cons] at hpos hlt
    have hd : 0 < d := Nat.pos_of_mul_pos_right hpos
    have htail : 0 < ds.prod := Nat.pos_of_mul_pos_left hpos
    have hle : ds.prod ≤ d * ds.prod := Nat.le_mul_of_pos_left _ hd
    have hprod : toInt64 (((ds.prod : ℕ) : ℤ) * (d : ℕ)) = ((d * ds.prod : ℕ) : ℤ) := by
      rw [← Nat.cast_mul, Nat.mul_comm]
      exact toInt64_natCast hlt
    rw [List.map_cons, rowMajorLoop, ih htail (by omega), List.prod_cons]
    simp only [hprod, rowMajorStrides, List.map_cons]

namespace DLTensor

/-- The strides are null, or those of a dense tensor. -/
def Dense (dl : DLTensor) : Prop :=
  dl.strides = none ∨ ∃ strides, dl.strides = some strides ∧ dl.shape.isContiguous strides = true

/-- The strides of a dense tensor lead to the row-major positions. -/
theorem linear_of_dense {dl : DLTensor} (hdense : dl.Dense) (hnonneg : ∀ d ∈ dl.shape, 0 ≤ d)
    (hlt : dl.shape.bounds.prod < 2 ^ 63) {idx : List ℕ} (hidx : dl.shape.InRange idx) :
    linear (dl.importStrides.map toSizeT) idx = position dl.shape.bounds idx := by
  unfold importStrides
  rcases hdense with hnone | ⟨strides, hsome, hc⟩
  · have hpos : 0 < dl.shape.bounds.prod := Strided.Within.prod_pos hidx
    rw [hnone, MNShape.eq_map_bounds hnonneg, MNShape.bounds_map_natCast]
    simp only
    rw [rowMajorLoop_eq hpos hlt, ← MNShape.contiguousStrides_eq hpos hlt]
    exact MNShape.linear_contiguousStrides hlt hidx
  · rw [hsome]
    rw [MNShape.eq_map_bounds hnonneg] at hc
    exact MNShape.linear_of_isContiguous hc hlt hidx

end DLTensor

/-! ### CPU tensors -/

variable {proc : ProcessMemory}

/-- A dense tensor in CPU memory is imported element by element. -/
theorem import_cpu {dl : DLTensor} {dtype : MNDType}
    {answer : Except MNException (ℕ → UInt8)} {r : ByteTensor}
    (hdtype : dldtypeToMndtype dl.dtype = .ok dtype)
    (hdevice : dl.deviceType = kDLCPU ∨ dl.deviceType = kDLCUDAHost)
    (hnonneg : ∀ d ∈ dl.shape, 0 ≤ d) (hsmall : dl.shape.bounds.prod * dtypeSize dtype < 2 ^ 63)
    (hdense : dl.Dense) (h : fromDlpack proc (some dl) answer = some (.ok r)) :
    r.dtype = dtype ∧ r.shape = dl.shape ∧ ∀ idx, dl.shape.InRange idx →
      r.element idx = dl.element proc.memory (dtypeSize dtype) idx := by
  have hmetal : ¬ dl.deviceType = kDLMetal := by
    rcases hdevice with hcpu | hcpu <;> rw [hcpu] <;> decide
  simp only [fromDlpack, hdtype, if_neg hmetal, if_pos hdevice, importCpu] at h
  obtain ⟨outcome, hempty, hok⟩ := Option.map_eq_some_iff.mp h
  cases outcome with
  | error e => cases hok
  | ok result =>
    obtain rfl := Except.ok.inj hok
    obtain ⟨hshape, hd, hoffset, hstrides, hplaced⟩ :=
      empty_spec hnonneg hsmall hempty
    refine ⟨hd, hshape, ?_⟩
    intro idx hidx
    have helem : result.elem = dtypeSize dtype := by rw [elem, hd]
    have hidx' : result.shape.InRange idx := by rwa [hshape]
    have hprod := hplaced.prod_lt
    have hlinear : linear result.sizeStrides idx = position dl.shape.bounds idx := by
      rw [hshape] at hprod
      rw [sizeStrides, hstrides]
      conv_lhs => rw [MNShape.eq_map_bounds hnonneg]
      exact MNShape.linear_contiguousStrides hprod hidx
    have haddress : result.address idx = dtypeSize dtype * position dl.shape.bounds idx := by
      rw [hplaced.address_eq hidx', hoffset, helem, hlinear, Nat.zero_add]
    have hrow : (position dl.shape.bounds idx + 1) * dtypeSize dtype
        ≤ dl.shape.bounds.prod * dtypeSize dtype :=
      Nat.mul_le_mul_right _ (Strided.position_lt hidx)
    rw [Nat.add_mul, Nat.one_mul, Nat.mul_comm (position dl.shape.bounds idx)] at hrow
    have hnbytes : result.nbytes = dl.shape.bounds.prod * dtypeSize dtype := by
      rw [hplaced.nbytes_eq, hshape, helem]
    rw [hshape] at hprod
    -- byte by byte: the copy put it where the row-major strides of the result look for it
    change (List.range result.elem).map (fun b =>
      (result.buffer.store result.offset result.nbytes fun i =>
        proc.memory ((dl.data + dl.byteOffset + i) % sizeTRange)).bytes
          (result.address idx + b)) = _
    rw [helem]
    apply List.map_congr_left
    intro b hb
    have hb' : b < dtypeSize dtype := List.mem_range.mp hb
    have hin : 0 ≤ dtypeSize dtype * position dl.shape.bounds idx + b ∧
        dtypeSize dtype * position dl.shape.bounds idx + b
          < 0 + dl.shape.bounds.prod * dtypeSize dtype := by omega
    simp only [MTLBuffer.store, haddress, hoffset, hnbytes, if_pos hin]
    rw [srcOff_eq, DLTensor.linear_of_dense hdense hnonneg hprod hidx]
    congr 1
    unfold sizeTRange
    omega

/-! ### Round trips -/

/-- The buffer of a tensor is in the memory of the process, from `base` on. -/
structure Resides (proc : ProcessMemory) (t : ByteTensor) (base : ℕ) : Prop where
  base_pos : 0 < base
  below : base + t.buffer.length < sizeTRange
  bytes : ∀ i < t.buffer.length, proc.memory (base + i) = t.buffer.bytes i

/-- The pages of a range of memory are readable, and Metal makes a buffer of them. -/
def ProcessMemory.Wraps (proc : ProcessMemory) (ptr size : ℕ) : Prop :=
  isRangeCpuReadable proc (alignedAddr ptr) (totalLength ptr size) = true ∧
    proc.newBufferWithBytesNoCopy (alignedAddr ptr) (totalLength ptr size) = true

theorem wrapExternal_ok {ptr size : ℕ} (hptr : 0 < ptr) (hsize : 0 < size)
    (h : proc.Wraps ptr size) :
    wrapExternal proc ptr size = .ok (⟨totalLength ptr size,
      fun i => proc.memory (alignedAddr ptr + i)⟩, alignmentOffset ptr) := by
  obtain ⟨hreadable, hbuffer⟩ := h
  unfold wrapExternal
  rw [if_neg (Nat.ne_of_gt hptr), if_neg (Nat.ne_of_gt hsize)]
  simp [hreadable, hbuffer]

/-- The alignment is undone by the offset. -/
theorem alignedAddr_add (ptr : ℕ) : alignedAddr ptr + alignmentOffset ptr = ptr := by
  unfold alignmentOffset alignedAddr
  omega

theorem alignmentOffset_lt (ptr : ℕ) : alignmentOffset ptr < kGPUPageSize := by
  unfold alignmentOffset alignedAddr kGPUPageSize
  omega

/-- The tensor comes back with its shape, its data type (a Boolean as a byte) and its elements. -/
def RoundTrips (proc : ProcessMemory) (base : ℕ) (t : ByteTensor) : Prop :=
  ∃ dl r, toDlpack t base = .ok dl ∧ (∀ answer, fromDlpack proc (some dl) answer = some (.ok r)) ∧
    r.dtype = exchangedDtype t.dtype ∧ r.shape = t.shape ∧
    ∀ idx, t.shape.InRange idx → r.element idx = t.element idx

/-- A contiguous tensor at the beginning of its buffer makes the round trip. -/
theorem round_trip {t : ByteTensor} {base : ℕ} (hp : t.Placed)
    (hc : t.isContiguous = true) (hmode : t.mode = .Shared) (hoffset : t.offset = 0)
    (hnumel : t.numel ≠ 0) (hres : Resides proc t base) (hwraps : proc.Wraps base t.nbytes) :
    RoundTrips proc base t := by
  have hcontents : t.contents base = base := by rw [contents, hmode]
  have hprod : 0 < t.shape.bounds.prod := by
    rw [hp.numel_eq] at hnumel
    omega
  have hbytes : totalBytes (exchangedDtype t.dtype) t.shape = t.nbytes := by
    rw [hp.nbytes_eq, hp.shape_eq, MNShape.bounds_map_natCast, elem,
      ← dtypeSize_exchanged]
    apply totalBytes_eq
    rw [dtypeSize_exchanged]
    exact hp.small
  have hpos : 0 < t.nbytes := by
    rw [hp.nbytes_eq]
    exact Nat.mul_pos hprod t.elem_pos
  have hdata : (t.contents base + t.offset + t.offset) % sizeTRange = base := by
    have := hres.below
    rw [hcontents, hoffset, Nat.add_zero, Nat.mod_eq_of_lt]
    omega
  let r : ByteTensor :=
    { buffer := ⟨totalLength base t.nbytes, fun i => proc.memory (alignedAddr base + i)⟩
      mode := .Shared
      shape := t.shape
      strides := t.strides
      dtype := exchangedDtype t.dtype
      offset := alignmentOffset base }
  have hrelem : r.elem = t.elem := dtypeSize_exchanged t.dtype
  refine ⟨_, r, if_pos hc, ?_, rfl, rfl, ?_⟩
  · intro answer
    simp only [fromDlpack, dldtypeToMndtype_export, if_true]
    rw [hdata, hbytes, wrapExternal_ok hres.base_pos hpos hwraps]
    rfl
  · intro idx hidx
    have hinside := hp.inside idx hidx
    have hfits := hp.fits idx hidx
    rw [hoffset, Nat.zero_add] at hinside hfits
    have hlt := alignmentOffset_lt base
    -- the address in the new buffer is ahead by what the pages begin before the tensor
    have haddress : r.address idx = alignmentOffset base + t.address idx := by
      rw [hp.address_eq hidx, hoffset, Nat.zero_add]
      change (alignmentOffset base + srcOff r.elem idx t.strides) % sizeTRange = _
      rw [hrelem, srcOff_eq, Nat.add_mod_mod]
      apply Nat.mod_eq_of_lt
      change alignmentOffset base + t.elem * linear t.sizeStrides idx < sizeTRange
      unfold kGPUPageSize at hlt
      unfold sizeTRange
      omega
    unfold element
    rw [hrelem]
    apply List.map_congr_left
    intro b hb
    have hb' : b < t.elem := List.mem_range.mp hb
    change proc.memory (alignedAddr base + (r.address idx + b)) = _
    have hsum : alignedAddr base + (r.address idx + b) = base + (t.address idx + b) := by
      have halign := alignedAddr_add base
      omega
    rw [hsum]
    apply hres.bytes
    rw [hp.address_eq hidx, hoffset]
    omega

/-- A tensor without elements cannot be wrapped. -/
theorem import_empty {t : ByteTensor} {base : ℕ} (hp : t.Placed)
    (hc : t.isContiguous = true) (hnumel : t.numel = 0) :
    ∃ dl, toDlpack t base = .ok dl ∧ ∀ answer, ∃ e,
      fromDlpack proc (some dl) answer = some (.error e) ∧ e.code = .InvalidArgument := by
  have hprod : t.shape.bounds.prod = 0 := by
    rw [hp.numel_eq] at hnumel
    omega
  have hbytes : totalBytes (exchangedDtype t.dtype) t.shape = 0 := by
    rw [hp.shape_eq, totalBytes_eq, hprod, Nat.zero_mul]
    rw [hprod, Nat.zero_mul]
    decide
  refine ⟨_, if_pos hc, ?_⟩
  intro answer
  simp only [fromDlpack, dldtypeToMndtype_export, if_true]
  rw [hbytes, wrapExternal]
  by_cases hnull : (t.contents base + t.offset + t.offset) % sizeTRange = 0
  · rw [if_pos hnull]
    exact ⟨_, rfl, rfl⟩
  · rw [if_neg hnull, if_pos rfl]
    exact ⟨_, rfl, rfl⟩

/-- **DLPack exchange.**  A tensor that a chain of views leads to is refused unless it is
    contiguous, cannot be imported without elements, and makes the round trip from the beginning of
    its buffer; dense tensors in CPU memory are imported element by element. -/
theorem dlpack_exchange {shape : MNShape} {dtype : MNDType} {mode : StorageMode}
    {answer : Except MNException (ℕ → UInt8)} {t : ByteTensor} {s : ViewState}
      {proc : ProcessMemory}
    {base : ℕ} (hnonneg : ∀ d ∈ shape, 0 ≤ d) (hsize : shape.prod * dtypeSize dtype ≤ 2 ^ 63 - 1)
    (hempty : ByteTensor.empty shape dtype mode answer = some (.ok t))
    (hrun : Run.Runs viewStep FittingCall (viewInit t) s) (hmode : s.tensor.mode = .Shared)
    (hres : Resides proc s.tensor base) :
    (s.tensor.isContiguous = false → toDlpack s.tensor base
      = .error ⟨.InvalidArgument, "DLPack export requires contiguous tensor"⟩) ∧
    (s.tensor.isContiguous = true → s.tensor.numel = 0 → ∃ dl, toDlpack s.tensor base = .ok dl ∧
      ∀ answer, ∃ e, fromDlpack proc (some dl) answer = some (.error e) ∧
        e.code = .InvalidArgument) ∧
    (s.tensor.isContiguous = true → s.tensor.numel ≠ 0 → s.tensor.offset = 0 →
      proc.Wraps base s.tensor.nbytes → RoundTrips proc base s.tensor) ∧
    ∀ (dl : DLTensor) (dtype : MNDType) (answer : Except MNException (ℕ → UInt8))
      (r : ByteTensor), dldtypeToMndtype dl.dtype = .ok dtype →
      (dl.deviceType = kDLCPU ∨ dl.deviceType = kDLCUDAHost) → (∀ d ∈ dl.shape, 0 ≤ d) →
      dl.shape.bounds.prod * dtypeSize dtype < 2 ^ 63 → dl.Dense →
      fromDlpack proc (some dl) answer = some (.ok r) →
      r.dtype = dtype ∧ r.shape = dl.shape ∧ ∀ idx, dl.shape.InRange idx →
        r.element idx = dl.element proc.memory (dtypeSize dtype) idx := by
  have hplaced := (chain_invariant hnonneg hsize hempty hrun).1
  refine ⟨?_, ?_, ?_, ?_⟩
  · intro hc
    unfold toDlpack
    simp [hc]
  · exact import_empty hplaced
  · intro hc hnumel hoffset hwraps
    exact round_trip hplaced hc hmode hoffset hnumel hres hwraps
  · intro dl dtype answer r hdtype hdevice hdims hsmall hdense himport
    exact import_cpu hdtype hdevice hdims hsmall hdense himport

/-- A process whose memory counts up from `base` and is readable throughout. -/
def countingMemory (base : ℕ) : ProcessMemory where
  memory := fun a => UInt8.ofNat (a - base)
  machVmRegion := fun a => if a < 2 ^ 63 then some ⟨0, 2 ^ 63, true⟩ else none
  region_ends := by
    intro a r h
    split_ifs at h with ha
    obtain rfl := Option.some.inj h
    omega
  newBufferWithBytesNoCopy := fun _ _ => true

/-- A tensor of bytes in a block that counts up from zero. -/
def countingTensor (shape : MNShape) (strides : List ℤ) (offset : ℕ) : ByteTensor where
  buffer := ⟨64, UInt8.ofNat⟩
  mode := .Shared
  shape := shape
  strides := strides
  dtype := .UInt8
  offset := offset

theorem resides_counting (shape : MNShape) (strides : List ℤ) (offset : ℕ) :
    Resides (countingMemory 70000) (countingTensor shape strides offset) 70000 := by
  refine ⟨by decide, ?_, ?_⟩
  · change 70000 + 64 < sizeTRange
    decide
  intro i _
  change UInt8.ofNat (70000 + i - 70000) = UInt8.ofNat i
  rw [Nat.add_sub_cancel_left]

/-- The first row of a tensor makes the round trip. -/
theorem dlpack_exchange_row :
    RoundTrips (countingMemory 70000) 70000 (countingTensor [1, 3] [3, 1] 0) := by
  have hempty : empty [2, 3] .UInt8 .Shared (.ok UInt8.ofNat)
      = some (.ok (countingTensor [2, 3] [3, 1] 0)) := rfl
  have hexec : Run.exec viewStep (viewInit (countingTensor [2, 3] [3, 1] 0)) [.slice 0 0 1]
      = some ⟨countingTensor [1, 3] [3, 1] 0, _⟩ := rfl
  have hwraps : (countingMemory 70000).Wraps 70000 3 := ⟨by decide, rfl⟩
  exact (dlpack_exchange (by decide) (by decide) hempty (Run.runs_exec hexec (by decide)) rfl
    (resides_counting _ _ _)).2.2.1 rfl (by decide) rfl hwraps

/-- What an exchange does not keep: columns are refused; a Boolean comes back as a byte; a slice
    that begins inside its buffer comes back from behind its first element, since the pointer and
    `byte_offset` both count its offset; and the strides of a tensor in CPU memory are not
    followed. -/
theorem dlpack_exchange_loses :
    (∃ t s, ByteTensor.empty [2, 3] .UInt8 .Shared (.ok UInt8.ofNat) = some (.ok t) ∧
      Run.Reaches viewStep (viewInit t) s ∧ s.tensor.shape = [2, 2] ∧
      ∃ e, toDlpack s.tensor 70000 = .error e) ∧
    dldtypeToMndtype (mndtypeToDldtype .Bool) = .ok .UInt8 ∧
    (∃ t s, ByteTensor.empty [4] .UInt8 .Shared (.ok UInt8.ofNat) = some (.ok t) ∧
      Run.Reaches viewStep (viewInit t) s ∧ s.tensor.shape = [2] ∧
      ¬ RoundTrips (countingMemory 70000) 70000 s.tensor) ∧
    ∃ dl r idx, dl.deviceType = kDLCPU ∧ dl.strides = some [1, 2] ∧
      fromDlpack (countingMemory 0) (some dl) (.ok fun _ => 0) = some (.ok r) ∧
      dl.shape.InRange idx ∧ r.element idx ≠ dl.element (countingMemory 0).memory 1 idx := by
  refine ⟨?_, rfl, ?_, ?_⟩
  · have hexec : Run.exec viewStep (viewInit (countingTensor [2, 3] [3, 1] 0)) [.slice 1 0 2]
        = some ⟨countingTensor [2, 2] [3, 1] 0, _⟩ := rfl
    exact ⟨_, _, rfl, Run.reaches_exec hexec, rfl, _, rfl⟩
  · have hexec : Run.exec viewStep (viewInit (countingTensor [4] [1] 0)) [.slice 0 1 3]
        = some ⟨countingTensor [2] [1] 1, _⟩ := rfl
    refine ⟨_, _, rfl, Run.reaches_exec hexec, rfl, ?_⟩
    rintro ⟨dl, r, hdl, hr, -, -, helement⟩
    obtain rfl := Except.ok.inj hdl
    obtain rfl := Except.ok.inj (Option.some.inj (hr (.ok fun _ => 0)))
    have hfirst := helement [0] ⟨by decide, trivial⟩
    revert hfirst
    decide
  · refine ⟨⟨16, kDLCPU, ⟨kDLUInt, 8, 1⟩, [2, 2], some [1, 2], 0⟩, _, [0, 1], rfl, rfl, rfl,
      ⟨by decide, by decide, trivial⟩, ?_⟩
    decide

end MetalNative
