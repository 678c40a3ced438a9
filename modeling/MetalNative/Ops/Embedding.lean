import MetalNative.Core.View
import MetalNative.Core.Words
import MetalNative.Lib.ThreadLoop
import MetalNative.Matmul.HostDispatch
import Mathlib.Data.Nat.Digits.Defs

namespace MetalNative

open Broadcast (Within)
open Strided (linear position unravel)
open ThreadLoop List ByteTensor

/-!
# `embedding`

A translation of `embedding` in `embedding.mm` and of the lookup kernels of
`embedding_kernel.metal`.  The indices are a view of a buffer of bytes: the host accepts every
integer type and every strides, while the kernel reads words of four bytes one after the other.

* `EmbeddingCall`, `embedding` — the host; `EmbeddingArgs.thread` — the kernel.
* `EmbeddingCall.LookedUp` — what a launch is to do.
* `EmbeddingCall.Addressed` — where it does, whatever the indices and the table hold;
  `embedding_lookup_iff` says that it is exactly there.
-/

/-! ### Integers in memory -/

/-- `dtype_is_integer`. -/
def dtypeIsInteger : MNDType → Bool
  | .Int64 | .Int32 | .Int16 | .Int8 | .UInt8 => true
  | _ => false

/-- The unsigned value of bytes, the lowest one first. -/
def unsignedValue (bytes : List UInt8) : ℕ := Nat.ofDigits 256 (bytes.map UInt8.toNat)

/-- Their value in two's complement. -/
def signedValue (bytes : List UInt8) : ℤ := (unsignedValue bytes : ℤ).bmod (256 ^ bytes.length)

/-- The integer that an element of a data type holds. -/
def integerValue (dtype : MNDType) (bytes : List UInt8) : ℤ :=
  if dtype = .UInt8 then unsignedValue bytes else signedValue bytes

/-! ### The kernel -/

/-- The arguments of a launch: the bytes of the indices, the table, and the constants. -/
structure EmbeddingArgs (α : Type) where
  indices : ℕ → UInt8
  weight : ℕ → α
  num_indices : ℕ
  vocab_size : ℕ
  embed_dim : ℕ

/-- What a thread does: the words of `indices` and the cells of `weight` that it reads, and its
    stores to `output`. -/
structure LookupThread (α : Type) where
  indexReads : List ℕ := []
  weightReads : List ℕ := []
  stores : List (ℕ × α) := []

namespace EmbeddingArgs

variable {α : Type} [Zero α] (a : EmbeddingArgs α)

/-- `indices[gid]`, an `int32_t`. -/
def idx (gid : ℕ) : ℤ := signedValue ((List.range 4).map fun b => a.indices (4 * gid + b))

/-- `weight_offset + d`. -/
def weightCell (gid d : ℕ) : ℕ := toUInt (uintOfInt (a.idx gid) * a.embed_dim + d)

/-- `output_offset + d`. -/
def outputCell (gid d : ℕ) : ℕ := toUInt (gid * a.embed_dim + d)

/-- `embedding_lookup_fp32` and `embedding_lookup_fp16`, the thread at a position. -/
def thread (gid : ℕ) : LookupThread α :=
  if gid ≥ a.num_indices then {}
  else if a.idx gid < 0 ∨ a.idx gid ≥ int32OfUInt a.vocab_size then
    -- out of bounds: the row is filled with zeros
    { indexReads := [gid]
      stores := (List.range a.embed_dim).map fun d => (a.outputCell gid d, 0) }
  else
    { indexReads := [gid]
      weightReads := (List.range a.embed_dim).map (a.weightCell gid)
      stores := (List.range a.embed_dim).map fun d =>
        (a.outputCell gid d, a.weight (a.weightCell gid d)) }

end EmbeddingArgs

/-! ### The host -/

/-- The arguments of `embedding`.  The dimensions of a tensor are not negative, and its elements
    can be counted. -/
structure EmbeddingCall (α : Type) where
  indices : ByteTensor
  weight : MNTensor α
  nonneg : ∀ d ∈ indices.shape, 0 ≤ d
  countable : indices.shape.bounds.prod < 2 ^ 63

/-- A launch. -/
structure EmbeddingRun (α : Type) where
  kernelName : String
  args : EmbeddingArgs α
  grid : ℕ

/-- The choice of the kernel. -/
def embeddingKernelName (dtype : MNDType) : Except MNException String :=
  if dtype = .Float32 then .ok "embedding_lookup_fp32"
  else if dtype = .Float16 then .ok "embedding_lookup_fp16"
  else .error ⟨.InvalidArgument, "embedding: unsupported weight dtype"⟩

namespace EmbeddingCall

variable {α : Type} (call : EmbeddingCall α)

/-- `vocab_size`. -/
def vocabSize : ℕ := call.weight.dim 0

/-- `embed_dim`. -/
def embedDim : ℕ := call.weight.dim 1

/-- `output_shape`. -/
def outputShape : MNShape := call.indices.shape ++ [(call.embedDim : ℤ)]

/-- What the launch is given. -/
def args : EmbeddingArgs α where
  indices := call.indices.rawData
  weight := call.weight.data
  num_indices := toUInt (toSizeT call.indices.numel)
  vocab_size := toUInt call.vocabSize
  embed_dim := toUInt call.embedDim

/-- The checks before the output is allocated. -/
def check : Except MNException Unit := do
  mnCheck (dtypeIsInteger call.indices.dtype) "embedding: indices must be integer type"
  mnCheck (call.weight.ndim = 2) "embedding: weight must be 2D [vocab_size, embed_dim]"
  mnCheck (call.weight.isContiguous) "embedding: weight must be contiguous"

/-- The checks of the constants. -/
def uintCheck : Except MNException Unit := do
  mnCheck (call.indices.numel ≤ UINT32_MAX) "embedding: dimension exceeds uint32_t range"
  mnCheck (call.vocabSize ≤ UINT32_MAX) "embedding: dimension exceeds uint32_t range"
  mnCheck (call.embedDim ≤ UINT32_MAX) "embedding: dimension exceeds uint32_t range"

/-- `embedding`, up to the launch; the parameters are what the allocator and the registry
    answer. -/
def embedding (allocate : MNShape → MNDType → Except MNException Unit)
    (pipeline : String → Except MNException Unit) : Except MNException (EmbeddingRun α) := do
  call.check
  emptyTensorCheck call.outputShape call.weight.dtype
    (allocate call.outputShape call.weight.dtype)
  let kernel_name ← embeddingKernelName call.weight.dtype
  pipeline kernel_name
  call.uintCheck
  return ⟨kernel_name, call.args, toSizeT call.indices.numel⟩

end EmbeddingCall

namespace EmbeddingRun

variable {α : Type} [Zero α] (run : EmbeddingRun α)

/-- The threads of the grid. -/
def threads : List (LookupThread α) :=
  (List.range run.grid).map fun tid => run.args.thread (toUInt tid)

/-- Their stores. -/
def stores : List (ℕ × α) := run.threads.flatMap fun t => t.stores

/-- The words of `indices` that they read. -/
def indexReads : List ℕ := run.threads.flatMap fun t => t.indexReads

/-- The cells of `weight` that they read. -/
def weightReads : List ℕ := run.threads.flatMap fun t => t.weightReads

end EmbeddingRun

/-! ### What a launch is to do -/

namespace EmbeddingCall

variable {α : Type} [Zero α] (call : EmbeddingCall α)

/-- The number of indices. -/
def count : ℕ := call.indices.shape.bounds.prod

/-- The index at a multi-index. -/
def index (idx : List ℕ) : ℤ := integerValue call.indices.dtype (call.indices.element idx)

/-- The element that the output is to have. -/
def looked (idx : List ℕ) (d : ℕ) : α :=
  if 0 ≤ call.index idx ∧ call.index idx < call.vocabSize then
    call.weight.elementAt [(call.index idx).toNat, d]
  else 0

/-- Where the output has it. -/
def place (idx : List ℕ) (d : ℕ) : ℕ :=
  position (call.indices.shape.bounds ++ [call.embedDim]) (idx ++ [d])

/-- A byte belongs to an element of the indices. -/
def Owns (byte : ℕ) : Prop :=
  ∃ idx, call.indices.shape.InRange idx ∧
    ∃ b < call.indices.elem, byte = call.indices.address idx + b

/-- Every element of the output is written exactly once, with the element that it is to have, and
    nothing is read outside `indices` and `weight`. -/
structure LookedUp (run : EmbeddingRun α) : Prop where
  rows : ∀ idx, call.indices.shape.InRange idx → ∀ d < call.embedDim,
    run.stores.filter (fun w => w.1 = call.place idx d) = [(call.place idx d, call.looked idx d)]
  indexReads : ∀ g ∈ run.indexReads, ∀ b < 4, call.Owns (call.indices.offset + (4 * g + b))
  weightReads : ∀ r ∈ run.weightReads, r < call.vocabSize * call.embedDim

/-- The call with other contents of its buffers. -/
def filled (bytes : ℕ → UInt8) (entries : ℕ → α) : EmbeddingCall α where
  indices := { call.indices with buffer := { call.indices.buffer with bytes } }
  weight := { call.weight with buffer := entries }
  nonneg := call.nonneg
  countable := call.countable

/-- The words that the kernel reads are those of elements. -/
def WordsOwned : Prop :=
  4 ≤ call.indices.elem ∧ ∀ g < call.count, ∃ idx, call.indices.shape.InRange idx ∧
    call.indices.address idx = call.indices.offset + call.indices.elem * (4 * g / call.indices.elem)

/-- The indices are the words that the kernel reads. -/
def WordsIndices : Prop :=
  call.indices.dtype = .Int32 ∧ ∀ idx, call.indices.shape.InRange idx →
    call.indices.address idx = call.indices.offset + 4 * position call.indices.shape.bounds idx

/-- The condition: there is no index, or the output has no more than `2 ^ 32` elements and the words
    are the indices, with a table whose rows an `int32_t` counts and whose cells a `uint` addresses;
    for a table without cells it is enough that the words lie in the indices. -/
def Addressed : Prop :=
  call.count = 0 ∨ call.count * call.embedDim ≤ uintRange ∧
    (call.WordsOwned ∧ (call.vocabSize = 0 ∨ call.embedDim = 0) ∨
      call.WordsIndices ∧ call.vocabSize < 2 ^ 31 ∧ call.vocabSize * call.embedDim ≤ uintRange)

end EmbeddingCall

/-! ### Bytes of a number -/

theorem unsignedValue_bytesOf (n r : ℕ) : unsignedValue (bytesOf n r) = r % 256 ^ n := by
  induction n with
  | zero => simp [unsignedValue, bytesOf, Nat.mod_one]
  | succ n ih =>
    have hsplit : bytesOf (n + 1) r = bytesOf n r ++ [UInt8.ofNat (r / 256 ^ n)] := by
      simp [bytesOf, range_succ]
    have hlen : ((bytesOf n r).map UInt8.toNat).length = n := by simp [bytesOf]
    have hbyte : (UInt8.ofNat (r / 256 ^ n)).toNat = r / 256 ^ n % 256 := by simp
    unfold unsignedValue at ih ⊢
    rw [hsplit, map_append, Nat.ofDigits_append, ih, hlen, map_singleton,
      Nat.ofDigits_singleton, hbyte, Nat.mod_pow_succ]

theorem signedValue_bytesOf (n r : ℕ) : signedValue (bytesOf n r) = (r : ℤ).bmod (256 ^ n) := by
  have hlen : (bytesOf n r).length = n := by simp [bytesOf]
  unfold signedValue
  rw [hlen, unsignedValue_bytesOf, Int.natCast_mod]
  exact Int.emod_bmod ..

/-- Memory that holds a number from an address on. -/
def holding (base r i : ℕ) : UInt8 := UInt8.ofNat (r / 256 ^ (i - base))

theorem map_holding (base n r : ℕ) :
    ((range n).map fun b => holding base r (base + b)) = bytesOf n r := by
  unfold holding bytesOf
  simp

/-! ### The launch -/

namespace EmbeddingArgs

variable {α : Type} [Zero α] (a : EmbeddingArgs α)

/-- The element that a thread stores. -/
def value (gid d : ℕ) : α :=
  if a.idx gid < 0 ∨ a.idx gid ≥ int32OfUInt a.vocab_size then 0 else a.weight (a.weightCell gid d)

theorem thread_stores {gid : ℕ} (h : gid < a.num_indices) :
    (a.thread gid).stores = (range a.embed_dim).map fun d =>
      (a.outputCell gid d, a.value gid d) := by
  unfold thread value
  rw [if_neg (Nat.not_le.mpr h)]
  split_ifs <;> rfl

theorem thread_indexReads {gid : ℕ} (h : gid < a.num_indices) :
    (a.thread gid).indexReads = [gid] := by
  unfold thread
  rw [if_neg (Nat.not_le.mpr h)]
  split_ifs <;> rfl

end EmbeddingArgs

open EmbeddingArgs

namespace EmbeddingRun

variable {α : Type} [Zero α] {run : EmbeddingRun α}

/-- A grid of one thread for each index. -/
structure Sized (run : EmbeddingRun α) : Prop where
  grid : run.grid = run.args.num_indices
  count_lt : run.args.num_indices < uintRange

theorem Sized.threads_eq (h : run.Sized) :
    run.threads = (range run.args.num_indices).map run.args.thread := by
  unfold threads
  rw [h.grid]
  apply map_congr_left
  intro tid ht
  have hcount := h.count_lt
  rw [toUInt_of_lt ((mem_range.mp ht).trans hcount)]

theorem Sized.mem_indexReads (h : run.Sized) {g : ℕ} :
    g ∈ run.indexReads ↔ g < run.args.num_indices := by
  unfold indexReads
  rw [h.threads_eq, flatMap_map]
  simp only [mem_flatMap, mem_range]
  constructor
  · rintro ⟨gid, hgid, hg⟩
    rw [run.args.thread_indexReads hgid, mem_singleton] at hg
    omega
  · intro hg
    exact ⟨g, hg, by rw [run.args.thread_indexReads hg]; exact mem_singleton_self g⟩

theorem Sized.stores_flatMap (h : run.Sized) :
    run.stores = (range run.args.num_indices).flatMap fun gid =>
      (range run.args.embed_dim).map fun d =>
        (run.args.outputCell gid d, run.args.value gid d) := by
  unfold stores
  rw [h.threads_eq, flatMap_map]
  apply flatMap_congr
  intro gid hgid
  exact run.args.thread_stores (mem_range.mp hgid)

/-- Where no cell of the output wraps, the threads fill it in order. -/
theorem Sized.stores_eq (h : run.Sized)
    (hsmall : run.args.num_indices * run.args.embed_dim ≤ uintRange) :
    run.stores = (range (run.args.embed_dim * run.args.num_indices)).map fun i =>
      (i, run.args.value (i / run.args.embed_dim) (i % run.args.embed_dim)) := by
  rw [h.stores_flatMap, map_eq_flatMap, flatMap_range_mul]
  apply flatMap_congr
  intro gid hgid
  rw [map_eq_flatMap]
  apply flatMap_congr
  intro d hd
  rw [mem_range] at hgid hd
  have hcell : run.args.embed_dim * gid + d < run.args.embed_dim * run.args.num_indices := by
    have hle := Nat.mul_le_mul_left run.args.embed_dim hgid
    rw [Nat.succ_eq_add_one, Nat.mul_add_one] at hle
    omega
  have houtput : run.args.outputCell gid d = run.args.embed_dim * gid + d := by
    unfold outputCell
    rw [Nat.mul_comm gid]
    rw [Nat.mul_comm run.args.num_indices] at hsmall
    exact toUInt_of_lt (by omega)
  rw [houtput, Nat.mul_add_div (by omega), Nat.div_eq_of_lt hd, Nat.mul_add_mod,
    Nat.mod_eq_of_lt hd, Nat.add_zero]

/-- No store goes beyond the cells that a `uint` addresses. -/
theorem Sized.store_lt (h : run.Sized) {w : ℕ × α} (hw : w ∈ run.stores) : w.1 < uintRange := by
  rw [h.stores_flatMap] at hw
  obtain ⟨gid, -, hw⟩ := mem_flatMap.mp hw
  obtain ⟨d, -, rfl⟩ := mem_map.mp hw
  exact toUInt_lt _

end EmbeddingRun

/-! ### An accepted call -/

namespace EmbeddingCall

variable {α : Type} {call : EmbeddingCall α} {run : EmbeddingRun α}
  {allocate : MNShape → MNDType → Except MNException Unit}
  {pipeline : String → Except MNException Unit}

/-- What is known of a call that is launched. -/
structure Accepted (call : EmbeddingCall α) (run : EmbeddingRun α) : Prop where
  integer : dtypeIsInteger call.indices.dtype = true
  dims : call.weight.dims = [call.vocabSize, call.embedDim]
  contiguous : call.weight.isContiguous = true
  vocab_lt : call.vocabSize < uintRange
  grid : run.grid = call.count
  indices : run.args.indices = call.indices.rawData
  weight : run.args.weight = call.weight.data
  num_indices : run.args.num_indices = call.count
  vocab_size : run.args.vocab_size = call.vocabSize
  embed_dim : run.args.embed_dim = call.embedDim
  count_lt : call.count < uintRange

/-- `numel()` counts the indices. -/
theorem numel_eq (call : EmbeddingCall α) : call.indices.numel = (call.count : ℕ) := by
  unfold numel count
  conv_lhs => rw [MNShape.eq_map_bounds call.nonneg]
  rw [MNShape.numel_map_natCast]
  exact toInt64_natCast call.countable

theorem accepted (h : call.embedding allocate pipeline = .ok run) : call.Accepted run := by
  unfold embedding at h
  obtain ⟨u, hcheck, h⟩ := bind_eq_ok.mp h
  obtain ⟨-, -, h⟩ := bind_eq_ok.mp h
  obtain ⟨name, -, h⟩ := bind_eq_ok.mp h
  obtain ⟨-, -, h⟩ := bind_eq_ok.mp h
  obtain ⟨u', huint, h⟩ := bind_eq_ok.mp h
  obtain rfl := Except.ok.inj h
  obtain ⟨hinteger, hcheck⟩ := mnCheck_bind_eq_ok.mp hcheck
  obtain ⟨hndim, hcheck⟩ := mnCheck_bind_eq_ok.mp hcheck
  have hcontiguous : call.weight.isContiguous = true := by
    unfold mnCheck at hcheck
    split_ifs at hcheck with hc
    exact hc
  obtain ⟨hcount, huint⟩ := mnCheck_bind_eq_ok.mp huint
  obtain ⟨hvocab, huint⟩ := mnCheck_bind_eq_ok.mp huint
  have hdim : call.embedDim ≤ UINT32_MAX := by
    unfold mnCheck at huint
    split_ifs at huint with hd
    exact hd
  rw [numel_eq] at hcount
  have hcount' : call.count ≤ UINT32_MAX := by exact_mod_cast hcount
  have hmax : UINT32_MAX < uintRange := by decide
  have hsize : toSizeT call.indices.numel = call.count := by
    rw [numel_eq]
    apply toSizeT_natCast
    unfold UINT32_MAX uintRange at hcount'
    unfold sizeTRange
    omega
  have hdims : call.weight.dims = [call.vocabSize, call.embedDim] := by
    obtain ⟨v, d, hdims⟩ := length_eq_two.mp hndim
    unfold vocabSize embedDim MNTensor.dim
    rw [hdims]
    rfl
  refine ⟨hinteger, hdims, hcontiguous, by omega, hsize, rfl, rfl, ?_, ?_, ?_, by omega⟩
  · change toUInt (toSizeT call.indices.numel) = call.count
    rw [hsize]
    exact toUInt_of_lt (by omega)
  · exact toUInt_of_lt (by omega)
  · exact toUInt_of_lt (by omega)

namespace Accepted

theorem sized (h : call.Accepted run) : run.Sized :=
  ⟨h.grid.trans h.num_indices.symm, h.num_indices ▸ h.count_lt⟩

/-- The thread at a position reads the word there. -/
theorem idx_eq (h : call.Accepted run) (g : ℕ) :
    run.args.idx g = signedValue ((range 4).map fun b =>
      call.indices.buffer.bytes (call.indices.offset + (4 * g + b))) := by
  unfold idx
  rw [h.indices]
  rfl

end Accepted

variable {idx : List ℕ}

theorem place_eq (hidx : call.indices.shape.InRange idx) (d : ℕ) :
    call.place idx d = position call.indices.shape.bounds idx * call.embedDim + d :=
  Strided.position_concat (Strided.Within.length_eq hidx) _ _

theorem position_lt_count (hidx : call.indices.shape.InRange idx) :
    position call.indices.shape.bounds idx < call.count := Strided.position_lt hidx

/-- A position below the count is one of the indices. -/
theorem inRange_unravel {g : ℕ} (hg : g < call.count) :
    call.indices.shape.InRange (unravel call.indices.shape.bounds g) ∧
      position call.indices.shape.bounds (unravel call.indices.shape.bounds g) = g :=
  ⟨Strided.within_unravel hg, Strided.position_unravel hg⟩

section Rows

variable [Zero α]

/-- Where no cell of the output wraps, its rows are what the threads store. -/
theorem Accepted.rows_iff (h : call.Accepted run)
    (hsmall : call.count * call.embedDim ≤ uintRange)
    (hidx : call.indices.shape.InRange idx) {d : ℕ} (hd : d < call.embedDim) :
    run.stores.filter (fun w => w.1 = call.place idx d) = [(call.place idx d, call.looked idx d)] ↔
      run.args.value (position call.indices.shape.bounds idx) d = call.looked idx d := by
  have hposition := position_lt_count hidx
  have hplace : call.place idx d < call.embedDim * call.count := by
    have hle := Nat.mul_le_mul_left call.embedDim hposition
    rw [Nat.succ_eq_add_one, Nat.mul_add_one, Nat.mul_comm call.embedDim] at hle
    rw [place_eq hidx]
    omega
  rw [h.sized.stores_eq (by rwa [h.num_indices, h.embed_dim]), h.num_indices, h.embed_dim,
    filter_map_range _ _ _ hplace, place_eq hidx, Nat.mul_comm _ call.embedDim,
    Nat.mul_add_div (by omega), Nat.div_eq_of_lt hd, Nat.mul_add_mod, Nat.mod_eq_of_lt hd,
    Nat.add_zero]
  simp

/-- Otherwise some element of the output is never written. -/
theorem Accepted.not_rows (h : call.Accepted run)
    (hlarge : uintRange < call.count * call.embedDim) : ¬ call.LookedUp run := by
  intro hlooked
  have hdim : 0 < call.embedDim := Nat.pos_of_mul_pos_left (Nat.zero_lt_of_lt hlarge)
  have hg : uintRange / call.embedDim < call.count := Nat.div_lt_of_lt_mul (by
    rwa [Nat.mul_comm])
  obtain ⟨hidx, hposition⟩ := inRange_unravel hg
  have hrow := hlooked.rows _ hidx (uintRange % call.embedDim) (Nat.mod_lt _ hdim)
  have hplace := place_eq hidx (uintRange % call.embedDim)
  rw [hposition, Nat.div_add_mod'] at hplace
  have hstore := mem_filter.mp (hrow ▸ mem_singleton_self
    (call.place (unravel call.indices.shape.bounds (uintRange / call.embedDim))
        (uintRange % call.embedDim),
      call.looked (unravel call.indices.shape.bounds (uintRange / call.embedDim))
        (uintRange % call.embedDim)))
  have hlt := h.sized.store_lt hstore.1
  rw [hplace] at hlt
  exact absurd hlt (Nat.lt_irrefl _)

end Rows

/-! ### The words that are read -/

/-- The size of an integer. -/
theorem elem_of_integer {t : ByteTensor} (h : dtypeIsInteger t.dtype = true) :
    t.elem = 1 ∨ t.elem = 2 ∨ t.elem = 4 ∧ t.dtype = .Int32 ∨ t.elem = 8 ∧ t.dtype = .Int64 := by
  unfold ByteTensor.elem
  revert h
  cases t.dtype <;> decide

theorem elem_dvd (t : ByteTensor) : t.elem ∣ sizeTRange := by
  unfold ByteTensor.elem
  cases t.dtype <;> decide

/-- The strides move by whole elements. -/
theorem address_mod (t : ByteTensor) (idx : List ℕ) :
    t.address idx % t.elem = t.offset % t.elem := by
  unfold address
  rw [srcOff_eq, Nat.add_mod_mod, Nat.mod_mod_of_dvd _ (elem_dvd t), Nat.add_mul_mod_self_left]

/-- As many bytes as four for each index do not fit into smaller elements. -/
theorem four_le_elem (hpos : 0 < call.count)
    (howns : ∀ g < call.count, ∀ b < 4, call.Owns (call.indices.offset + (4 * g + b))) :
    4 ≤ call.indices.elem := by
  classical
  have hsub : (Finset.range (4 * call.count)).image (fun i => call.indices.offset + i) ⊆
      (Finset.range call.count ×ˢ Finset.range call.indices.elem).image fun p =>
        call.indices.address (unravel call.indices.shape.bounds p.1) + p.2 := by
    intro byte hbyte
    obtain ⟨i, hi, rfl⟩ := Finset.mem_image.mp hbyte
    rw [Finset.mem_range] at hi
    obtain ⟨idx, hidx, b, hb, heq⟩ := howns (i / 4) (by omega) (i % 4) (by omega)
    rw [Nat.div_add_mod] at heq
    refine Finset.mem_image.mpr ⟨(position call.indices.shape.bounds idx, b), ?_, ?_⟩
    · simpa using ⟨position_lt_count hidx, hb⟩
    · rw [Strided.unravel_position hidx, heq]
  have hinjective : Function.Injective fun i => call.indices.offset + i :=
    fun _ _ heq => Nat.add_left_cancel heq
  have hcard := Finset.card_le_card hsub
  rw [Finset.card_image_of_injective _ hinjective, Finset.card_range] at hcard
  have himage := Finset.card_image_le (s := Finset.range call.count ×ˢ
    Finset.range call.indices.elem) (f := fun p =>
      call.indices.address (unravel call.indices.shape.bounds p.1) + p.2)
  rw [Finset.card_product, Finset.card_range, Finset.card_range, Nat.mul_comm] at himage
  exact Nat.le_of_mul_le_mul_right (hcard.trans himage) hpos

/-- The threads stay in the indices exactly when the words are those of elements. -/
theorem owns_iff (hinteger : dtypeIsInteger call.indices.dtype = true) (hpos : 0 < call.count) :
    (∀ g < call.count, ∀ b < 4, call.Owns (call.indices.offset + (4 * g + b))) ↔
      call.WordsOwned := by
  constructor
  · intro howns
    have hfour := four_le_elem hpos howns
    refine ⟨hfour, ?_⟩
    intro g hg
    obtain ⟨idx, hidx, b, hb, heq⟩ := howns g hg 0 (by decide)
    have hmod := address_mod call.indices idx
    refine ⟨idx, hidx, ?_⟩
    -- both addresses begin an element, and the byte lies in it
    obtain h | h | ⟨h, -⟩ | ⟨h, -⟩ := elem_of_integer hinteger
    · omega
    · omega
    · rw [h] at hmod hb ⊢
      omega
    · rw [h] at hmod hb ⊢
      omega
  · rintro ⟨hfour, hwords⟩ g hg b hb
    obtain ⟨idx, hidx, haddress⟩ := hwords g hg
    refine ⟨idx, hidx, 4 * g % call.indices.elem + b, ?_, ?_⟩
    · obtain h | h | ⟨h, -⟩ | ⟨h, -⟩ := elem_of_integer hinteger <;> rw [h] at hfour ⊢ <;> omega
    · rw [haddress]
      have hsplit := Nat.div_add_mod (4 * g) call.indices.elem
      omega

/-- The words are owned where they are the indices. -/
theorem WordsIndices.owned (h : call.WordsIndices) : call.WordsOwned := by
  have helem : call.indices.elem = 4 := by
    unfold ByteTensor.elem
    rw [h.1]
    rfl
  refine ⟨helem.ge, ?_⟩
  intro g hg
  obtain ⟨hidx, hposition⟩ := inRange_unravel hg
  refine ⟨_, hidx, ?_⟩
  rw [h.2 _ hidx, hposition, helem, Nat.mul_div_cancel_left g (by decide)]

/-- The index that the words are: that of the thread at its position. -/
theorem Accepted.idx_of_wordsIndices (h : call.Accepted run) (hwords : call.WordsIndices)
    (hidx : call.indices.shape.InRange idx) :
    run.args.idx (position call.indices.shape.bounds idx) = call.index idx := by
  have helem : call.indices.elem = 4 := by
    unfold ByteTensor.elem
    rw [hwords.1]
    rfl
  rw [h.idx_eq]
  unfold index integerValue element
  rw [if_neg (by rw [hwords.1]; decide), helem, hwords.2 idx hidx]
  simp only [Nat.add_assoc]

/-! ### The condition is enough -/

section Enough

variable [Zero α]

/-- A cell of the table is read for an index that is not out of bounds. -/
theorem Accepted.of_mem_weightReads (h : call.Accepted run) {r : ℕ} (hr : r ∈ run.weightReads) :
    ∃ gid < call.count, ∃ d < call.embedDim, 0 ≤ run.args.idx gid ∧
      run.args.idx gid < int32OfUInt call.vocabSize ∧ r = run.args.weightCell gid d := by
  unfold EmbeddingRun.weightReads at hr
  rw [h.sized.threads_eq, flatMap_map, h.num_indices] at hr
  obtain ⟨gid, hgid, hr⟩ := mem_flatMap.mp hr
  rw [mem_range] at hgid
  unfold thread at hr
  rw [if_neg (by rw [h.num_indices]; omega), h.vocab_size, h.embed_dim] at hr
  split_ifs at hr with hout
  · simp at hr
  · obtain ⟨d, hd, rfl⟩ := mem_map.mp hr
    exact ⟨gid, hgid, d, mem_range.mp hd, by omega, by omega, rfl⟩

/-- Without a row in the table every thread stores zeros. -/
theorem Accepted.value_of_vocab_zero (h : call.Accepted run) (hvocab : call.vocabSize = 0)
    (gid d : ℕ) : run.args.value gid d = 0 := by
  unfold value
  have hzero : int32OfUInt 0 = 0 := by decide
  rw [h.vocab_size, hvocab, hzero, if_pos (by omega)]

omit [Zero α] in
/-- The cell of the table that an index within bounds leads to. -/
theorem Accepted.weightCell_eq (h : call.Accepted run)
    (hcells : call.vocabSize * call.embedDim ≤ uintRange) {gid d : ℕ}
    (hlow : 0 ≤ run.args.idx gid) (hhigh : run.args.idx gid < call.vocabSize)
    (hd : d < call.embedDim) :
    run.args.weightCell gid d = (run.args.idx gid).toNat * call.embedDim + d ∧
      (run.args.idx gid).toNat * call.embedDim + d < call.vocabSize * call.embedDim := by
  have hvocab := h.vocab_lt
  have hrow : ((run.args.idx gid).toNat + 1) * call.embedDim
      ≤ call.vocabSize * call.embedDim := Nat.mul_le_mul_right _ (by omega)
  rw [Nat.add_one_mul] at hrow
  have huint : uintOfInt (run.args.idx gid) = (run.args.idx gid).toNat := by
    conv_lhs => rw [← Int.toNat_of_nonneg hlow]
    exact uintOfInt_natCast (by omega)
  refine ⟨?_, by omega⟩
  unfold weightCell
  rw [huint, h.embed_dim]
  exact toUInt_of_lt (by omega)

/-- Where the words are the indices, a thread stores the row that its index names. -/
theorem Accepted.value_eq_looked (h : call.Accepted run) (hwords : call.WordsIndices)
    (hvocab : call.vocabSize < 2 ^ 31) (hcells : call.vocabSize * call.embedDim ≤ uintRange)
    (hidx : call.indices.shape.InRange idx) {d : ℕ} (hd : d < call.embedDim) :
    run.args.value (position call.indices.shape.bounds idx) d = call.looked idx d := by
  have hindex := h.idx_of_wordsIndices hwords hidx
  unfold value looked
  rw [hindex, h.vocab_size, int32OfUInt_of_lt hvocab]
  by_cases hin : 0 ≤ call.index idx ∧ call.index idx < call.vocabSize
  · rw [if_neg (by omega), if_pos hin]
    obtain ⟨hcell, -⟩ := h.weightCell_eq hcells (hindex ▸ hin.1) (hindex ▸ hin.2) hd
    have hwithin : Within call.weight.dims [(call.index idx).toNat, d] := by
      rw [h.dims]
      exact ⟨by omega, hd, trivial⟩
    rw [hcell, hindex, h.weight, MNTensor.elementAt_of_isContiguous h.contiguous hwithin, h.dims]
    simp [position]
  · rw [if_pos (by omega), if_neg hin]

/-- **The condition is enough.** -/
theorem Accepted.lookedUp (h : call.Accepted run) (haddressed : call.Addressed) :
    call.LookedUp run := by
  obtain hcount | ⟨hsmall, hcases⟩ := haddressed
  · -- no index, no thread
    refine ⟨?_, ?_, ?_⟩
    · intro idx hidx
      have hlt := position_lt_count hidx
      omega
    · intro g hg
      have hlt := h.sized.mem_indexReads.mp hg
      rw [h.num_indices] at hlt
      omega
    · intro r hr
      obtain ⟨gid, hgid, -⟩ := h.of_mem_weightReads hr
      omega
  · have howned : call.WordsOwned := by
      obtain ⟨howned, -⟩ | ⟨hwords, -⟩ := hcases
      · exact howned
      · exact hwords.owned
    refine ⟨?_, ?_, ?_⟩
    · intro idx hidx d hd
      rw [h.rows_iff hsmall hidx hd]
      obtain ⟨-, hvocab | hdim⟩ | ⟨hwords, hvocab, hcells⟩ := hcases
      · rw [h.value_of_vocab_zero hvocab]
        unfold looked
        rw [if_neg (by omega)]
      · omega
      · exact h.value_eq_looked hwords hvocab hcells hidx hd
    · intro g hg
      have hlt := h.sized.mem_indexReads.mp hg
      rw [h.num_indices] at hlt
      exact (owns_iff h.integer (by omega)).mpr howned g hlt
    · intro r hr
      obtain ⟨gid, hgid, d, hd, hlow, hhigh, rfl⟩ := h.of_mem_weightReads hr
      obtain ⟨-, hvocab | hdim⟩ | ⟨-, hvocab, hcells⟩ := hcases
      · rw [hvocab] at hhigh
        have hzero : int32OfUInt 0 = 0 := by decide
        omega
      · omega
      · rw [int32OfUInt_of_lt hvocab] at hhigh
        obtain ⟨hcell, hlt⟩ := h.weightCell_eq hcells hlow hhigh hd
        omega

end Enough

/-! ### The condition is needed -/

section Needed

/-- The first multi-index. -/
def first (call : EmbeddingCall α) : List ℕ := unravel call.indices.shape.bounds 0

theorem first_spec (hpos : 0 < call.count) :
    call.indices.shape.InRange call.first ∧ position call.indices.shape.bounds call.first = 0 :=
  inRange_unravel hpos

/-- The first element begins at the offset. -/
theorem address_first (hpos : 0 < call.count) (howned : call.WordsOwned) :
    call.indices.address call.first = call.indices.offset := by
  have hoffset : call.indices.offset < sizeTRange := by
    obtain ⟨idx, -, haddress⟩ := howned.2 0 hpos
    rw [Nat.mul_zero, Nat.zero_div, Nat.mul_zero, Nat.add_zero] at haddress
    rw [← haddress]
    exact Nat.mod_lt _ (by decide)
  unfold address first
  rw [srcOff_eq, Strided.unravel_zero, Strided.linear_replicate_zero, Nat.mul_zero, Nat.zero_mod,
    Nat.add_zero, Nat.mod_eq_of_lt hoffset]

/-- Where memory holds a number from the offset on, the first thread reads its lowest word. -/
theorem Accepted.idx_holding (h : call.Accepted run) {r : ℕ}
    (hbytes : call.indices.buffer.bytes = holding call.indices.offset r) :
    run.args.idx 0 = (r : ℤ).bmod uintRange := by
  rw [h.idx_eq, hbytes]
  simp only [Nat.mul_zero, Nat.zero_add]
  rw [map_holding, signedValue_bytesOf]
  rfl

/-- And the first index is as much of it as fits into an element. -/
theorem index_first (hpos : 0 < call.count) (howned : call.WordsOwned) {r : ℕ}
    (hbytes : call.indices.buffer.bytes = holding call.indices.offset r) :
    call.index call.first = (r : ℤ).bmod (256 ^ call.indices.elem) := by
  have hfour := howned.1
  have hsigned : call.indices.dtype ≠ .UInt8 := by
    intro hdtype
    unfold ByteTensor.elem at hfour
    rw [hdtype] at hfour
    exact absurd hfour (by decide)
  unfold index integerValue element
  rw [if_neg hsigned, hbytes, address_first hpos howned, map_holding, signedValue_bytesOf]

variable [Zero α]

/-- A launch that looks up what it should stores it in the first row. -/
theorem LookedUp.value_first (hlooked : call.LookedUp run) (h : call.Accepted run)
    (hpos : 0 < call.count) (hsmall : call.count * call.embedDim ≤ uintRange) {d : ℕ}
    (hd : d < call.embedDim) : run.args.value 0 d = call.looked call.first d := by
  obtain ⟨hidx, hposition⟩ := first_spec hpos
  have hvalue := (h.rows_iff hsmall hidx hd).mp (hlooked.rows _ hidx d hd)
  rwa [hposition] at hvalue

/-- The calls that are told apart from a correct one by what the first thread stores. -/
structure Probe (call : EmbeddingCall α) (run : EmbeddingRun α) (r : ℕ) : Prop where
  accepted : call.Accepted run
  correct : call.LookedUp run
  count_pos : 0 < call.count
  small : call.count * call.embedDim ≤ uintRange
  owned : call.WordsOwned
  bytes : call.indices.buffer.bytes = holding call.indices.offset r

/-- A table of `2 ^ 31` rows is never read: index `0` gets zeros. -/
theorem Probe.vocab_lt (h : call.Probe run 0) (hdim : 0 < call.embedDim) {c : α} (hc : c ≠ 0)
    (hentries : call.weight.buffer = fun _ => c) : call.vocabSize < 2 ^ 31 := by
  by_contra hlarge
  have hvalue := h.correct.value_first h.accepted h.count_pos h.small hdim
  have hidx : run.args.idx 0 = 0 := by
    rw [h.accepted.idx_holding h.bytes]
    exact Int.zero_bmod ..
  have hindex : call.index call.first = 0 := by
    rw [index_first h.count_pos h.owned h.bytes]
    exact Int.zero_bmod ..
  have hneg := int32OfUInt_neg (Nat.not_lt.mp hlarge) h.accepted.vocab_lt
  unfold value looked at hvalue
  rw [hidx, hindex, h.accepted.vocab_size, if_pos (by omega), if_pos (by omega)] at hvalue
  apply hc
  rw [hvalue]
  unfold MNTensor.elementAt MNTensor.data
  rw [hentries]

/-- Of an `int64_t` only the lower half is read: index `2 ^ 32` gets row `0`. -/
theorem Probe.int32 (h : call.Probe run uintRange) (hvocab : 0 < call.vocabSize)
    (hlt : call.vocabSize < 2 ^ 31) (hdim : 0 < call.embedDim) {c : α} (hc : c ≠ 0)
    (hentries : call.weight.buffer = fun _ => c) : call.indices.dtype = .Int32 := by
  by_contra hdtype
  have hvalue := h.correct.value_first h.accepted h.count_pos h.small hdim
  have helem : call.indices.elem = 8 := by
    have hfour := h.owned.1
    obtain h1 | h2 | ⟨-, h4⟩ | ⟨h8, -⟩ := elem_of_integer h.accepted.integer
    · omega
    · omega
    · exact absurd h4 hdtype
    · exact h8
  have hidx : run.args.idx 0 = 0 := by
    rw [h.accepted.idx_holding h.bytes]
    decide
  have hindex : call.index call.first = uintRange := by
    rw [index_first h.count_pos h.owned h.bytes, helem]
    decide
  have hbound := h.accepted.vocab_lt
  unfold value looked at hvalue
  rw [hidx, hindex, h.accepted.vocab_size, int32OfUInt_of_lt hlt, if_neg (by omega),
    if_neg (by omega), h.accepted.weight] at hvalue
  apply hc
  rw [← hvalue]
  unfold MNTensor.data
  rw [hentries]

/-- The cell `2 ^ 32` of a table is never read: cell `0` is read instead. -/
theorem Probe.cells_le (h : call.Probe run (uintRange / call.embedDim))
    (hdtype : call.indices.dtype = .Int32) (hlt : call.vocabSize < 2 ^ 31)
    (hdim : 0 < call.embedDim) {c : α} (hc : c ≠ 0)
    (hentries : call.weight.buffer = fun i => if i = call.weight.offset + uintRange then c else 0) :
    call.vocabSize * call.embedDim ≤ uintRange := by
  by_contra hlarge
  have hd : uintRange % call.embedDim < call.embedDim := Nat.mod_lt _ hdim
  have hvalue := h.correct.value_first h.accepted h.count_pos h.small hd
  have helem : call.indices.elem = 4 := by
    unfold ByteTensor.elem
    rw [hdtype]
    rfl
  have hrow : uintRange / call.embedDim < call.vocabSize := Nat.div_lt_of_lt_mul (by
    rw [Nat.mul_comm]
    omega)
  have hbmod : ((uintRange / call.embedDim : ℕ) : ℤ).bmod uintRange
      = (uintRange / call.embedDim : ℕ) := int32OfUInt_of_lt (hrow.trans hlt)
  have hidx := h.accepted.idx_holding h.bytes
  rw [hbmod] at hidx
  have hindex : call.index call.first = (uintRange / call.embedDim : ℕ) := by
    rw [index_first h.count_pos h.owned h.bytes, helem]
    exact hbmod
  have hlow : (0 : ℤ) ≤ (uintRange / call.embedDim : ℕ) := Int.natCast_nonneg _
  have hhigh : ((uintRange / call.embedDim : ℕ) : ℤ) < call.vocabSize := by exact_mod_cast hrow
  have hcell : run.args.weightCell 0 (uintRange % call.embedDim) = 0 := by
    unfold weightCell
    have hbound := h.accepted.vocab_lt
    rw [hidx, uintOfInt_natCast (by omega), h.accepted.embed_dim, Nat.div_add_mod']
    decide
  have hwithin : Within call.weight.dims [uintRange / call.embedDim,
      uintRange % call.embedDim] := by
    rw [h.accepted.dims]
    exact ⟨hrow, hd, trivial⟩
  unfold value looked at hvalue
  rw [hcell, hidx, hindex, h.accepted.vocab_size, int32OfUInt_of_lt hlt,
    if_neg (not_or.mpr ⟨not_lt.mpr hlow, not_le.mpr hhigh⟩), if_pos ⟨hlow, hhigh⟩,
    h.accepted.weight, Int.toNat_natCast,
    MNTensor.elementAt_of_isContiguous h.accepted.contiguous hwithin, h.accepted.dims] at hvalue
  unfold MNTensor.data at hvalue
  rw [hentries] at hvalue
  have hplace : position [call.vocabSize, call.embedDim]
      [uintRange / call.embedDim, uintRange % call.embedDim] = uintRange := by
    simp [position, Nat.div_add_mod']
  have hne : call.weight.offset + 0 ≠ call.weight.offset + uintRange := by
    unfold uintRange
    omega
  simp only [hplace, if_neg hne] at hvalue
  exact hc hvalue.symm

/-- Bytes that are zero in one element, and nowhere else. -/
def zeroAt (address i : ℕ) : UInt8 := if address ≤ i ∧ i < address + 4 then 0 else 255

/-- An index that is not where its thread reads: it is `0`, and the thread reads `-1`. -/
theorem Accepted.address_eq (h : call.Accepted run) (hlooked : call.LookedUp run)
    (hsmall : call.count * call.embedDim ≤ uintRange) (hdtype : call.indices.dtype = .Int32)
    (hvocab : 0 < call.vocabSize) (hdim : 0 < call.embedDim) {c : α} (hc : c ≠ 0)
    (hentries : call.weight.buffer = fun _ => c)
    (hidx : call.indices.shape.InRange idx)
    (hbytes : call.indices.buffer.bytes = zeroAt (call.indices.address idx)) :
    call.indices.address idx
      = call.indices.offset + 4 * position call.indices.shape.bounds idx := by
  by_contra hne
  have hvalue := (h.rows_iff hsmall hidx hdim).mp (hlooked.rows idx hidx 0 hdim)
  have helem : call.indices.elem = 4 := by
    unfold ByteTensor.elem
    rw [hdtype]
    rfl
  have hmod := address_mod call.indices idx
  rw [helem] at hmod
  -- two words at a distance of whole words do not overlap
  have hword : (range 4).map (fun b => call.indices.buffer.bytes
      (call.indices.offset + (4 * position call.indices.shape.bounds idx + b)))
      = [255, 255, 255, 255] := by
    have hone : ∀ b < 4, call.indices.buffer.bytes
        (call.indices.offset + (4 * position call.indices.shape.bounds idx + b)) = 255 := by
      intro b hb
      rw [hbytes]
      exact if_neg (by omega)
    have hall : (range 4).map (fun b => call.indices.buffer.bytes
        (call.indices.offset + (4 * position call.indices.shape.bounds idx + b)))
        = (range 4).map fun _ => 255 :=
      map_congr_left fun b hb => hone b (mem_range.mp hb)
    rw [hall]
    rfl
  have hzero : call.indices.element idx = [0, 0, 0, 0] := by
    unfold element
    rw [helem, hbytes]
    have hall : (range 4).map (fun b => zeroAt (call.indices.address idx)
        (call.indices.address idx + b)) = (range 4).map fun _ => 0 := by
      apply map_congr_left
      intro b hb
      have hlt := mem_range.mp hb
      exact if_pos (by omega)
    rw [hall]
    rfl
  have hread : run.args.idx (position call.indices.shape.bounds idx) = -1 := by
    rw [h.idx_eq, hword]
    decide
  have hindex : call.index idx = 0 := by
    unfold index
    rw [hzero, hdtype]
    decide
  unfold value looked at hvalue
  rw [hread, hindex, if_pos (by omega), if_pos (by omega)] at hvalue
  apply hc
  rw [hvalue]
  unfold MNTensor.elementAt MNTensor.data
  rw [hentries]

end Needed

/-! ### All contents of the buffers -/

/-- A call is accepted whatever its buffers hold. -/
theorem embedding_filled (h : call.embedding allocate pipeline = .ok run) (bytes : ℕ → UInt8)
    (entries : ℕ → α) : (call.filled bytes entries).embedding allocate pipeline
      = .ok ⟨run.kernelName, (call.filled bytes entries).args, run.grid⟩ := by
  unfold embedding at h
  obtain ⟨u, hcheck, h⟩ := bind_eq_ok.mp h
  obtain ⟨u₁, hempty, h⟩ := bind_eq_ok.mp h
  obtain ⟨name, hname, h⟩ := bind_eq_ok.mp h
  obtain ⟨u₂, hpipeline, h⟩ := bind_eq_ok.mp h
  obtain ⟨u₃, huint, h⟩ := bind_eq_ok.mp h
  obtain rfl := Except.ok.inj h
  exact bind_eq_ok.mpr ⟨u, hcheck, bind_eq_ok.mpr ⟨u₁, hempty, bind_eq_ok.mpr ⟨name, hname,
    bind_eq_ok.mpr ⟨u₂, hpipeline, bind_eq_ok.mpr ⟨u₃, huint, rfl⟩⟩⟩⟩⟩

end EmbeddingCall

/-- **`embedding`.**  An accepted call looks its indices up, whatever they are and whatever the
    table holds, exactly where they are `int32_t` values in a row and no product wraps. -/
theorem embedding_lookup_iff {α : Type} [Zero α] [Nontrivial α] {call : EmbeddingCall α}
    {run : EmbeddingRun α} {allocate : MNShape → MNDType → Except MNException Unit}
    {pipeline : String → Except MNException Unit}
    (h : call.embedding allocate pipeline = .ok run) :
    (∀ (bytes : ℕ → UInt8) (entries : ℕ → α) (run' : EmbeddingRun α),
      (call.filled bytes entries).embedding allocate pipeline = .ok run' →
        (call.filled bytes entries).LookedUp run') ↔ call.Addressed := by
  constructor
  · intro hall
    obtain ⟨c, hc⟩ := exists_ne (0 : α)
    -- the call with some contents, its launch, and what it does
    have hlaunch : ∀ (bytes : ℕ → UInt8) (entries : ℕ → α), ∃ run',
        (call.filled bytes entries).Accepted run' ∧ (call.filled bytes entries).LookedUp run' :=
      fun bytes entries =>
        ⟨_, EmbeddingCall.accepted (EmbeddingCall.embedding_filled h bytes entries),
          hall bytes entries _ (EmbeddingCall.embedding_filled h bytes entries)⟩
    by_cases hcount : call.count = 0
    · exact .inl hcount
    have hpos : 0 < call.count := Nat.pos_of_ne_zero hcount
    obtain ⟨run₀, hrun₀, hlooked₀⟩ := hlaunch (fun _ => 0) fun _ => c
    have hsmall : call.count * call.embedDim ≤ uintRange := by
      by_contra hlarge
      exact hrun₀.not_rows (Nat.not_le.mp hlarge) hlooked₀
    have howned : call.WordsOwned := by
      have hinteger : dtypeIsInteger call.indices.dtype = true := hrun₀.integer
      apply (EmbeddingCall.owns_iff hinteger hpos).mp
      intro g hg
      apply hlooked₀.indexReads g
      rw [hrun₀.sized.mem_indexReads, hrun₀.num_indices]
      exact hg
    refine .inr ⟨hsmall, ?_⟩
    by_cases hempty : call.vocabSize = 0 ∨ call.embedDim = 0
    · exact .inl ⟨howned, hempty⟩
    have hvocab : 0 < call.vocabSize := by omega
    have hdim : 0 < call.embedDim := by omega
    -- three numbers from the offset on, each with a table that shows what is read for it
    obtain ⟨run₁, hrun₁, hlooked₁⟩ := hlaunch (holding call.indices.offset 0) fun _ => c
    have hzero : (call.filled (holding call.indices.offset 0) fun _ => c).Probe run₁ 0 :=
      ⟨hrun₁, hlooked₁, hpos, hsmall, howned, rfl⟩
    have hlt : call.vocabSize < 2 ^ 31 := hzero.vocab_lt hdim hc rfl
    obtain ⟨run₂, hrun₂, hlooked₂⟩ := hlaunch (holding call.indices.offset uintRange) fun _ => c
    have hwide : (call.filled (holding call.indices.offset uintRange) fun _ => c).Probe run₂
        uintRange := ⟨hrun₂, hlooked₂, hpos, hsmall, howned, rfl⟩
    have hdtype : call.indices.dtype = .Int32 := hwide.int32 hvocab hlt hdim hc rfl
    obtain ⟨run₃, hrun₃, hlooked₃⟩ :=
      hlaunch (holding call.indices.offset (uintRange / call.embedDim))
        fun i => if i = call.weight.offset + uintRange then c else 0
    have hlast : (call.filled (holding call.indices.offset (uintRange / call.embedDim))
        fun i => if i = call.weight.offset + uintRange then c else 0).Probe run₃
          (uintRange / call.embedDim) := ⟨hrun₃, hlooked₃, hpos, hsmall, howned, rfl⟩
    have hcells : call.vocabSize * call.embedDim ≤ uintRange :=
      hlast.cells_le hdtype hlt hdim hc rfl
    refine .inr ⟨⟨hdtype, ?_⟩, hlt, hcells⟩
    intro idx hidx
    obtain ⟨run₄, hrun₄, hlooked₄⟩ :=
      hlaunch (EmbeddingCall.zeroAt (call.indices.address idx)) fun _ => c
    exact hrun₄.address_eq hlooked₄ hsmall hdtype hvocab hdim hc rfl hidx rfl
  · intro haddressed bytes entries run' hrun'
    exact (EmbeddingCall.accepted hrun').lookedUp haddressed

theorem twoRows_dims : ∀ d ∈ [2, 1], d < 2 ^ 63 := by decide

theorem twoRows_numel : [2, 1].prod < 2 ^ 63 := by decide

/-- The indices `0` and `1` of a type, and a table of two rows. -/
def twoRows (dtype : MNDType) (length : ℕ) : EmbeddingCall ℤ where
  indices :=
    { buffer := ⟨2 * length, fun i => if i = length then 1 else 0⟩
      mode := .Shared
      shape := [2]
      strides := [1]
      dtype }
  weight := ⟨fun i => i + 1, [2, 1], [1, 1], .Float32, 0, twoRows_dims, twoRows_numel⟩
  nonneg := by simp
  countable := by
    change (2 : ℕ) < 2 ^ 63
    decide

theorem twoRows_int32_addressed : (twoRows .Int32 4).Addressed := by
  refine .inr ⟨by decide, .inr ⟨⟨rfl, ?_⟩, by decide, by decide⟩⟩
  intro idx hidx
  obtain ⟨i, rfl⟩ := length_eq_one_iff.mp (Strided.Within.length_eq hidx)
  have hi : i < 2 := hidx.1
  obtain rfl | rfl : i = 0 ∨ i = 1 := by omega
  · rfl
  · rfl

theorem embedding_lookup_iff_two :
    (twoRows .Int32 4).embedding (fun _ _ => .ok ()) (fun _ => .ok ())
        = .ok ⟨"embedding_lookup_fp32", (twoRows .Int32 4).args, 2⟩ ∧
      ∀ (bytes : ℕ → UInt8) (entries : ℕ → ℤ) (run' : EmbeddingRun ℤ),
        ((twoRows .Int32 4).filled bytes entries).embedding (fun _ _ => .ok ()) (fun _ => .ok ())
          = .ok run' → ((twoRows .Int32 4).filled bytes entries).LookedUp run' :=
  ⟨rfl, (embedding_lookup_iff rfl).mpr twoRows_int32_addressed⟩

/-- With `int64_t` indices the second thread reads the upper half of the first one. -/
theorem int64_indices_misread : ∃ run : EmbeddingRun ℤ,
    (twoRows .Int64 8).embedding (fun _ _ => .ok ()) (fun _ => .ok ()) = .ok run ∧
      ¬ (twoRows .Int64 8).LookedUp run := by
  refine ⟨⟨"embedding_lookup_fp32", (twoRows .Int64 8).args, 2⟩, rfl, ?_⟩
  intro hlooked
  have hrow := hlooked.rows [1] ⟨by decide, trivial⟩ 0 (by decide)
  exact absurd hrow (by decide)

end MetalNative
