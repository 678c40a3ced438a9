import MetalNative.Attention.OnlineUpdate
import MetalNative.Matmul.DequantMatmul
import MetalNative.Memory.BudgetController

namespace MetalNative

/-!
# `flash_attention`: the checks, the choice of a kernel and the launch

A translation of the host side of `attention.mm`, and of the binding that calls it.  A conversion
between the two floating-point types keeps the elements: rounding is not modelled.

* `flashAttentionCheck` — the checks, and the sizes that everything else is computed from.
* `selectFlash` — which kernel is taken.
* `flashAttention` — what is launched.
* `scaledDotProductAttention` — the binding.
* `flashAttention_eq_ok` — what is known of a launch.
-/

/-! ### The call -/

/-- The arguments of `flash_attention`. -/
structure AttentionCall where
  query : DeviceTensor ℝ
  key : DeviceTensor ℝ
  value : DeviceTensor ℝ
  mask : Option (DeviceTensor (WithBot ℝ))
  scale : ℝ

/-- The sizes that `flash_attention` reads from the shapes. -/
structure AttentionDims where
  batch : ℕ
  num_heads : ℕ
  seq_len_q : ℕ
  head_dim : ℕ
  num_kv_heads : ℕ
  seq_len_k : ℕ
  deriving DecidableEq, Repr

namespace AttentionDims

/-- `is_gqa`. -/
def isGqa (d : AttentionDims) : Bool := d.num_kv_heads < d.num_heads

/-- The query heads of a key head. -/
def ratio (d : AttentionDims) : ℕ := d.num_heads / d.num_kv_heads

/-- `group_ratio`. -/
def groupRatio (d : AttentionDims) : ℕ := toUInt d.ratio

/-- The shape of the query and of the output. -/
def outputShape (d : AttentionDims) : List ℕ := [d.batch, d.num_heads, d.seq_len_q, d.head_dim]

/-- The shape of the key and of the value. -/
def kvShape (d : AttentionDims) : List ℕ := [d.batch, d.num_kv_heads, d.seq_len_k, d.head_dim]

end AttentionDims

/-- The sizes of a call. -/
def AttentionCall.dims (call : AttentionCall) : AttentionDims where
  batch := call.query.dim 0
  num_heads := call.query.dim 1
  seq_len_q := call.query.dim 2
  head_dim := call.query.dim 3
  num_kv_heads := call.key.dim 1
  seq_len_k := call.key.dim 2

/-- The checks of `flash_attention`.  `num_heads % 0` is `num_heads`, as it is on the processors
that have Metal. -/
def flashAttentionCheck (call : AttentionCall) : Except MNException AttentionDims := do
  mnCheck (call.query.ndim = 4)
    "flash_attention: query must be 4D [batch, num_heads, seq_len_q, head_dim]"
  mnCheck (call.key.ndim = 4)
    "flash_attention: key must be 4D [batch, num_kv_heads, seq_len_k, head_dim]"
  mnCheck (call.value.ndim = 4)
    "flash_attention: value must be 4D [batch, num_kv_heads, seq_len_v, head_dim]"
  mnCheck (call.query.dtype = call.key.dtype ∧ call.query.dtype = call.value.dtype)
    "flash_attention: all inputs must have the same dtype"
  let d := call.dims
  mnCheck (d.seq_len_k = call.value.dim 2)
    "flash_attention: key and value sequence lengths must match"
  mnCheck (d.batch = call.key.dim 0 ∧ d.batch = call.value.dim 0)
    "flash_attention: batch dimensions must match"
  mnCheck (d.num_kv_heads = call.value.dim 1)
    "flash_attention: num_kv_heads must match between key and value"
  mnCheck (d.num_heads ≥ d.num_kv_heads)
    "flash_attention: num_heads must be >= num_kv_heads"
  mnCheck (d.num_heads % d.num_kv_heads = 0)
    "flash_attention: num_heads must be divisible by num_kv_heads"
  mnCheck (d.head_dim = call.key.dim 3 ∧ d.head_dim = call.value.dim 3)
    "flash_attention: head_dim must match across inputs"
  match call.mask with
  | none => return d
  | some mask =>
    mnCheck (mask.ndim = 4)
      "flash_attention: mask must be 4D [batch, 1, seq_len_q, seq_len_k]"
    mnCheck (mask.dim 0 = d.batch ∧ mask.dim 2 = d.seq_len_q ∧ mask.dim 3 = d.seq_len_k)
      "flash_attention: mask shape incompatible with query/key"
    return d

/-! ### The choice of a kernel -/

/-- What the choice depends on besides the arguments, and what the device answers. -/
structure AttentionState where
  /-- `g_use_texture_attention`. -/
  use_texture_attention : Bool
  /-- The texture for the scores has been created. -/
  score_texture : Bool
  pressure : MemoryPressureLevel
  /-- What the allocator answers. -/
  allocate : MNShape → MNDType → Except MNException Unit
  /-- The threadgroup memory of the device; a `uint` is enough for its addresses. -/
  maxThreadgroupMemoryLength : ℕ
  memory_lt : maxThreadgroupMemoryLength < uintRange

/-- The kernels that a launch can run. -/
inductive FlashPath where
  /-- `flash_attention_texture_fp32`. -/
  | texture
  | simd (kernel : FlashKernel)
  deriving DecidableEq, Repr

/-- What `KernelRegistry::get_pipeline` throws for a name without a function. -/
def functionNotFound (name : String) : MNException :=
  ⟨.KernelCompilationFailed,
    "KernelRegistry: function '" ++ name ++ "' not found in loaded Metal library"⟩

/-- The kernel for `Float32` tensors with as many key heads as query heads. -/
def selectFlashFp32 (st : AttentionState) (d : AttentionDims) : FlashPath :=
  if st.use_texture_attention ∧ st.score_texture then .texture
  else if d.seq_len_k ≥ 1024 then .simd .largeFp32
  else if d.seq_len_k ≥ 256 ∧ d.head_dim ≤ 128 then .simd .fourSimdFp32
  else .simd .simdKernel

/-- The kernel for `Float16` tensors.  No shader defines `flash_attention_gqa_4simd_fp16`. -/
def selectFlashFp16 (st : AttentionState) (d : AttentionDims) : Except MNException FlashPath :=
  if d.isGqa then
    if d.seq_len_k ≥ 512 then .error (functionNotFound "flash_attention_gqa_4simd_fp16")
    else .ok (.simd .gqaFp16)
  else
    let relaxed : Bool := pressureMultiplier st.pressure ≥ 1
    let use_8simd : Bool := d.seq_len_k ≥ 1024 ∧ d.head_dim ≤ 128 ∧ relaxed
    let use_4simd : Bool := ¬ use_8simd ∧ d.seq_len_k ≥ 256 ∧ d.head_dim ≤ 128
    let use_tile24 : Bool := ¬ use_8simd ∧ ¬ use_4simd ∧ d.head_dim ≤ 128 ∧ relaxed
    let use_multi_simd : Bool := d.seq_len_k ≥ 64
    .ok <| .simd <|
      if use_8simd then .largeFp16
      else if use_4simd then .fourSimdFp16
      else if use_tile24 then .simdKernelFp16Tile24
      else if use_multi_simd then .simdKernelFp16Multi
      else .simdKernelFp16

/-- The choice of `flash_attention` where nothing has to be converted first. -/
def selectFlash (st : AttentionState) (dtype : MNDType) (d : AttentionDims) :
    Except MNException FlashPath :=
  match dtype with
  | .Float32 => .ok (selectFlashFp32 st d)
  | .Float16 => selectFlashFp16 st d
  | _ => .error ⟨.InvalidArgument,
      "flash_attention: unsupported dtype (only Float32 and Float16)"⟩

/-- The type of the tensors that the kernel is given: grouped queries are converted. -/
def AttentionCall.kernelType (call : AttentionCall) : MNDType :=
  if call.query.dtype = .Float32 ∧ call.dims.isGqa then .Float16 else call.query.dtype

/-- The kernel that is chosen for a call. -/
def AttentionCall.path (call : AttentionCall) (st : AttentionState) :
    Except MNException FlashPath :=
  selectFlash st call.kernelType call.dims

/-! ### The launch -/

/-- A launch: the threadgroups, and the bytes of each threadgroup memory. -/
structure FlashLaunch where
  path : FlashPath
  dims : AttentionDims
  gridX : ℕ
  gridY : ℕ
  gridZ : ℕ
  threadgroupMemory : List ℕ
  deriving DecidableEq, Repr

namespace FlashKernel

/-- `using_large_kernel`. -/
def usingLargeKernel : FlashKernel → Bool
  | largeFp32 | largeFp16 => true
  | _ => false

/-- `active_tile_size`. -/
def activeTileSize : FlashKernel → ℕ
  | simdKernelFp16Tile24 => 24
  | _ => 16

theorem activeTileSize_eq (κ : FlashKernel) : κ.activeTileSize = κ.tileSize := by
  cases κ <;> rfl

end FlashKernel

namespace AttentionDims

/-- The launch of `flash_attention_texture_fp32`. -/
def textureLaunch (d : AttentionDims) : FlashLaunch :=
  let tile_size := 16
  let length := tile_size * d.head_dim * 4
  { path := .texture
    dims := d
    gridX := toUInt ((d.seq_len_q + tile_size - 1) / tile_size)
    gridY := d.num_heads
    gridZ := d.batch
    threadgroupMemory := [length, length, length] }

/-- The launch of a SIMD kernel. -/
def simdLaunch (d : AttentionDims) (κ : FlashKernel) (dtype : MNDType) : FlashLaunch :=
  let element_size := if dtype = .Float32 then 4 else 2
  let tile := κ.activeTileSize
  let gqa := if d.isGqa then [tile * d.head_dim * element_size] else []
  let reduction := if κ.usingLargeKernel then [8 * 4] else []
  { path := .simd κ
    dims := d
    gridX := toUInt ((d.seq_len_q + tile - 1) / tile)
    gridY := if d.isGqa then toUInt d.num_kv_heads else toUInt d.num_heads
    gridZ := d.batch
    threadgroupMemory :=
      [tile * d.head_dim * element_size, tile * d.head_dim * element_size, tile * tile * 4,
        tile * d.head_dim * 4] ++ gqa ++ reduction }

/-- The launch of a kernel. -/
def launchOf (d : AttentionDims) (path : FlashPath) (dtype : MNDType) : FlashLaunch :=
  match path with
  | .texture => d.textureLaunch
  | .simd κ => d.simdLaunch κ dtype

/-- The checks before the sizes are passed on as `uint` values. -/
def uintCheck (d : AttentionDims) : Except MNException Unit := do
  mnCheck (d.batch ≤ UINT32_MAX) "attention: dimension exceeds uint32_t range"
  mnCheck (d.num_heads ≤ UINT32_MAX) "attention: dimension exceeds uint32_t range"
  mnCheck (d.seq_len_q ≤ UINT32_MAX) "attention: dimension exceeds uint32_t range"
  mnCheck (d.seq_len_k ≤ UINT32_MAX) "attention: dimension exceeds uint32_t range"
  mnCheck (d.head_dim ≤ UINT32_MAX) "attention: dimension exceeds uint32_t range"

/-- `flash_attention` from the choice of a kernel on. -/
def launch (st : AttentionState) (dtype : MNDType) (d : AttentionDims) :
    Except MNException FlashLaunch := do
  let path ← selectFlash st dtype d
  match path with
  | .texture => return d.launchOf path dtype
  | .simd _ =>
    d.uintCheck
    mnCheck (d.isGqa → d.num_kv_heads ≤ UINT32_MAX) "attention: dimension exceeds uint32_t range"
    return d.launchOf path dtype

end AttentionDims

/-- The checks of `cast_dtype`. -/
def castDtypeCheck {α : Type*} (st : AttentionState) (input : MNTensor α) (target_dtype : MNDType) :
    Except MNException Unit := do
  if input.dtype = target_dtype then return ()
  mnCheck input.isContiguous "cast_dtype: input must be contiguous"
  mnCheck (input.dtype = .Float32 ∧ target_dtype = .Float16
      ∨ input.dtype = .Float16 ∧ target_dtype = .Float32)
    "cast_dtype: only FP32 ↔ FP16 conversions are currently supported"
  emptyTensorCheck input.shape target_dtype (st.allocate input.shape target_dtype)
  mnCheck (input.numel ≤ UINT32_MAX) "cast_dtype: dimension exceeds uint32_t range"

/-- The mask is converted if there is one. -/
def castMaskCheck (st : AttentionState) (mask : Option (DeviceTensor (WithBot ℝ))) :
    Except MNException Unit :=
  match mask with
  | none => .ok ()
  | some mask => castDtypeCheck st mask.toMNTensor .Float16

/-- `flash_attention`: what is launched in the end.  Grouped queries in `Float32` are converted, the
function calls itself with the tensors in `Float16`, whose shapes pass the same checks, and the
result is converted back. -/
def flashAttention (st : AttentionState) (call : AttentionCall) :
    Except MNException FlashLaunch := do
  let d ← flashAttentionCheck call
  let shape := call.query.shape
  emptyTensorCheck shape call.query.dtype (st.allocate shape call.query.dtype)
  if call.query.dtype = .Float32 ∧ d.isGqa then
    castDtypeCheck st call.query.toMNTensor .Float16
    castDtypeCheck st call.key.toMNTensor .Float16
    castDtypeCheck st call.value.toMNTensor .Float16
    castMaskCheck st call.mask
    emptyTensorCheck shape .Float16 (st.allocate shape .Float16)
    let launch ← d.launch st .Float16
    emptyTensorCheck shape .Float32 (st.allocate shape .Float32)
    mnCheck (call.query.numel ≤ UINT32_MAX) "cast_dtype: dimension exceeds uint32_t range"
    return launch
  else d.launch st call.query.dtype

/-- The binding `fast.scaled_dot_product_attention`.  The flag is not used. -/
def scaledDotProductAttention (st : AttentionState) (query key value : DeviceTensor ℝ) (scale : ℝ)
    (_causal : Bool) : Except MNException FlashLaunch :=
  flashAttention st { query, key, value, mask := none, scale }

/-! ### What is known of a launch -/

/-- What the checks have established when they pass. -/
structure AttentionChecked (call : AttentionCall) : Prop where
  query : call.query.dims = call.dims.outputShape
  key : call.key.dims = call.dims.kvShape
  value : call.value.dims = call.dims.kvShape
  heads_le : call.dims.num_kv_heads ≤ call.dims.num_heads
  heads_mod : call.dims.num_heads % call.dims.num_kv_heads = 0

variable {d : AttentionDims}

theorem flashAttentionCheck_eq_ok {call : AttentionCall}
    (h : flashAttentionCheck call = .ok d) : d = call.dims ∧ AttentionChecked call := by
  unfold flashAttentionCheck at h
  simp only [mnCheck_bind_eq_ok] at h
  obtain ⟨hquery, hkey, hvalue, -, hlen, hbatch, hkv, hle, hmod, hhead, hmask⟩ := h
  refine ⟨?_, MNTensor.dims_eq_four hquery, ?_, ?_, hle, hmod⟩
  · cases hm : call.mask with
    | none =>
      rw [hm] at hmask
      exact (Except.ok.inj hmask).symm
    | some mask =>
      rw [hm] at hmask
      simp only [mnCheck_bind_eq_ok] at hmask
      exact (Except.ok.inj hmask.2.2).symm
  · rw [MNTensor.dims_eq_four hkey, AttentionDims.kvShape, ← hbatch.1, ← hhead.1]
    rfl
  · rw [MNTensor.dims_eq_four hvalue, AttentionDims.kvShape, ← hbatch.2, ← hhead.2, ← hkv, ← hlen]

/-- A SIMD kernel has been launched: the one for grouped queries exactly where it is needed, with
sizes that are `uint` values. -/
structure SimdLaunched (d : AttentionDims) (κ : FlashKernel) : Prop where
  gqa : κ = .gqaFp16 ↔ d.isGqa
  batch : d.batch < uintRange
  num_heads : d.num_heads < uintRange
  seq_len_q : d.seq_len_q < uintRange
  seq_len_k : d.seq_len_k < uintRange
  head_dim : d.head_dim < uintRange

/-- What can be launched. -/
inductive FlashLaunched (d : AttentionDims) : FlashPath → Prop where
  | texture (h : d.isGqa = false) : FlashLaunched d .texture
  | simd (κ : FlashKernel) (h : SimdLaunched d κ) : FlashLaunched d (.simd κ)

variable {st : AttentionState}

theorem selectFlashFp16_eq_ok {path : FlashPath}
    (h : selectFlashFp16 st d = .ok path) :
    ∃ κ, path = .simd κ ∧ (κ = .gqaFp16 ↔ d.isGqa) := by
  unfold selectFlashFp16 at h
  by_cases hgqa : d.isGqa = true
  · rw [if_pos hgqa] at h
    split_ifs at h with hlong
    exact ⟨.gqaFp16, (Except.ok.inj h).symm, iff_of_true rfl hgqa⟩
  · rw [if_neg hgqa] at h
    refine ⟨_, (Except.ok.inj h).symm, iff_of_false ?_ hgqa⟩
    split_ifs <;> decide

theorem selectFlashFp32_cases (st : AttentionState) (d : AttentionDims) :
    selectFlashFp32 st d = .texture ∨ ∃ κ, selectFlashFp32 st d = .simd κ ∧ κ ≠ .gqaFp16 := by
  unfold selectFlashFp32
  split_ifs <;> simp

theorem uintCheck_bind_eq_ok {α : Type} {next : Unit → Except MNException α}
    {x : α} (h : (d.uintCheck >>= next) = .ok x) :
    d.batch ≤ UINT32_MAX ∧ d.num_heads ≤ UINT32_MAX ∧ d.seq_len_q ≤ UINT32_MAX
      ∧ d.seq_len_k ≤ UINT32_MAX ∧ d.head_dim ≤ UINT32_MAX ∧ next () = .ok x := by
  obtain ⟨u, hu, hnext⟩ := bind_eq_ok.mp h
  unfold AttentionDims.uintCheck at hu
  simp only [mnCheck_bind_eq_ok] at hu
  obtain ⟨hbatch, hheads, hq, hk, hhead⟩ := hu
  refine ⟨hbatch, hheads, hq, hk, ?_, hnext⟩
  unfold mnCheck at hhead
  split_ifs at hhead with hle
  exact hle

theorem launch_eq_ok {dtype : MNDType}
    {launch : FlashLaunch} (h : d.launch st dtype = .ok launch)
    (hfp32 : dtype = .Float32 → d.isGqa = false) :
    ∃ path, selectFlash st dtype d = .ok path ∧ FlashLaunched d path
      ∧ launch = d.launchOf path dtype := by
  unfold AttentionDims.launch at h
  obtain ⟨path, hpath, h⟩ := bind_eq_ok.mp h
  refine ⟨path, hpath, ?_⟩
  have hcases : (path = .texture ∧ d.isGqa = false)
      ∨ ∃ κ, path = .simd κ ∧ (κ = .gqaFp16 ↔ d.isGqa) := by
    unfold selectFlash at hpath
    cases dtype with
    | Float32 =>
      have hgqa := hfp32 rfl
      obtain rfl := Except.ok.inj hpath
      rcases selectFlashFp32_cases st d with htexture | ⟨κ, hκ, hne⟩
      · exact Or.inl ⟨htexture, hgqa⟩
      · exact Or.inr ⟨κ, hκ, iff_of_false hne (by simp [hgqa])⟩
    | Float16 => exact Or.inr (selectFlashFp16_eq_ok hpath)
    | _ => cases hpath
  rcases hcases with ⟨rfl, hgqa⟩ | ⟨κ, rfl, hgqa⟩
  · exact ⟨.texture hgqa, (Except.ok.inj h).symm⟩
  · obtain ⟨hbatch, hheads, hq, hk, hhead, h⟩ := uintCheck_bind_eq_ok h
    obtain ⟨-, h⟩ := mnCheck_bind_eq_ok.mp h
    have hmax : UINT32_MAX < uintRange := by decide
    exact ⟨.simd κ ⟨hgqa, by omega, by omega, by omega, by omega, by omega⟩,
      (Except.ok.inj h).symm⟩

/-- **What is launched** by `flash_attention`, and what its checks have established. -/
theorem flashAttention_eq_ok {call : AttentionCall} {launch : FlashLaunch}
    (h : flashAttention st call = .ok launch) :
    AttentionChecked call ∧ ∃ path, call.path st = .ok path ∧ FlashLaunched call.dims path
      ∧ launch = call.dims.launchOf path call.kernelType := by
  unfold flashAttention at h
  obtain ⟨d, hd, h⟩ := bind_eq_ok.mp h
  obtain ⟨-, -, h⟩ := bind_eq_ok.mp h
  obtain ⟨rfl, hchecked⟩ := flashAttentionCheck_eq_ok hd
  refine ⟨hchecked, ?_⟩
  unfold AttentionCall.path AttentionCall.kernelType
  by_cases hcast : call.query.dtype = .Float32 ∧ call.dims.isGqa = true
  · -- the conversions of the three tensors and of the mask, and two allocations
    rw [if_pos hcast] at h ⊢
    obtain ⟨-, -, h⟩ := bind_eq_ok.mp h
    obtain ⟨-, -, h⟩ := bind_eq_ok.mp h
    obtain ⟨-, -, h⟩ := bind_eq_ok.mp h
    obtain ⟨-, -, h⟩ := bind_eq_ok.mp h
    obtain ⟨-, -, h⟩ := bind_eq_ok.mp h
    obtain ⟨launch', hlaunch, h⟩ := bind_eq_ok.mp h
    obtain ⟨-, -, h⟩ := bind_eq_ok.mp h
    obtain ⟨-, h⟩ := mnCheck_bind_eq_ok.mp h
    obtain rfl := Except.ok.inj h
    exact launch_eq_ok hlaunch fun hfp32 => by cases hfp32
  · rw [if_neg hcast] at h ⊢
    exact launch_eq_ok h fun hfp32 => by simpa [hfp32] using hcast

end MetalNative
