import MetalNative.Core.Layout
import MetalNative.Lib.ThreadLoop
import MetalNative.Matmul.HostDispatch
import Mathlib.Order.Lattice.Nat

namespace MetalNative

open Broadcast (Within)
open Strided (position)
open ThreadLoop List

/-!
# `speculative_verify`

A translation of `speculative.mm` and `speculative_kernel.metal`.  A thread goes through the draft
tokens of one batch row, accepts them as long as the test succeeds, and refuses all others.  The
probabilities are those of any linear order with a division; the two kernels differ in the type
from which they convert.

* `SpeculativeCall`, `speculativeVerify` — the host; `VerifyArgs` — what a launch is given.
* `VerifyArgs.step` — one round of a thread's loop; `VerifyArgs.thread_eq` is what the loop leaves.
* `acceptedLength` — the longest prefix of accepted tokens.
* `speculative_verify_prefix` — every row gets its longest prefix.
-/

/-! ### The kernel -/

/-- The arguments of a launch: the tables from their offsets on, and the two constants. -/
structure VerifyArgs (α : Type) where
  p_target : ℕ → α
  p_draft : ℕ → α
  draft_tokens : ℕ → ℤ
  random_vals : ℕ → α
  K : ℕ
  vocab_size : ℕ

/-- The variables of a thread, its stores to `accepted`, and what it has read: the position, the
    index into the tables of tokens and random numbers, and the index into the probabilities. -/
structure VerifyState where
  count : ℕ := 0
  still_accepting : Bool := true
  accepted : List (ℕ × ℤ) := []
  reads : List (ℕ × ℕ × ℕ) := []

section Kernel

variable {α : Type} [LinearOrder α] [Zero α] [One α] (div : α → α → α)

/-- `accept_prob`. -/
def acceptProb (p_t p_d : α) : α := if 0 < p_d then min 1 (div p_t p_d) else 0

namespace VerifyArgs

variable (a : VerifyArgs α) (batch_idx : ℕ)

/-- `batch_idx * K + i`. -/
def cell (i : ℕ) : ℕ := toUInt (batch_idx * a.K + i)

/-- `batch_idx * K * vocab_size + i * vocab_size + token`. -/
def entry (i : ℕ) : ℕ :=
  toUInt (batch_idx * a.K * a.vocab_size + i * a.vocab_size
    + uintOfInt (a.draft_tokens (a.cell batch_idx i)))

/-- `r < accept_prob`. -/
def accepts (i : ℕ) : Bool :=
  a.random_vals (a.cell batch_idx i)
    < acceptProb div (a.p_target (a.entry batch_idx i)) (a.p_draft (a.entry batch_idx i))

/-- One round of the loop. -/
def step (s : VerifyState) (i : ℕ) : VerifyState :=
  if s.still_accepting = false then
    { s with accepted := s.accepted ++ [(a.cell batch_idx i, 0)] }
  else if a.accepts div batch_idx i then
    { count := toUInt (s.count + 1)
      still_accepting := true
      accepted := s.accepted ++ [(a.cell batch_idx i, 1)]
      reads := s.reads ++ [(i, a.cell batch_idx i, a.entry batch_idx i)] }
  else
    { count := s.count
      still_accepting := false
      accepted := s.accepted ++ [(a.cell batch_idx i, 0)]
      reads := s.reads ++ [(i, a.cell batch_idx i, a.entry batch_idx i)] }

/-- `speculative_verify_fp32` and `speculative_verify_fp16`, the thread at a position. -/
def thread : VerifyState := (List.range a.K).foldl (a.step div batch_idx) {}

end VerifyArgs

end Kernel

/-! ### The host -/

/-- The checks of `speculative_verify`. -/
def speculativeCheck {α β : Type} (p_target p_draft : MNTensor α) (draft_tokens : MNTensor β)
    (random_vals : MNTensor α) : Except MNException Unit := do
  mnCheck (p_target.ndim = 3) "speculative_verify: p_target must be 3D [batch, K, vocab_size]"
  mnCheck (p_draft.ndim = 3) "speculative_verify: p_draft must be 3D [batch, K, vocab_size]"
  mnCheck (draft_tokens.ndim = 2) "speculative_verify: draft_tokens must be 2D [batch, K]"
  mnCheck (random_vals.ndim = 2) "speculative_verify: random_vals must be 2D [batch, K]"
  mnCheck (p_draft.dims = p_target.dims) "speculative_verify: p_draft shape mismatch"
  mnCheck (draft_tokens.dims = p_target.dims.take 2)
    "speculative_verify: draft_tokens shape mismatch"
  mnCheck (random_vals.dims = p_target.dims.take 2)
    "speculative_verify: random_vals shape mismatch"
  mnCheck (p_target.dtype = p_draft.dtype)
    "speculative_verify: p_target and p_draft must have same dtype"
  mnCheck (p_target.dtype = .Float32 ∨ p_target.dtype = .Float16)
    "speculative_verify: p_target/p_draft must be Float32 or Float16"
  mnCheck (draft_tokens.dtype = .Int32) "speculative_verify: draft_tokens must be Int32"
  mnCheck (random_vals.dtype = .Float32) "speculative_verify: random_vals must be Float32"

/-- The name of the kernel. -/
def speculativeKernelName (dtype : MNDType) : String :=
  if dtype = .Float32 then "speculative_verify_fp32" else "speculative_verify_fp16"

/-- The arguments of `speculative_verify`. -/
structure SpeculativeCall (α : Type) where
  p_target : MNTensor α
  p_draft : MNTensor α
  draft_tokens : MNTensor ℤ
  random_vals : MNTensor α

/-- A launch: `grid` threads, each in a threadgroup of its own. -/
structure VerifyRun (α : Type) where
  kernelName : String
  args : VerifyArgs α
  grid : ℕ

namespace SpeculativeCall

variable {α : Type} (call : SpeculativeCall α)

/-- `batch_size`. -/
def batchSize : ℕ := call.p_target.dim 0

/-- `K`. -/
def draftLength : ℕ := call.p_target.dim 1

/-- `vocab_size`. -/
def vocabSize : ℕ := call.p_target.dim 2

/-- What the launch is given; the two constants are cast to `uint32_t`. -/
def args : VerifyArgs α where
  p_target := call.p_target.data
  p_draft := call.p_draft.data
  draft_tokens := call.draft_tokens.data
  random_vals := call.random_vals.data
  K := toUInt call.draftLength
  vocab_size := toUInt call.vocabSize

/-- `speculative_verify`, up to the launch; the parameters are what the allocator and the registry
    answer. -/
def speculativeVerify (allocate : MNShape → MNDType → Except MNException Unit)
    (pipeline : String → Except MNException Unit) : Except MNException (VerifyRun α) := do
  speculativeCheck call.p_target call.p_draft call.draft_tokens call.random_vals
  emptyTensorCheck [call.batchSize, call.draftLength] .Int32
    (allocate [call.batchSize, call.draftLength] .Int32)
  emptyTensorCheck [call.batchSize] .Int32 (allocate [call.batchSize] .Int32)
  pipeline (speculativeKernelName call.p_target.dtype)
  return ⟨speculativeKernelName call.p_target.dtype, call.args, call.batchSize⟩

end SpeculativeCall

namespace VerifyRun

variable {α : Type} [LinearOrder α] [Zero α] [One α] (div : α → α → α) (run : VerifyRun α)

/-- The stores of all threads to `accepted`. -/
def maskStores : List (ℕ × ℤ) :=
  (List.range run.grid).flatMap fun tid => (run.args.thread div (toUInt tid)).accepted

/-- Those to `num_accepted`. -/
def countStores : List (ℕ × ℤ) :=
  (List.range run.grid).map fun tid => (toUInt tid, ((run.args.thread div (toUInt tid)).count : ℤ))

end VerifyRun

/-- What is in a buffer of `int` after stores in some order. -/
def storedInts {work : List (ℕ × ℤ)} (o : Interleaving work) : ℕ → Option ℤ :=
  storeAll o.items (fun w => w.1) (fun w => some w.2) fun _ => none

/-! ### The longest prefix -/

/-- The smallest position below `K` that fails, or `K`. -/
noncomputable def acceptedLength (K : ℕ) (fails : ℕ → Prop) : ℕ :=
  sInf ({i | i < K ∧ fails i} ∪ {K})

section Prefixes

variable {K j : ℕ} {fails : ℕ → Prop}

theorem acceptedLength_le (K : ℕ) (fails : ℕ → Prop) : acceptedLength K fails ≤ K :=
  Nat.sInf_le (.inr rfl)

/-- A position lies in the prefix where nothing fails up to it. -/
theorem lt_acceptedLength (hj : j < K) : j < acceptedLength K fails ↔ ∀ i ≤ j, ¬ fails i := by
  constructor
  · intro hlt i hi hfail
    have hle : acceptedLength K fails ≤ i := Nat.sInf_le (.inl ⟨by omega, hfail⟩)
    omega
  · intro hpass
    have hmem : acceptedLength K fails ∈ ({i | i < K ∧ fails i} ∪ {K} : Set ℕ) :=
      Nat.sInf_mem ⟨K, .inr rfl⟩
    by_contra hle
    obtain ⟨-, hfail⟩ | hK := hmem
    · exact hpass _ (by omega) hfail
    · rw [Set.mem_singleton_iff] at hK
      omega

theorem acceptedLength_congr {fails' : ℕ → Prop} (h : ∀ i < K, fails i ↔ fails' i) :
    acceptedLength K fails = acceptedLength K fails' := by
  unfold acceptedLength
  congr 2
  ext i
  exact and_congr_right fun hi => h i hi

/-- Everything below `m` is accepted. -/
def allAccepted (accepts : ℕ → Bool) (m : ℕ) : Bool := (List.range m).all accepts

theorem allAccepted_succ (accepts : ℕ → Bool) (m : ℕ) :
    allAccepted accepts (m + 1) = (allAccepted accepts m && accepts m) := by
  simp [allAccepted, range_succ]

/-- The number of positions below `m` that are accepted with all before them. -/
def acceptedCount (accepts : ℕ → Bool) (m : ℕ) : ℕ :=
  ((List.range m).filter fun j => allAccepted accepts (j + 1)).length

theorem acceptedCount_le (accepts : ℕ → Bool) (m : ℕ) : acceptedCount accepts m ≤ m := by
  have hle := length_filter_le (fun j => allAccepted accepts (j + 1)) (range m)
  rwa [length_range] at hle

theorem acceptedCount_succ (accepts : ℕ → Bool) (m : ℕ) :
    acceptedCount accepts (m + 1)
      = acceptedCount accepts m + if allAccepted accepts (m + 1) then 1 else 0 := by
  unfold acceptedCount
  rw [range_succ, filter_append, length_append]
  by_cases h : allAccepted accepts (m + 1) = true <;> simp [h]

/-- Accepting everything up to a position is being in the longest prefix. -/
theorem allAccepted_iff {accepts : ℕ → Bool} (h : ∀ i < K, accepts i = true ↔ ¬ fails i)
    (hj : j < K) : allAccepted accepts (j + 1) = true ↔ j < acceptedLength K fails := by
  rw [lt_acceptedLength hj]
  unfold allAccepted
  rw [all_eq_true]
  constructor
  · intro hall i hi
    exact (h i (by omega)).mp (hall i (mem_range.mpr (by omega)))
  · intro hpass i hi
    have hle := mem_range.mp hi
    exact (h i (by omega)).mpr (hpass i (by omega))

/-- The count is the length of the longest prefix. -/
theorem acceptedCount_eq {accepts : ℕ → Bool} (h : ∀ i < K, accepts i = true ↔ ¬ fails i) :
    acceptedCount accepts K = acceptedLength K fails := by
  have hle := acceptedLength_le K fails
  have hfilter : (range K).filter (fun j => allAccepted accepts (j + 1))
      = (range K).filter fun j => decide (j < acceptedLength K fails) := by
    apply filter_congr
    intro j hj
    rw [Bool.eq_iff_iff, allAccepted_iff h (mem_range.mp hj), decide_eq_true_eq]
  -- the positions of the prefix come first
  have hsplit : range K = range (acceptedLength K fails)
      ++ (range (K - acceptedLength K fails)).map (acceptedLength K fails + ·) := by
    rw [← range_add, Nat.add_sub_cancel' hle]
  have hbelow : (range (acceptedLength K fails)).filter
      (fun j => decide (j < acceptedLength K fails)) = range (acceptedLength K fails) := by
    rw [filter_eq_self]
    intro j hj
    exact decide_eq_true (mem_range.mp hj)
  have habove : ((range (K - acceptedLength K fails)).map (acceptedLength K fails + ·)).filter
      (fun j => decide (j < acceptedLength K fails)) = [] := by
    rw [filter_eq_nil_iff]
    intro j hj
    obtain ⟨d, -, rfl⟩ := mem_map.mp hj
    simp
  unfold acceptedCount
  rw [hfilter, hsplit, filter_append, hbelow, habove, append_nil, length_range]

end Prefixes

/-! ### A thread -/

section Thread

variable {α : Type} [LinearOrder α] [Zero α] [One α] {div : α → α → α} {a : VerifyArgs α}
  {batch_idx : ℕ}

/-- **A round of the loop**: it is still accepting where everything has been accepted, has counted
    what has been, and has refused the rest. -/
theorem VerifyArgs.rounds_eq {m : ℕ} (hm : m < uintRange) :
    (range m).foldl (a.step div batch_idx) {} =
      { count := acceptedCount (a.accepts div batch_idx) m
        still_accepting := allAccepted (a.accepts div batch_idx) m
        accepted := (range m).map fun j =>
          (a.cell batch_idx j, if allAccepted (a.accepts div batch_idx) (j + 1) then 1 else 0)
        reads := ((range m).filter fun j =>
          allAccepted (a.accepts div batch_idx) j).map fun j =>
          (j, a.cell batch_idx j, a.entry batch_idx j) } := by
  induction m with
  | zero => rfl
  | succ m ih =>
    have hcount := acceptedCount_le (a.accepts div batch_idx) m
    rw [range_succ, foldl_append, ih (by omega)]
    simp only [foldl_cons, foldl_nil, map_append, map_cons, map_nil,
      filter_append]
    rw [acceptedCount_succ, allAccepted_succ]
    unfold VerifyArgs.step
    cases hall : allAccepted (a.accepts div batch_idx) m with
    | false => simp [hall]
    | true =>
      cases haccept : a.accepts div batch_idx m with
      | false => simp [hall]
      | true =>
        have hwrap : toUInt (acceptedCount (a.accepts div batch_idx) m + 1)
            = acceptedCount (a.accepts div batch_idx) m + 1 := toUInt_of_lt (by omega)
        simp [hall, hwrap]

/-- What a thread leaves. -/
theorem VerifyArgs.thread_eq (hK : a.K < uintRange) :
    a.thread div batch_idx =
      { count := acceptedCount (a.accepts div batch_idx) a.K
        still_accepting := allAccepted (a.accepts div batch_idx) a.K
        accepted := (range a.K).map fun j =>
          (a.cell batch_idx j, if allAccepted (a.accepts div batch_idx) (j + 1) then 1 else 0)
        reads := ((range a.K).filter fun j =>
            allAccepted (a.accepts div batch_idx) j).map fun j =>
          (j, a.cell batch_idx j, a.entry batch_idx j) } := VerifyArgs.rounds_eq hK

/-- The test fails where the draft has no probability, or the random number is not below the
    quotient. -/
theorem not_lt_acceptProb {r p_t p_d : α} (hr : 0 ≤ r) :
    ¬ r < acceptProb div p_t p_d ↔ min 1 (div p_t p_d) ≤ r ∨ p_d ≤ 0 := by
  unfold acceptProb
  by_cases hpos : 0 < p_d
  · rw [if_pos hpos, not_lt, or_iff_left (not_le.mpr hpos)]
  · rw [if_neg hpos, not_lt]
    exact iff_of_true hr (.inr (not_lt.mp hpos))

end Thread

/-! ### A call -/

namespace SpeculativeCall

variable {α : Type} [LinearOrder α] [Zero α] [One α] (div : α → α → α) (call : SpeculativeCall α)

/-- The draft token at a position. -/
def token (b i : ℕ) : ℤ := call.draft_tokens.elementAt [b, i]

/-- The acceptance test fails at a position. -/
def Fails (b i : ℕ) : Prop :=
  min 1 (div (call.p_target.elementAt [b, i, (call.token b i).toNat])
      (call.p_draft.elementAt [b, i, (call.token b i).toNat])) ≤ call.random_vals.elementAt [b, i] ∨
    call.p_draft.elementAt [b, i, (call.token b i).toNat] ≤ 0

/-- The arguments that are promised: row-major tables of fewer than `2 ^ 32` probabilities, at least
    one draft token, tokens of the vocabulary, and random numbers that are not negative. -/
structure Promised : Prop where
  target : call.p_target.isContiguous = true
  draft : call.p_draft.isContiguous = true
  tokens : call.draft_tokens.isContiguous = true
  random : call.random_vals.isContiguous = true
  length_pos : 1 ≤ call.draftLength
  size_lt : call.batchSize * call.draftLength * call.vocabSize < uintRange
  token_mem : ∀ b < call.batchSize, ∀ i < call.draftLength,
    0 ≤ call.token b i ∧ call.token b i < call.vocabSize
  random_nonneg : ∀ b < call.batchSize, ∀ i < call.draftLength,
    0 ≤ call.random_vals.elementAt [b, i]

/-- Two calls have the same row: the lengths, the probabilities, the tokens and the random
    numbers. -/
structure SameRow (call call' : SpeculativeCall α) (b : ℕ) : Prop where
  length : call'.draftLength = call.draftLength
  vocab : call'.vocabSize = call.vocabSize
  target : ∀ i < call.draftLength, ∀ v < call.vocabSize,
    call'.p_target.elementAt [b, i, v] = call.p_target.elementAt [b, i, v]
  draft : ∀ i < call.draftLength, ∀ v < call.vocabSize,
    call'.p_draft.elementAt [b, i, v] = call.p_draft.elementAt [b, i, v]
  token : ∀ i < call.draftLength, call'.token b i = call.token b i
  random : ∀ i < call.draftLength,
    call'.random_vals.elementAt [b, i] = call.random_vals.elementAt [b, i]

/-- What row `b` is to get. -/
structure RowVerified (run : VerifyRun α) (b : ℕ) : Prop where
  count : ∀ o : Interleaving (run.countStores div),
    storedInts o b = some (acceptedLength call.draftLength (call.Fails div b) : ℤ)
  mask : ∀ o : Interleaving (run.maskStores div), ∀ i < call.draftLength,
    storedInts o (position [call.batchSize, call.draftLength] [b, i])
      = some (if i < acceptedLength call.draftLength (call.Fails div b) then 1 else 0)
  reads : ∀ r ∈ (run.args.thread div (toUInt b)).reads, r.1 < call.draftLength ∧
    r.2.1 = position [call.batchSize, call.draftLength] [b, r.1] ∧
      ∃ v < call.vocabSize,
        r.2.2 = position [call.batchSize, call.draftLength, call.vocabSize] [b, r.1, v]

section Rows

variable {call} {run : VerifyRun α} {allocate : MNShape → MNDType → Except MNException Unit}
  {pipeline : String → Except MNException Unit}

/-- The shapes of an accepted call. -/
structure Shaped (call : SpeculativeCall α) : Prop where
  target : call.p_target.dims = [call.batchSize, call.draftLength, call.vocabSize]
  draft : call.p_draft.dims = [call.batchSize, call.draftLength, call.vocabSize]
  tokens : call.draft_tokens.dims = [call.batchSize, call.draftLength]
  random : call.random_vals.dims = [call.batchSize, call.draftLength]

omit [LinearOrder α] [Zero α] [One α] in
/-- What an accepted call launches. -/
theorem speculativeVerify_eq_ok (h : call.speculativeVerify allocate pipeline = .ok run) :
    call.Shaped ∧ run.args = call.args ∧ run.grid = call.batchSize := by
  unfold speculativeVerify at h
  obtain ⟨u, hcheck, h⟩ := bind_eq_ok.mp h
  obtain ⟨-, -, h⟩ := bind_eq_ok.mp h
  obtain ⟨-, -, h⟩ := bind_eq_ok.mp h
  obtain ⟨-, -, h⟩ := bind_eq_ok.mp h
  obtain rfl := Except.ok.inj h
  refine ⟨?_, rfl, rfl⟩
  -- the shapes are those of the checks
  unfold speculativeCheck at hcheck
  obtain ⟨hndim, hcheck⟩ := mnCheck_bind_eq_ok.mp hcheck
  obtain ⟨-, hcheck⟩ := mnCheck_bind_eq_ok.mp hcheck
  obtain ⟨-, hcheck⟩ := mnCheck_bind_eq_ok.mp hcheck
  obtain ⟨-, hcheck⟩ := mnCheck_bind_eq_ok.mp hcheck
  obtain ⟨hdraft, hcheck⟩ := mnCheck_bind_eq_ok.mp hcheck
  obtain ⟨htokens, hcheck⟩ := mnCheck_bind_eq_ok.mp hcheck
  obtain ⟨hrandom, -⟩ := mnCheck_bind_eq_ok.mp hcheck
  have htarget : call.p_target.dims = [call.batchSize, call.draftLength, call.vocabSize] := by
    obtain ⟨x, y, z, hdims⟩ := length_eq_three.mp hndim
    unfold batchSize draftLength vocabSize MNTensor.dim
    rw [hdims]
    rfl
  exact ⟨htarget, hdraft.trans htarget, by rw [htokens, htarget]; rfl,
    by rw [hrandom, htarget]; rfl⟩

omit [One α] in
/-- The sizes that are promised do not wrap. -/
theorem Promised.sizes (h : call.Promised) {b : ℕ} (hb : b < call.batchSize) :
    0 < call.vocabSize ∧ call.batchSize * call.draftLength < uintRange ∧
      call.draftLength < uintRange ∧ call.vocabSize < uintRange ∧ call.batchSize < uintRange := by
  obtain ⟨hlow, hhigh⟩ := h.token_mem b hb 0 h.length_pos
  have hvocab : 0 < call.vocabSize := by omega
  have hlength := h.length_pos
  have hsize := h.size_lt
  have hcells : call.batchSize * call.draftLength
      ≤ call.batchSize * call.draftLength * call.vocabSize := Nat.le_mul_of_pos_right _ hvocab
  have hbatch : 0 < call.batchSize := by omega
  have hrow : call.draftLength ≤ call.batchSize * call.draftLength :=
    Nat.le_mul_of_pos_left _ hbatch
  have hrows : call.batchSize ≤ call.batchSize * call.draftLength :=
    Nat.le_mul_of_pos_right _ hlength
  have hentries : call.vocabSize ≤ call.batchSize * call.draftLength * call.vocabSize :=
    Nat.le_mul_of_pos_left _ (Nat.mul_pos hbatch hlength)
  exact ⟨hvocab, by omega, by omega, by omega, by omega⟩

/-- `position` of a table of two dimensions. -/
theorem position_two (B K b i : ℕ) : position [B, K] [b, i] = b * K + i := by
  simp [position]

/-- And of one of three. -/
theorem position_three (B K V b i v : ℕ) :
    position [B, K, V] [b, i, v] = b * K * V + i * V + v := by
  simp [position]
  ring

section Places

variable {b i : ℕ}

omit [One α] in
/-- A thread finds the token and the random number of a position at its place. -/
theorem cell_eq (h : call.Promised) (hb : b < call.batchSize) (hi : i < call.draftLength) :
    call.args.cell b i = position [call.batchSize, call.draftLength] [b, i] := by
  obtain ⟨-, hcells, hlength, -⟩ := h.sizes hb
  have hin : Within [call.batchSize, call.draftLength] [b, i] := ⟨hb, hi, trivial⟩
  have hlt := Strided.position_lt hin
  rw [prod_cons, prod_cons, prod_nil, Nat.mul_one] at hlt
  have hK : call.args.K = call.draftLength := toUInt_of_lt hlength
  rw [position_two] at hlt ⊢
  unfold VerifyArgs.cell
  rw [hK]
  exact toUInt_of_lt (by omega)

omit [One α] in
theorem token_eq (hshaped : call.Shaped) (h : call.Promised) (hb : b < call.batchSize)
    (hi : i < call.draftLength) :
    call.args.draft_tokens (call.args.cell b i) = call.token b i := by
  have hin : Within call.draft_tokens.dims [b, i] := by
    rw [hshaped.tokens]
    exact ⟨hb, hi, trivial⟩
  unfold token
  rw [cell_eq h hb hi, MNTensor.elementAt_of_isContiguous h.tokens hin, hshaped.tokens]
  rfl

omit [One α] in
/-- And the probabilities of its token at theirs. -/
theorem entry_eq (hshaped : call.Shaped) (h : call.Promised) (hb : b < call.batchSize)
    (hi : i < call.draftLength) :
    call.args.entry b i = position [call.batchSize, call.draftLength, call.vocabSize]
      [b, i, (call.token b i).toNat] := by
  obtain ⟨hvocab, -, hlength, hvocabulary, -⟩ := h.sizes hb
  obtain ⟨hlow, hhigh⟩ := h.token_mem b hb i hi
  have hin : Within [call.batchSize, call.draftLength, call.vocabSize]
      [b, i, (call.token b i).toNat] := ⟨hb, hi, by omega, trivial⟩
  have hlt := Strided.position_lt hin
  rw [prod_cons, prod_cons, prod_cons, prod_nil, Nat.mul_one,
    ← Nat.mul_assoc] at hlt
  have hsize := h.size_lt
  have hK : call.args.K = call.draftLength := toUInt_of_lt hlength
  have hV : call.args.vocab_size = call.vocabSize := toUInt_of_lt hvocabulary
  have htoken : uintOfInt (call.token b i) = (call.token b i).toNat := by
    conv_lhs => rw [← Int.toNat_of_nonneg hlow]
    exact uintOfInt_natCast (by omega)
  rw [position_three] at hlt ⊢
  unfold VerifyArgs.entry
  rw [token_eq hshaped h hb hi, hK, hV, htoken]
  exact toUInt_of_lt (by omega)

/-- A thread accepts a position where the test does not fail. -/
theorem accepts_iff (hshaped : call.Shaped) (h : call.Promised) (hb : b < call.batchSize)
    (hi : i < call.draftLength) :
    call.args.accepts div b i = true ↔ ¬ call.Fails div b i := by
  obtain ⟨hlow, hhigh⟩ := h.token_mem b hb i hi
  have hcell : Within call.random_vals.dims [b, i] := by
    rw [hshaped.random]
    exact ⟨hb, hi, trivial⟩
  have hentry : Within [call.batchSize, call.draftLength, call.vocabSize]
      [b, i, (call.token b i).toNat] := ⟨hb, hi, by omega, trivial⟩
  have htarget : Within call.p_target.dims [b, i, (call.token b i).toNat] := by
    rwa [hshaped.target]
  have hdraft : Within call.p_draft.dims [b, i, (call.token b i).toNat] := by
    rwa [hshaped.draft]
  have hnonneg := h.random_nonneg b hb i hi
  unfold Fails
  rw [← not_lt_acceptProb hnonneg, not_not]
  unfold VerifyArgs.accepts
  rw [decide_eq_true_eq, entry_eq hshaped h hb hi, cell_eq h hb hi,
    MNTensor.elementAt_of_isContiguous h.random hcell,
    MNTensor.elementAt_of_isContiguous h.target htarget,
    MNTensor.elementAt_of_isContiguous h.draft hdraft, hshaped.random, hshaped.target,
    hshaped.draft]
  rfl

end Places

omit [One α] in
/-- The stores of different rows go to different cells. -/
theorem cell_inj (h : call.Promised) {b b' i i' : ℕ} (hb : b < call.batchSize)
    (hi : i < call.draftLength) (hb' : b' < call.batchSize) (hi' : i' < call.draftLength)
    (heq : call.args.cell b i = call.args.cell b' i') : b = b' ∧ i = i' := by
  rw [cell_eq h hb hi, cell_eq h hb' hi'] at heq
  have hin : Within [call.batchSize, call.draftLength] [b, i] := ⟨hb, hi, trivial⟩
  have hin' : Within [call.batchSize, call.draftLength] [b', i'] := ⟨hb', hi', trivial⟩
  simpa using Strided.position_inj hin hin' heq

/-- **A row** gets its longest prefix. -/
theorem rowVerified (hrun : call.speculativeVerify allocate pipeline = .ok run)
    (h : call.Promised) {b : ℕ} (hb : b < call.batchSize) : call.RowVerified div run b := by
  obtain ⟨hshaped, hargs, hgrid⟩ := speculativeVerify_eq_ok hrun
  obtain ⟨-, -, hlength, -, hbatch⟩ := h.sizes hb
  have hK : call.args.K = call.draftLength := toUInt_of_lt hlength
  have htid : ∀ tid < call.batchSize, toUInt tid = tid :=
    fun tid htid => toUInt_of_lt (by omega)
  have hthread : ∀ tid, call.args.thread div tid = _ :=
    fun tid => VerifyArgs.thread_eq (hK.symm ▸ hlength)
  have haccepts : ∀ tid < call.batchSize, ∀ i < call.draftLength,
      call.args.accepts div tid i = true ↔ ¬ call.Fails div tid i :=
    fun tid ht i hi => accepts_iff div hshaped h ht hi
  constructor
  · intro o
    apply storeAll_of_mem
    · -- the only store to this cell is that of the row's thread
      intro w hw haddress
      rw [o.mem_items] at hw
      unfold VerifyRun.countStores at hw
      obtain ⟨tid, ht, rfl⟩ := mem_map.mp hw
      rw [hgrid, mem_range] at ht
      simp only [htid tid ht] at haddress ⊢
      subst haddress
      rw [hargs, hthread]
      simp only [hK, acceptedCount_eq (haccepts tid ht)]
    · refine .inl ⟨(b, ((call.args.thread div b).count : ℤ)), ?_, rfl⟩
      rw [o.mem_items]
      unfold VerifyRun.countStores
      refine mem_map.mpr ⟨b, ?_, ?_⟩
      · rwa [hgrid, mem_range]
      · rw [htid b hb, hargs]
  · intro o i hi
    rw [← cell_eq h hb hi]
    -- all stores to this cell are the one of round `i` of the row's thread
    have hstore : ∀ w, w ∈ run.maskStores div ↔ ∃ tid < call.batchSize,
        ∃ j < call.draftLength, w = (call.args.cell tid j,
          if allAccepted (call.args.accepts div tid) (j + 1) then 1 else 0) := by
      intro w
      unfold VerifyRun.maskStores
      rw [hgrid, hargs]
      simp only [mem_flatMap, mem_range]
      constructor
      · rintro ⟨tid, ht, hw⟩
        rw [htid tid ht, hthread] at hw
        obtain ⟨j, hj, rfl⟩ := mem_map.mp hw
        rw [hK, mem_range] at hj
        exact ⟨tid, ht, j, hj, rfl⟩
      · rintro ⟨tid, ht, j, hj, rfl⟩
        refine ⟨tid, ht, ?_⟩
        rw [htid tid ht, hthread]
        exact mem_map.mpr ⟨j, by rwa [hK, mem_range], rfl⟩
    have hmask : ∀ j < call.draftLength,
        (if allAccepted (call.args.accepts div b) (j + 1) then (1 : ℤ) else 0)
          = if j < acceptedLength call.draftLength (call.Fails div b) then 1 else 0 := by
      intro j hj
      simp only [allAccepted_iff (haccepts b hb) hj]
    apply storeAll_of_mem
    · intro w hw haddress
      rw [o.mem_items, hstore] at hw
      obtain ⟨tid, ht, j, hj, rfl⟩ := hw
      obtain ⟨rfl, rfl⟩ := cell_inj h ht hj hb hi haddress
      rw [hmask j hj]
    · refine .inl ⟨(call.args.cell b i,
        if allAccepted (call.args.accepts div b) (i + 1) then 1 else 0), ?_, rfl⟩
      rw [o.mem_items, hstore]
      exact ⟨b, hb, i, hi, rfl⟩
  · intro r hr
    rw [htid b hb, hargs, hthread] at hr
    obtain ⟨j, hj, rfl⟩ := mem_map.mp hr
    have hin : j < call.draftLength := by
      rw [← hK]
      exact mem_range.mp (mem_of_mem_filter hj)
    obtain ⟨hlow, hhigh⟩ := h.token_mem b hb j hin
    exact ⟨hin, cell_eq h hb hin, (call.token b j).toNat, by omega, entry_eq hshaped h hb hin⟩

/-- The test of a row depends on that row only. -/
theorem SameRow.fails_iff {call' : SpeculativeCall α} {b : ℕ} (hsame : SameRow call call' b)
    (h : call.Promised) (hb : b < call.batchSize) {i : ℕ} (hi : i < call.draftLength) :
    call.Fails div b i ↔ call'.Fails div b i := by
  obtain ⟨hlow, hhigh⟩ := h.token_mem b hb i hi
  unfold Fails
  rw [hsame.token i hi, hsame.target i hi _ (by omega), hsame.draft i hi _ (by omega),
    hsame.random i hi]

end Rows

end SpeculativeCall

section Verified

variable {α : Type} [LinearOrder α] [Zero α] [One α] (div : α → α → α)

end Verified

/-- Two draft tokens: the draft gives no probability to the second. -/
def secondTokenRefused : SpeculativeCall ℤ where
  p_target := ⟨fun _ => 1, [1, 2, 2], [4, 2, 1], .Float32, 0, by decide, by decide⟩
  p_draft := ⟨fun i => if i = 3 then 0 else 1, [1, 2, 2], [4, 2, 1], .Float32, 0, by decide,
    by decide⟩
  draft_tokens := ⟨fun i => i, [1, 2], [2, 1], .Int32, 0, by decide, by decide⟩
  random_vals := ⟨fun _ => 0, [1, 2], [2, 1], .Float32, 0, by decide, by decide⟩

end MetalNative
