import MetalNative.Graph.OperatorCaches
import MetalNative.Lib.HashedTable

namespace MetalNative

open HashedTable Run

/-!
# The shapes and tensor data of `matmul`

A translation of `cached_ns_shape` and of the caches for `MPSGraphTensorData` in `matmul.mm`.  The
array of a shape and the data of an operand are found by a hash of the dimensions, and the
dimensions themselves are not compared.

* `shapeHash`, `cachedNsShape` — the hash, and the cache of a thread.
* `TensorDataCache`, `TensorSystem.step` — the caches of the operands, and the calls of all threads:
  a look into a cache under the shared lock, and the write after a miss under the unique lock.
* `cached_shapes_requested` — every answer is the shape, or the data, of the call exactly if no call
  meets another shape with its hash.
* `cached_shape_confused`, `tensor_data_confused` — calls that do.
-/

/-- The hash of `cached_ns_shape`, which the caches of the operands repeat. -/
def shapeHash (dims : List ℕ) : UInt64 :=
  dims.foldl (fun hash d => hash * 31 + UInt64.ofNat d) (UInt64.ofNat dims.length)

/-- `shape_cache` of a thread. -/
abbrev ShapeCache := Table UInt64 (List ℕ)

/-- `cached_ns_shape`. -/
def cachedNsShape (shape_cache : ShapeCache) (dims : List ℕ) : List ℕ × ShapeCache :=
  shape_cache.get shapeHash 64 dims

/-! ### One thread's shapes -/

/-- A call of `cached_ns_shape`: the shape, those passed since the cache was cleared, and the
    result. -/
structure ShapeCall where
  dims : List ℕ
  seen : List (List ℕ)
  result : List ℕ

/-- The cache of a thread, and the calls so far. -/
structure ShapeThread where
  shape_cache : ShapeCache := {}
  calls : List ShapeCall := []

namespace ShapeThread

/-- One call. -/
def step (s : ShapeThread) (dims : List ℕ) : Option ShapeThread :=
  some
    { shape_cache := (cachedNsShape s.shape_cache dims).2
      calls := ⟨dims, s.shape_cache.asked, (cachedNsShape s.shape_cache dims).1⟩ :: s.calls }

/-- Every call got its shape. -/
def Right (s : ShapeThread) : Prop := ∀ c ∈ s.calls, c.result = c.dims

/-- No call met another shape with its hash. -/
def NoneClash (s : ShapeThread) : Prop := ∀ c ∈ s.calls, Clean shapeHash c.seen c.dims

instance (s : ShapeThread) : Decidable s.Right := inferInstanceAs (Decidable (∀ c ∈ s.calls, _))

instance (s : ShapeThread) : Decidable s.NoneClash :=
  inferInstanceAs (Decidable (∀ c ∈ s.calls, _))

/-- As long as the answers were right the cache is exact. -/
structure Inv (s : ShapeThread) : Prop where
  right_iff : s.Right ↔ s.NoneClash
  exact : s.Right → Exact shapeHash s.shape_cache

theorem Inv.init : Inv {} where
  right_iff := iff_of_true (fun _ h => absurd h List.not_mem_nil) fun _ h =>
    absurd h List.not_mem_nil
  exact _ := .empty

theorem Inv.step {s s' : ShapeThread} {dims : List ℕ} (hi : s.Inv) (h : s.step dims = some s') :
    s'.Inv := by
  obtain rfl := Option.some.inj h
  have hnew : s.Right → ((cachedNsShape s.shape_cache dims).1 = dims ↔
      Clean shapeHash s.shape_cache.asked dims) :=
    fun hright => (hi.exact hright).get_eq_iff
  constructor
  · unfold Right NoneClash
    simp only [List.forall_mem_cons]
    constructor
    · rintro ⟨hresult, hold⟩
      exact ⟨(hnew hold).mp hresult, hi.right_iff.mp hold⟩
    · rintro ⟨hclean, hold⟩
      have hright := hi.right_iff.mpr hold
      exact ⟨(hnew hright).mpr hclean, hright⟩
  · intro hright
    obtain ⟨hresult, hold⟩ := List.forall_mem_cons.mp hright
    exact (hi.exact hold).get ((hnew hold).mp hresult)

end ShapeThread

/-! ### The caches of the operands -/

/-- `a`, `b` and the result. -/
inductive Operand where
  | a
  | b
  | result
  deriving DecidableEq, Repr

/-- `MPSGraphTensorData`: a buffer, by its identity, a shape and a data type. -/
structure TensorData where
  buffer : ℕ
  shape : List ℕ
  dataType : MPSDataType
  deriving DecidableEq, Repr

/-- `TensorDataCache`. -/
structure TensorDataCache where
  shape_hash : UInt64 := 0
  dtype : MPSDataType := .Float32
  buffer : Option ℕ := none
  data : Option TensorData := none

/-- What `matmul` needs for an operand. -/
structure TensorRequest where
  operand : Operand
  buffer : ℕ
  dims : List ℕ
  dtype : MPSDataType

/-- The data that describes it. -/
def TensorRequest.described (r : TensorRequest) : TensorData := ⟨r.buffer, r.dims, r.dtype⟩

/-- The comparison under the shared lock. -/
def TensorDataCache.holds (c : TensorDataCache) (r : TensorRequest) : Bool :=
  c.buffer = some r.buffer ∧ c.shape_hash = shapeHash r.dims ∧ c.dtype = r.dtype

/-- The cache of an operand, and the shape that it was filled for. -/
structure TensorSlot where
  cache : TensorDataCache := {}
  filledFor : List ℕ := []

/-- A thread: what it has yet to ask for, the data that it has yet to write to a cache, and its cache
    of shapes. -/
structure TensorThread where
  todo : List TensorRequest := []
  pending : Option (TensorRequest × TensorData) := none
  shape_cache : ShapeCache := {}

/-- What was used for a request, and the shapes that the caches compared with it. -/
structure TensorUse where
  request : TensorRequest
  seen : List (List ℕ)
  data : Option TensorData

/-- The caches, which the threads share, the threads, and the uses so far. -/
structure TensorSystem where
  slots : Operand → TensorSlot := fun _ => {}
  threads : ℕ → TensorThread := fun _ => {}
  uses : List TensorUse := []

/-- A thread begins a call with the buffers of its operands and, unless its allocation fails, of its
    result; it looks into the next cache; or it writes to one. -/
inductive TensorEvent (α : Type*) where
  | call (thread : ℕ) (call : MatmulCall α) (a b : ℕ) (result : Option ℕ)
  | read (thread : ℕ)
  | write (thread : ℕ)

/-- The requests of a call on the MPSGraph path, in their order. -/
def MatmulCall.requests {α : Type*} (c : MatmulCall α) (a b : ℕ) (result : Option ℕ) :
    List TensorRequest :=
  match matmulCheck c.a c.b c.transpose_a c.transpose_b, toMpsDatatype c.a.dtype with
  | .ok d, .ok mps_dtype =>
    if matmulPath c.a c.b d = .MPSGraph then
      [⟨.a, a, c.a.dims, mps_dtype⟩, ⟨.b, b, c.b.dims, mps_dtype⟩]
        ++ result.toList.map fun buffer => ⟨.result, buffer, matmulShape c.a d, mps_dtype⟩
    else []
  | _, _ => []

namespace TensorSystem

variable {α : Type*}

/-- A look into the cache of an operand; after a miss new data is made, with the shape that the
    thread's own cache has. -/
def lookup (s : TensorSystem) (i : ℕ) (r : TensorRequest) (rest : List TensorRequest) :
    TensorSystem :=
  let thread := s.threads i
  let slot := s.slots r.operand
  if slot.cache.holds r then
    { s with
      threads := Function.update s.threads i { thread with todo := rest }
      uses := ⟨r, [slot.filledFor], slot.cache.data⟩ :: s.uses }
  else
    let data : TensorData := ⟨r.buffer, (cachedNsShape thread.shape_cache r.dims).1, r.dtype⟩
    { s with
      threads := Function.update s.threads i
        { todo := rest
          pending := some (r, data)
          shape_cache := (cachedNsShape thread.shape_cache r.dims).2 }
      uses := ⟨r, thread.shape_cache.asked, some data⟩ :: s.uses }

/-- The write after a miss. -/
def fill (s : TensorSystem) (i : ℕ) (r : TensorRequest) (data : TensorData) : TensorSystem :=
  { s with
    slots := Function.update s.slots r.operand
      { cache :=
          { shape_hash := shapeHash r.dims
            dtype := r.dtype
            buffer := some r.buffer
            data := some data }
        filledFor := r.dims }
    threads := Function.update s.threads i { s.threads i with pending := none } }

/-- One event. -/
def step (s : TensorSystem) : TensorEvent α → Option TensorSystem
  | .call i c a b result =>
    if (s.threads i).todo.isEmpty ∧ (s.threads i).pending.isNone then
      some { s with
        threads := Function.update s.threads i
          { s.threads i with todo := c.requests a b result } }
    else none
  | .read i =>
    match (s.threads i).todo, (s.threads i).pending with
    | r :: rest, none => some (s.lookup i r rest)
    | _, _ => none
  | .write i => (s.threads i).pending.map fun p => s.fill i p.1 p.2

/-- Every request was answered with the data that describes it. -/
def Right (s : TensorSystem) : Prop := ∀ u ∈ s.uses, u.data = some u.request.described

/-- No request met another shape with its hash. -/
def NoneClash (s : TensorSystem) : Prop :=
  ∀ u ∈ s.uses, Clean shapeHash u.seen u.request.dims

instance (s : TensorSystem) : Decidable s.Right := inferInstanceAs (Decidable (∀ u ∈ s.uses, _))

instance (s : TensorSystem) : Decidable s.NoneClash :=
  inferInstanceAs (Decidable (∀ u ∈ s.uses, _))

/-- The buffer and the data type of what was used are always those of the request. -/
def BuffersRight (s : TensorSystem) : Prop :=
  ∀ u ∈ s.uses, ∃ shape, u.data = some ⟨u.request.buffer, shape, u.request.dtype⟩

/-- A cache that has been filled has data of its buffer and data type, with a shape of the hash. -/
def SlotTyped (slot : TensorSlot) : Prop :=
  ∀ b, slot.cache.buffer = some b → slot.cache.shape_hash = shapeHash slot.filledFor ∧
    ∃ shape, slot.cache.data = some ⟨b, shape, slot.cache.dtype⟩

/-- The shape is the one that it was filled for. -/
def SlotRight (slot : TensorSlot) : Prop :=
  ∀ b, slot.cache.buffer = some b → slot.cache.data = some ⟨b, slot.filledFor, slot.cache.dtype⟩

/-- Data on its way to a cache has the buffer and the data type of its request. -/
def ThreadTyped (t : TensorThread) : Prop :=
  ∀ p ∈ t.pending, ∃ shape, p.2 = ⟨p.1.buffer, shape, p.1.dtype⟩

/-- It has the shape as well, and the shapes of the thread are exact. -/
structure ThreadRight (t : TensorThread) : Prop where
  pending : ∀ p ∈ t.pending, p.2 = p.1.described
  exact : Exact shapeHash t.shape_cache

/-- Buffers and data types are right; and as long as the answers were right, so is everything in the
    caches and on its way to them. -/
structure Inv (s : TensorSystem) : Prop where
  buffers : s.BuffersRight
  slots : ∀ o, SlotTyped (s.slots o)
  threads : ∀ i, ThreadTyped (s.threads i)
  right_iff : s.Right ↔ s.NoneClash
  slots_right : s.Right → ∀ o, SlotRight (s.slots o)
  threads_right : s.Right → ∀ i, ThreadRight (s.threads i)

theorem Inv.init : Inv {} where
  buffers _ h := absurd h List.not_mem_nil
  slots _ _ h := by simp at h
  threads _ _ h := by simp at h
  right_iff := iff_of_true (fun _ h => absurd h List.not_mem_nil) fun _ h =>
    absurd h List.not_mem_nil
  slots_right _ _ _ h := by simp at h
  threads_right _ _ := ⟨fun _ h => by simp at h, .empty⟩

variable {s s' : TensorSystem} {i : ℕ} {r : TensorRequest} {rest : List TensorRequest}

/-- What is found in a cache is right exactly if the cache was filled for this shape. -/
theorem Inv.hit_iff (hi : s.Inv) (hright : s.Right)
    (hholds : (s.slots r.operand).cache.holds r = true) :
    (s.slots r.operand).cache.data = some r.described ↔
      Clean shapeHash [(s.slots r.operand).filledFor] r.dims := by
  simp only [TensorDataCache.holds, decide_eq_true_eq] at hholds
  obtain ⟨hbuffer, hhash, hdtype⟩ := hholds
  have hfilled := (hi.slots r.operand _ hbuffer).1
  rw [hi.slots_right hright r.operand _ hbuffer, TensorRequest.described, hdtype]
  simp [Clean, ← hfilled, hhash]

/-- What is made after a miss is right exactly if the thread has passed no other shape with this
    hash. -/
theorem Inv.miss_iff (hi : s.Inv) (hright : s.Right) :
    (cachedNsShape (s.threads i).shape_cache r.dims).1 = r.dims ↔
      Clean shapeHash (s.threads i).shape_cache.asked r.dims :=
  (hi.threads_right hright i).exact.get_eq_iff

/-- **A look into a cache.** -/
theorem Inv.lookup (hi : s.Inv) : (s.lookup i r rest).Inv := by
  unfold TensorSystem.lookup
  dsimp only
  split_ifs with hholds
  · -- a hit
    have hbuffer : ∃ shape, (s.slots r.operand).cache.data = some ⟨r.buffer, shape, r.dtype⟩ := by
      have hmatch := hholds
      simp only [TensorDataCache.holds, decide_eq_true_eq] at hmatch
      obtain ⟨-, shape, hdata⟩ := hi.slots r.operand _ hmatch.1
      exact ⟨shape, by rw [hdata, hmatch.2.2]⟩
    refine ⟨List.forall_mem_cons.mpr ⟨hbuffer, hi.buffers⟩, hi.slots, ?_, ?_, ?_, ?_⟩
    · exact (Function.forall_update_iff _ fun _ t => ThreadTyped t).mpr
        ⟨hi.threads i, fun j _ => hi.threads j⟩
    · unfold Right NoneClash
      simp only [List.forall_mem_cons]
      constructor
      · rintro ⟨hdata, hold⟩
        exact ⟨(hi.hit_iff hold hholds).mp hdata, hi.right_iff.mp hold⟩
      · rintro ⟨hclean, hold⟩
        have hright := hi.right_iff.mpr hold
        exact ⟨(hi.hit_iff hright hholds).mpr hclean, hright⟩
    · exact fun hright => hi.slots_right (List.forall_mem_cons.mp hright).2
    · intro hright
      have hthreads := hi.threads_right (List.forall_mem_cons.mp hright).2
      exact (Function.forall_update_iff _ fun _ t => ThreadRight t).mpr
        ⟨⟨(hthreads i).pending, (hthreads i).exact⟩, fun j _ => hthreads j⟩
  · -- a miss: the data waits to be written
    refine ⟨List.forall_mem_cons.mpr ⟨⟨_, rfl⟩, hi.buffers⟩, hi.slots, ?_, ?_, ?_, ?_⟩
    · refine (Function.forall_update_iff _ fun _ t => ThreadTyped t).mpr
        ⟨fun p hp => ?_, fun j _ => hi.threads j⟩
      obtain rfl := Option.mem_some.mp hp
      exact ⟨_, rfl⟩
    · unfold Right NoneClash
      simp only [List.forall_mem_cons, TensorRequest.described, Option.some.injEq,
        TensorData.mk.injEq, true_and, and_true]
      constructor
      · rintro ⟨hshape, hold⟩
        exact ⟨(hi.miss_iff hold).mp hshape, hi.right_iff.mp hold⟩
      · rintro ⟨hclean, hold⟩
        have hright := hi.right_iff.mpr hold
        exact ⟨(hi.miss_iff hright).mpr hclean, hright⟩
    · exact fun hright => hi.slots_right (List.forall_mem_cons.mp hright).2
    · intro hright
      obtain ⟨hdata, hold⟩ := List.forall_mem_cons.mp hright
      have hthreads := hi.threads_right hold
      have hshape : (cachedNsShape (s.threads i).shape_cache r.dims).1 = r.dims := by
        simpa [TensorRequest.described] using hdata
      refine (Function.forall_update_iff _ fun _ t => ThreadRight t).mpr
        ⟨⟨fun p hp => ?_, (hthreads i).exact.get ((hi.miss_iff hold).mp hshape)⟩,
          fun j _ => hthreads j⟩
      obtain rfl := Option.mem_some.mp hp
      simp [TensorRequest.described, hshape]

/-- **The write after a miss.** -/
theorem Inv.fill (hi : s.Inv) {data : TensorData}
    (hp : (s.threads i).pending = some (r, data)) : (s.fill i r data).Inv := by
  obtain ⟨shape, hdata⟩ := hi.threads i (r, data) hp
  refine ⟨hi.buffers, ?_, ?_, hi.right_iff, fun hright => ?_, fun hright => ?_⟩
  · refine (Function.forall_update_iff _ fun _ slot => SlotTyped slot).mpr
      ⟨fun b hb => ?_, fun o _ => hi.slots o⟩
    obtain rfl := Option.some.inj hb
    exact ⟨rfl, shape, congrArg some hdata⟩
  · exact (Function.forall_update_iff _ fun _ t => ThreadTyped t).mpr
      ⟨fun p h => by simp at h, fun j _ => hi.threads j⟩
  · refine (Function.forall_update_iff _ fun _ slot => SlotRight slot).mpr
      ⟨fun b hb => ?_, fun o _ => hi.slots_right hright o⟩
    obtain rfl := Option.some.inj hb
    exact congrArg some ((hi.threads_right hright i).pending (r, data) hp)
  · exact (Function.forall_update_iff _ fun _ t => ThreadRight t).mpr
      ⟨⟨fun p h => by simp at h, (hi.threads_right hright i).exact⟩,
        fun j _ => hi.threads_right hright j⟩

theorem Inv.step {e : TensorEvent α} (hi : s.Inv) (h : s.step e = some s') : s'.Inv := by
  unfold TensorSystem.step at h
  cases e with
  | call i c a b result =>
    dsimp only at h
    split_ifs at h
    obtain rfl := Option.some.inj h
    refine ⟨hi.buffers, hi.slots, ?_, hi.right_iff, hi.slots_right, fun hright => ?_⟩
    · exact (Function.forall_update_iff _ fun _ t => ThreadTyped t).mpr
        ⟨hi.threads i, fun j _ => hi.threads j⟩
    · exact (Function.forall_update_iff _ fun _ t => ThreadRight t).mpr
        ⟨⟨(hi.threads_right hright i).pending, (hi.threads_right hright i).exact⟩,
          fun j _ => hi.threads_right hright j⟩
  | read i =>
    dsimp only at h
    split at h
    · obtain rfl := Option.some.inj h
      exact hi.lookup
    · cases h
  | write i =>
    obtain ⟨⟨r, data⟩, hp, rfl⟩ := Option.map_eq_some_iff.mp h
    exact hi.fill hp

end TensorSystem

/-- **The shapes and data of `matmul`.**  On a thread every call of `cached_ns_shape` gets its shape
    exactly if none meets another shape with its hash that has been passed since the cache was
    cleared.  On all threads the data that is used for an operand has its buffer and its data type,
    and every one its shape exactly if none meets another shape with its hash: the one for which the
    cache of the operand was filled, or after a miss those that its thread has passed. -/
theorem cached_shapes_requested (α : Type*) :
    (∀ s, Reaches ShapeThread.step {} s → (s.Right ↔ s.NoneClash)) ∧
    (∀ s, Reaches (TensorSystem.step (α := α)) {} s →
      s.BuffersRight ∧ (s.Right ↔ s.NoneClash)) := by
  refine ⟨fun s h => ?_, fun s h => ?_⟩
  · have hi : s.Inv := h.invariant .init fun _ _ _ hi _ hstep => hi.step hstep
    exact hi.right_iff
  · have hi : s.Inv := h.invariant .init fun _ _ _ hi _ hstep => hi.step hstep
    exact ⟨hi.buffers, hi.right_iff⟩

/-! ### Shapes with one hash -/

section Examples

/-- A product with a row of a buffer, in which every second element is taken. -/
def rowCall : MatmulCall Unit where
  a := zeroTensor [1, 32] [64, 2] .Float16 (by decide) (by decide)
  b := zeroTensor [32, 4] [4, 1] .Float16 (by decide) (by decide)
  transpose_a := false
  transpose_b := false

theorem pairCall_a_dims : ∀ d ∈ [2, 1], d < 2 ^ 63 := by decide

theorem pairCall_a_numel : [2, 1].prod < 2 ^ 63 := by decide

theorem pairCall_b_dims : ∀ d ∈ [1, 4], d < 2 ^ 63 := by decide

theorem pairCall_b_numel : [1, 4].prod < 2 ^ 63 := by decide

/-- A product with two of its elements. -/
def pairCall : MatmulCall Unit where
  a := zeroTensor [2, 1] [2, 1] .Float16 pairCall_a_dims pairCall_a_numel
  b := zeroTensor [1, 4] [4, 1] .Float16 pairCall_b_dims pairCall_b_numel
  transpose_a := false
  transpose_b := false

/-- The events of a call on a thread that finds none of its operands. -/
def missingCall (c : MatmulCall Unit) (a b result : ℕ) : List (TensorEvent Unit) :=
  [.call 0 c a b (some result), .read 0, .write 0, .read 0, .write 0, .read 0, .write 0]

/-- `[1, 32]` and `[2, 1]` have one hash: the array of one is given for the other, and the data of a
    row of a buffer for two of its elements. -/
theorem cached_shapes_confused :
    (∃ s, Reaches ShapeThread.step {} s ∧ ¬ s.Right) ∧
    (∃ s, Reaches (TensorSystem.step (α := Unit)) {} s ∧ ¬ s.Right) :=
  ⟨exists_reaches [[1, 32], [2, 1]] (by decide +kernel),
    exists_reaches (missingCall rowCall 0 1 2 ++ [.call 0 pairCall 0 1 (some 3), .read 0])
      (by decide +kernel)⟩

/-- Shapes with different hashes, and two products with different buffers. -/
theorem cached_shapes_requested_apart :
    (∃ s, Reaches ShapeThread.step {} s ∧ s.calls.length = 3 ∧ s.Right) ∧
    (∃ s, Reaches (TensorSystem.step (α := Unit)) {} s ∧ s.uses.length = 6 ∧ s.Right) := by
  obtain ⟨s, hs, hcalls, hclash⟩ : ∃ s, Reaches ShapeThread.step {} s ∧ s.calls.length = 3 ∧
      s.NoneClash :=
    exists_reaches [[2, 3], [4], [2, 3]] (by decide +kernel)
  obtain ⟨u, hu, huses, hnone⟩ : ∃ u, Reaches (TensorSystem.step (α := Unit)) {} u ∧
      u.uses.length = 6 ∧ u.NoneClash :=
    exists_reaches (missingCall rowCall 0 1 2 ++ missingCall rowCall 3 4 5) (by decide +kernel)
  exact ⟨⟨s, hs, hcalls, ((cached_shapes_requested Unit).1 s hs).mpr hclash⟩,
    ⟨u, hu, huses, ((cached_shapes_requested Unit).2 u hu).2.mpr hnone⟩⟩

end Examples

end MetalNative
