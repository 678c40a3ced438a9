import MetalNative.Dispatch.HostSystem
import MetalNative.Lib.Run

namespace MetalNative

open Run Option List

/-!
# What the CPU reads has been written

`MNDevice::synchronize` waits for what is committed and commits nothing of the pipeline; the CPU
path of `matmul` does not even wait.

* `ReadsSettled` — the kernels that write what the CPU is about to read are committed and complete.
* `ReadSafe` — the condition on a step: a tensor is exported or copied with all its writers
  committed, and the CPU path of `matmul` finds the writers of its operands complete.
* `cpu_reads_settled` — every run of such steps reads only settled tensors.
* `unsettled_reads` — an export in lazy mode, and an operand of the CPU path in eager mode.
-/

namespace Host

/-- The kernels that write a Metal buffer have been committed. -/
def Committed (s : Host) (buf : ObjId) : Prop :=
  ∀ e ∈ s.encoded, e.output = buf → e.commandBuffer ∈ s.sys.pipe.committed

/-- The kernels that write a Metal buffer have been committed and have completed. -/
def Settled (s : Host) (buf : ObjId) : Prop :=
  ∀ e ∈ s.encoded, e.output = buf →
    e.commandBuffer ∈ s.sys.pipe.committed ∧ e.commandBuffer ∉ s.sys.pipe.pending

instance (s : Host) (buf : ObjId) : Decidable (s.Committed buf) := by
  unfold Committed
  infer_instance

instance (s : Host) (buf : ObjId) : Decidable (s.Settled buf) := by
  unfold Settled
  infer_instance

end Host

/-- The Metal buffers whose bytes are read next: by the CPU, or by the blit of `to_shared`. -/
def HostPC.reads : HostPC → List ObjId
  | .reading buffers _ => buffers
  | .blit t _ => t.bytes
  | _ => []

/-- The Metal buffers whose bytes will be read after `waitUntilCompleted`. -/
def Cont.reads : Cont → List ObjId
  | .done => []
  | .toNumpy t => t.bytes
  | .item t => t.bytes
  | .toShared t _ => t.bytes
  | .copied out _ => out.bytes

/-- Whenever bytes of a tensor are read, every operation issued earlier that writes it has been
    committed and has completed. -/
def ReadsSettled (s : Host) : Prop := ∀ buf ∈ s.pc.reads, s.Settled buf

instance (s : Host) : Decidable (ReadsSettled s) := by
  unfold ReadsSettled
  infer_instance

/-- The condition on a call: who exports or copies a tensor has no writer of it uncommitted, and who
    multiplies on the CPU has no writer of an operand uncommitted or running. -/
def CallSafe (s : Host) : TensorOp → Prop
  | .toShared i =>
    match s.tensors[i]? with
    | some t => t.storageMode = .Private → ∀ buf ∈ t.bytes, s.Committed buf
    | none => True
  | .tensorToNumpy i =>
    match s.tensors[i]? with
    | some t => ∀ buf ∈ t.bytes, s.Committed buf
    | none => True
  | .tensorItem i =>
    match s.tensors[i]? with
    | some t => t.tensor.numel = 1 → ∀ buf ∈ t.bytes, s.Committed buf
    | none => True
  | .matmul i j transpose_a transpose_b =>
    match s.tensors[i]?, s.tensors[j]? with
    | some a, some b =>
      match matmulCheck a.tensor b.tensor transpose_a transpose_b with
      | .ok d =>
        shouldUseCpuPath a.tensor b.tensor d = true →
          ∀ buf ∈ Host.cpuOperands a b d, s.Settled buf
      | .error _ => True
    | _, _ => True
  | _ => True

/-- The condition on a step: that on the call, and Metal hands out the barrier that a read waits for
    when there is something to wait for. -/
def ReadSafe (s : Host) : HostAction → Prop
  | .call op => CallSafe s op
  | .run env =>
    match s.pc with
    | .synchronize next => env.createOk = true ∨ ∀ buf ∈ next.reads, s.Settled buf
    | _ => True
  | .complete => True

instance (s : Host) (op : TensorOp) : Decidable (CallSafe s op) := by
  cases op <;> unfold CallSafe
  all_goals repeat' split
  all_goals infer_instance

instance (s : Host) (a : HostAction) : Decidable (ReadSafe s a) := by
  cases a <;> unfold ReadSafe
  all_goals repeat' split
  all_goals infer_instance

/-! ### The invariant -/

/-- What holds where the thread stands. -/
def PcInv (s : Host) : HostPC → Prop
  | .idle => True
  | .calling (.encode out) => out.buffer < s.nextBuffer
  | .calling _ => True
  | .encode out => out.buffer < s.nextBuffer
  | .synchronize next => ∀ buf ∈ next.reads, s.Committed buf
  | .waiting cb next =>
    (∀ buf ∈ next.reads, s.Committed buf) ∧
      (s.sys.pipe.pending = [] ∨ s.sys.pipe.pending.getLast? = some cb)
  | .blit t _ => ∀ buf ∈ t.bytes, s.Settled buf
  | .reading buffers _ => ∀ buf ∈ buffers, s.Settled buf

/-- Kernels write Metal buffers that exist, and the thread stands where it may. -/
structure HostInv (s : Host) : Prop where
  encoded_lt : ∀ e ∈ s.encoded, e.output < s.nextBuffer
  atPc : PcInv s s.pc

variable {s s' : Host} {buf : ObjId}

theorem Host.Settled.committed (h : s.Settled buf) : s.Committed buf :=
  fun e he hout => (h e he hout).1

/-- Nothing is pending any more, so what is committed has completed. -/
theorem Host.Committed.settled (h : s.Committed buf) (hpending : s.sys.pipe.pending = []) :
    s.Settled buf := by
  intro e he hout
  refine ⟨h e he hout, ?_⟩
  rw [hpending]
  exact not_mem_nil

/-- A new Metal buffer has no writer. -/
theorem HostInv.settled_new (hs : HostInv s) : s.Settled s.nextBuffer := by
  intro e he hout
  exact absurd hout (Nat.ne_of_lt (hs.encoded_lt e he))

/-- Only what is pending may shrink. -/
theorem Host.Settled.of_pending_subset (h : s.Settled buf) (hencoded : s'.encoded = s.encoded)
    (hcommitted : s'.sys.pipe.committed = s.sys.pipe.committed)
    (hpending : s'.sys.pipe.pending ⊆ s.sys.pipe.pending) : s'.Settled buf := by
  intro e he hout
  rw [hencoded] at he
  obtain ⟨hc, hp⟩ := h e he hout
  refine ⟨?_, fun hmem => hp (hpending hmem)⟩
  rw [hcommitted]
  exact hc

theorem Host.Committed.of_subset (h : s.Committed buf) (hencoded : s'.encoded = s.encoded)
    (hcommitted : s.sys.pipe.committed ⊆ s'.sys.pipe.committed) : s'.Committed buf := by
  intro e he hout
  rw [hencoded] at he
  exact hcommitted (h e he hout)

/-! ### The steps -/

/-- `MNTensor::empty` takes a new Metal buffer. -/
theorem Host.empty_buffer {dims : List ℕ} {dtype : MNDType} {mode : StorageMode} {out : Handle}
    (h : s.empty dims dtype mode = some out) : out.buffer = s.nextBuffer := by
  unfold Host.empty at h
  split_ifs at h with hdims
  obtain rfl := some.inj h
  rfl

/-- After a wait the operation goes on where it may, if what it reads is settled. -/
theorem HostInv.resume {next : Cont} (hlt : ∀ e ∈ s.encoded, e.output < s.nextBuffer)
    (hreads : ∀ buf ∈ next.reads, s.Settled buf) (h : s.resume next = some s') : HostInv s' := by
  unfold Host.resume at h
  cases next with
  | done =>
    obtain rfl := some.inj h
    exact ⟨hlt, trivial⟩
  | toNumpy t =>
    obtain rfl := some.inj h
    cases hmode : t.storageMode with
    | Shared => exact ⟨hlt, hreads⟩
    | Private => exact ⟨hlt, fun buf hbuf => (hreads buf hbuf).committed⟩
  | item t =>
    cases hmode : t.storageMode with
    | Shared =>
      simp only [hmode] at h
      obtain rfl := some.inj h
      exact ⟨hlt, hreads⟩
    | Private =>
      simp only [hmode] at h
      cases h
  | toShared t exported =>
    obtain rfl := some.inj h
    exact ⟨hlt, hreads⟩
  | copied out exported =>
    obtain rfl := some.inj h
    cases exported with
    | true => exact ⟨hlt, hreads⟩
    | false => exact ⟨hlt, trivial⟩

/-- A call of the client leads where it may. -/
theorem HostInv.call (hs : HostInv s) {op : TensorOp} (hsafe : CallSafe s op)
    (h : s.call op = some s') (hidle : s.pc = .idle) : HostInv s' := by
  have hself : HostInv s := hs
  have hgrow : ∀ e ∈ s.encoded, e.output < s.nextBuffer + 1 :=
    fun e he => Nat.lt_succ_of_lt (hs.encoded_lt e he)
  cases op with
  | empty tensor mode =>
    obtain rfl := some.inj h
    exact ⟨hgrow, trivial⟩
  | view i tensor =>
    obtain ⟨t, -, rfl⟩ := map_eq_some_iff.mp h
    exact ⟨hs.encoded_lt, trivial⟩
  | gpuOp result =>
    obtain rfl := some.inj h
    exact ⟨hgrow, Nat.lt_succ_self _⟩
  | matmul i j transpose_a transpose_b =>
    obtain ⟨a, ha, h⟩ := bind_eq_some_iff.mp h
    obtain ⟨b, hb, h⟩ := bind_eq_some_iff.mp h
    simp only [CallSafe, ha, hb] at hsafe
    unfold Host.matmul at h
    cases hcheck : matmulCheck a.tensor b.tensor transpose_a transpose_b with
    | error e =>
      simp only [hcheck] at h
      obtain rfl := some.inj h
      exact hself
    | ok d =>
      simp only [hcheck] at h hsafe
      by_cases hcpu : shouldUseCpuPath a.tensor b.tensor d = true
      -- the CPU path: the operands are read right away
      · rw [if_pos hcpu] at h
        split at h
        · obtain rfl := some.inj h
          exact hself
        · split_ifs at h with hprivate
          obtain rfl := some.inj h
          exact ⟨hgrow, hsafe hcpu⟩
      · rw [if_neg hcpu] at h
        split at h
        · obtain rfl := some.inj h
          exact hself
        · rename_i out hout
          obtain rfl := some.inj h
          refine ⟨hgrow, ?_⟩
          show out.buffer < s.nextBuffer + 1
          rw [Host.empty_buffer hout]
          exact Nat.lt_succ_self _
  | toShared i =>
    obtain ⟨t, ht, rfl⟩ := map_eq_some_iff.mp h
    simp only [CallSafe, ht] at hsafe
    cases hmode : t.storageMode with
    | Shared => exact ⟨hs.encoded_lt, trivial⟩
    | Private => exact ⟨hs.encoded_lt, hsafe hmode⟩
  | tensorToNumpy i =>
    obtain ⟨t, ht, rfl⟩ := map_eq_some_iff.mp h
    simp only [CallSafe, ht] at hsafe
    exact ⟨hs.encoded_lt, hsafe⟩
  | tensorItem i =>
    obtain ⟨t, ht, rfl⟩ := map_eq_some_iff.mp h
    simp only [CallSafe, ht] at hsafe
    split_ifs with hone
    · exact ⟨hs.encoded_lt, hsafe hone⟩
    · exact hself
  | synchronize =>
    obtain rfl := some.inj h
    exact ⟨hs.encoded_lt, fun buf hbuf => nomatch hbuf⟩
  | setPreferPrivateStorage enable =>
    obtain rfl := some.inj h
    refine ⟨hs.encoded_lt, ?_⟩
    show PcInv _ s.pc
    rw [hidle]
    trivial
  | pipeline op =>
    obtain rfl := some.inj h
    exact ⟨hs.encoded_lt, trivial⟩

/-- A step of the thread leads where it may. -/
theorem HostInv.run (hs : HostInv s) {env : Env} (hsafe : ReadSafe s (.run env))
    (h : s.run env = some s') : HostInv s' := by
  have hpc := hs.atPc
  unfold Host.run at h
  unfold ReadSafe at hsafe
  cases hat : s.pc with
  | idle =>
    simp only [hat] at h
    cases h
  | calling next =>
    simp only [hat] at h
    rw [hat] at hpc
    split_ifs at h with hreturned
    · cases next with
      | done | result out =>
        obtain rfl := some.inj h
        exact ⟨hs.encoded_lt, trivial⟩
      | encode out =>
        obtain rfl := some.inj h
        exact ⟨hs.encoded_lt, hpc⟩
    · obtain ⟨sys, -, rfl⟩ := map_eq_some_iff.mp h
      refine ⟨hs.encoded_lt, ?_⟩
      cases next with
      | done | result out => trivial
      | encode out => exact hpc
  | encode out =>
    simp only [hat] at h
    rw [hat] at hpc
    split at h
    · obtain rfl := some.inj h
      exact ⟨hs.encoded_lt, trivial⟩
    · split_ifs at h with hcommitted
      obtain rfl := some.inj h
      refine ⟨fun e he => ?_, trivial⟩
      rcases mem_cons.mp he with rfl | he
      · exact hpc
      · exact hs.encoded_lt e he
  | synchronize next =>
    simp only [hat] at h hsafe
    rw [hat] at hpc
    cases hcreate : Pipeline.createBuffer env s.sys.pipe with
    | none =>
      -- no barrier: then nothing that is read was running
      simp only [hcreate] at h
      have hfail : ¬ env.createOk = true := by
        intro hok
        simp [Pipeline.createBuffer, hok] at hcreate
      exact HostInv.resume hs.encoded_lt (hsafe.resolve_left hfail) h
    | some made =>
      obtain ⟨cb, pipe⟩ := made
      simp only [hcreate] at h
      obtain rfl := some.inj h
      have hpipe : pipe = { s.sys.pipe with nextObject := s.sys.pipe.nextObject + 1 } := by
        unfold Pipeline.createBuffer at hcreate
        split_ifs at hcreate
        exact (some_mk_inj hcreate).2.symm
      subst hpipe
      refine ⟨hs.encoded_lt, fun buf hbuf => ?_, Or.inr ?_⟩
      · exact (hpc buf hbuf).of_subset rfl (subset_cons_self _ _)
      · exact getLast?_concat
  | waiting cb next =>
    simp only [hat] at h
    rw [hat] at hpc
    obtain ⟨hreads, hlast⟩ := hpc
    split_ifs at h with hwait
    -- the queue is in order, and `cb` was its last buffer
    have hempty : s.sys.pipe.pending = [] := by
      rcases hlast with hempty | hlast
      · exact hempty
      · exact absurd (mem_of_getLast? hlast) hwait
    exact HostInv.resume hs.encoded_lt (fun buf hbuf => (hreads buf hbuf).settled hempty) h
  | blit t exported =>
    simp only [hat] at h
    split_ifs at h with hsize
    · obtain rfl := some.inj h
      exact ⟨hs.encoded_lt, trivial⟩
    · split at h
      · obtain rfl := some.inj h
        exact ⟨hs.encoded_lt, trivial⟩
      · rename_i out hout
        have hbuf := Host.empty_buffer hout
        have hgrow : ∀ e ∈ s.encoded, e.output < s.nextBuffer + 1 :=
          fun e he => Nat.lt_succ_of_lt (hs.encoded_lt e he)
        have hnew : ∀ buf ∈ out.bytes, buf = s.nextBuffer := by
          intro buf hmem
          unfold Handle.bytes at hmem
          split_ifs at hmem
          · cases hmem
          · rw [mem_singleton.mp hmem, hbuf]
        split at h
        · refine HostInv.resume hgrow (fun buf hmem => ?_) h
          rw [hnew buf hmem]
          exact hs.settled_new
        · rename_i cb pipe hcreate
          obtain rfl := some.inj h
          refine ⟨fun e he => ?_, fun buf hmem e he hout => ?_, Or.inr getLast?_concat⟩
          · rcases mem_cons.mp he with rfl | he
            · exact hbuf.symm ▸ Nat.lt_succ_self _
            · exact hgrow e he
          · -- the only writer of the copy is the blit
            rcases mem_cons.mp he with rfl | he
            · exact mem_cons_self
            · rw [hnew buf hmem] at hout
              exact absurd hout (Nat.ne_of_lt (hs.encoded_lt e he))
  | reading buffers out =>
    simp only [hat] at h
    obtain rfl := some.inj h
    exact ⟨hs.encoded_lt, trivial⟩

/-- The oldest pending buffer leaves the queue, and nothing else changes. -/
theorem Host.complete_spec (h : s.complete = some s') :
    s'.encoded = s.encoded ∧ s'.nextBuffer = s.nextBuffer ∧ s'.pc = s.pc ∧
      s'.sys.pipe.committed = s.sys.pipe.committed ∧
      ∃ cb, s.sys.pipe.pending = cb :: s'.sys.pipe.pending := by
  unfold Host.complete at h
  cases hpending : s.sys.pipe.pending with
  | nil =>
    simp only [hpending] at h
    cases h
  | cons cb rest =>
    simp only [hpending] at h
    split_ifs at h with hown
    · obtain rfl := some.inj h
      exact ⟨rfl, rfl, rfl, rfl, cb, rfl⟩
    · obtain ⟨sys, hsys, rfl⟩ := map_eq_some_iff.mp h
      simp only [MetalNative.step] at hsys
      split_ifs at hsys with hin
      obtain rfl := some.inj hsys
      refine ⟨rfl, rfl, rfl, rfl, cb, ?_⟩
      show cb :: rest = cb :: s.sys.pipe.pending.erase cb
      rw [hpending, erase_cons_head]

/-- A completion leaves the thread where it may stand. -/
theorem HostInv.complete (hs : HostInv s) (h : s.complete = some s') : HostInv s' := by
  obtain ⟨hencoded, hnext, hpc, hcommitted, cb, hpending⟩ := Host.complete_spec h
  have hcommit : ∀ {buf}, s.Committed buf → s'.Committed buf := fun hc =>
    hc.of_subset hencoded (by rw [hcommitted]; exact Subset.refl _)
  have hsettle : ∀ {buf}, s.Settled buf → s'.Settled buf := fun hc =>
    hc.of_pending_subset hencoded hcommitted (by rw [hpending]; exact subset_cons_self _ _)
  refine ⟨?_, ?_⟩
  · rw [hencoded, hnext]
    exact hs.encoded_lt
  · have hat := hs.atPc
    rw [hpc]
    cases hcase : s.pc with
    | idle => trivial
    | calling next =>
      rw [hcase] at hat
      cases next with
      | done | result out => trivial
      | encode out =>
        show out.buffer < s'.nextBuffer
        rw [hnext]
        exact hat
    | encode out =>
      rw [hcase] at hat
      show out.buffer < s'.nextBuffer
      rw [hnext]
      exact hat
    | synchronize next =>
      rw [hcase] at hat
      exact fun buf hbuf => hcommit (hat buf hbuf)
    | waiting b next =>
      rw [hcase] at hat
      obtain ⟨hreads, hlast⟩ := hat
      refine ⟨fun buf hbuf => hcommit (hreads buf hbuf), ?_⟩
      rw [hpending] at hlast
      -- `b` stays the last of the queue as long as anything is left
      cases hrest : s'.sys.pipe.pending with
      | nil => exact Or.inl rfl
      | cons c rest =>
        right
        rw [hrest] at hlast
        rcases hlast with hnil | hlast
        · cases hnil
        · rw [getLast?_cons_cons] at hlast
          exact hlast
    | blit | reading =>
      rw [hcase] at hat
      exact fun buf hbuf => hsettle (hat buf hbuf)

/-- What the invariant says of the bytes that are read next. -/
theorem HostInv.readsSettled (hs : HostInv s) : ReadsSettled s := by
  have hat := hs.atPc
  unfold ReadsSettled HostPC.reads
  cases hcase : s.pc with
  | reading | blit =>
    rw [hcase] at hat
    exact hat
  | idle | calling next | encode out | synchronize next | waiting cb next =>
    intro buf hbuf
    cases hbuf

/-- **The CPU reads what the GPU has written.**  In every run of a client's thread whose steps are
    safe, whenever bytes of a tensor are read, every operation issued earlier that writes it has
    been committed and has completed. -/
theorem cpu_reads_settled (bufferCount : ℕ) (h : Runs Host.step ReadSafe
    (Host.init bufferCount) s) :
    ReadsSettled s := by
  suffices hinv : HostInv s from hinv.readsSettled
  refine h.invariant ⟨fun e he => absurd he not_mem_nil, trivial⟩ ?_
  intro u a v hu hsafe hstep
  cases a with
  | call op =>
    unfold Host.step at hstep
    cases hpc : u.pc with
    | idle =>
      simp only [hpc] at hstep
      exact hu.call hsafe hstep hpc
    | calling next | encode out | synchronize next | waiting cb next | blit t e
    | reading buffers out =>
      simp only [hpc] at hstep
      cases hstep
  | run env => exact hu.run hsafe hstep
  | complete => exact hu.complete hstep

/-- A square matrix of four floats. -/
def squareMatrix : MNTensor Unit where
  buffer := fun _ => ()
  dims := [2, 2]
  strides := [2, 1]
  dtype := .Float32
  dims_lt := by decide
  numel_lt := by decide

/-- The client calls an operation and its thread takes `n` steps. -/
def callAndRun (op : TensorOp) (n : ℕ) : List HostAction :=
  .call op :: List.replicate n (.run {})

/-- Two kernels in eager mode, the GPU completes the first, and the other's result is exported. -/
def eagerReadSchedule : List HostAction :=
  callAndRun (.gpuOp squareMatrix) 10 ++ [.complete] ++ callAndRun (.gpuOp squareMatrix) 10
    ++ callAndRun (.tensorToNumpy 1) 1 ++ [.complete, .complete, .run {}]

theorem cpu_reads_settled_eager :
    ∃ s, exec Host.step (Host.init 3) eagerReadSchedule = some s ∧ s.pc.reads = [1] ∧
      ReadsSettled s := by
  have hsome : (exec Host.step (Host.init 3) eagerReadSchedule).isSome = true := by decide
  obtain ⟨s, hs⟩ := isSome_iff_exists.mp hsome
  have hreads : (exec Host.step (Host.init 3) eagerReadSchedule).map (fun s => s.pc.reads)
      = some [1] := by decide
  have hguard : GuardedAlong Host.step ReadSafe (Host.init 3) eagerReadSchedule := by decide
  rw [hs, map_some, some.injEq] at hreads
  exact ⟨s, hs, hreads, cpu_reads_settled 3 (runs_exec hs hguard)⟩

/-- In lazy mode a kernel is encoded, and its result exported. -/
def lazyReadSchedule : List HostAction :=
  callAndRun (.pipeline (.setLazyCommit true)) 2 ++ callAndRun (.gpuOp squareMatrix) 10
    ++ callAndRun (.tensorToNumpy 0) 1 ++ [.complete, .run {}]

/-- In eager mode a kernel is committed, and its result multiplied on the CPU. -/
def cpuPathSchedule : List HostAction :=
  callAndRun (.gpuOp squareMatrix) 10 ++ [.call (.matmul 0 0 false false)]

/-- An export in lazy mode waits for a barrier that nothing encoded is ahead of, and the CPU path
    waits for nothing even in eager mode. -/
theorem unsettled_reads :
    (∃ s, Reaches Host.step (Host.init 3) s ∧ s.sys.pipe.lazyCommit = true ∧ ¬ ReadsSettled s) ∧
      ∃ s, Reaches Host.step (Host.init 3) s ∧ s.sys.pipe.lazyCommit = false ∧
        ¬ ReadsSettled s :=
  ⟨exists_reaches lazyReadSchedule (by decide), exists_reaches cpuPathSchedule (by decide)⟩

end MetalNative
