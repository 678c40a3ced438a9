import MetalNative.Dispatch.ICBRecorder

namespace MetalNative

open Run RecordedDispatch List ICBRecorder

/-!
# What a replay of the `ICBRecorder` runs

Three loops stand between a call of `record_dispatch` and a replay.  `record_dispatch` drops the
calls after the 32nd, an indirect command takes 16 buffers and no inline bytes, and the commands of
the buffer carry no barrier, so they run concurrently.

* `encode_ofCall` — what is left of a call in the indirect command.
* `RecorderInv` — an entry of the cache is what was built from the last recording of its key.
* `Capturable` — the condition on a step: a recording that is cached has at most 32 dispatches, all
  of them encodable, and is the same in every order.
* `replay_faithful` — runs of such steps replay what was recorded, and the first other step ends
  that; `replay_by_index` is about the commands in the order of their index.
* `inline_bytes_lost` — one dispatch with one inline byte.
-/

/-! ### Encoding one dispatch -/

section Encode

variable {cmd : ComputeCommand} {offsets : List UInt32} {buffers : List (Option ObjId)} {j : ℕ}

/-- The buffers set from index `j` on; an index that is not below 16 is not in the table. -/
theorem setBuffers_eq :
    setBuffers offsets j buffers cmd = { cmd with
      kernelBuffers := fun i =>
        if j ≤ i ∧ i < maxKernelBufferBindCount then
          ((buffers[i - j]?).join.map fun b => (b, offsets.getD i 0)).or (cmd.kernelBuffers i)
        else cmd.kernelBuffers i } := by
  induction buffers generalizing j cmd with
  | nil => simp [setBuffers]
  | cons buffer buffers ih =>
    cases buffer with
    | none =>
      rw [setBuffers, ih]
      congr 1
      funext i
      rcases lt_trichotomy i j with hij | rfl | hij
      · rw [if_neg (by omega), if_neg (by omega)]
      · simp
      · have hsub : i - j = i - (j + 1) + 1 := by omega
        simp [hsub, Nat.succ_le_of_lt hij, hij.le]
    | some buffer =>
      rw [setBuffers, ih]
      unfold ComputeCommand.setKernelBuffer
      split_ifs with hj
      · congr 1
        funext i
        rcases lt_trichotomy i j with hij | rfl | hij
        · simp [hij.not_ge, hij.ne, Function.update_of_ne, show ¬ j + 1 ≤ i by omega]
        · simp [hj]
        · have hsub : i - j = i - (j + 1) + 1 := by omega
          simp [hsub, Nat.succ_le_of_lt hij, hij.le, Function.update_of_ne hij.ne']
      · congr 1
        funext i
        -- every later index is outside the table too
        rw [if_neg (by omega), if_neg (by omega)]

theorem setThreadgroupMemory_eq {lengths : List UInt32} :
    setThreadgroupMemory j lengths cmd = { cmd with
      threadgroupMemory := fun i =>
        if j ≤ i then (lengths[i - j]?).or (cmd.threadgroupMemory i)
        else cmd.threadgroupMemory i } := by
  induction lengths generalizing j cmd with
  | nil => simp [setThreadgroupMemory]
  | cons length lengths ih =>
    rw [setThreadgroupMemory, ih]
    unfold ComputeCommand.setThreadgroupMemoryLength
    congr 1
    funext i
    rcases lt_trichotomy i j with hij | rfl | hij
    · simp [hij.not_ge, Function.update_of_ne hij.ne, show ¬ j + 1 ≤ i by omega]
    · simp
    · have hsub : i - j = i - (j + 1) + 1 := by omega
      simp [hsub, Nat.succ_le_of_lt hij, hij.le, Function.update_of_ne hij.ne']

end Encode

namespace DispatchCall

/-- What is left of the dispatch in an indirect command. -/
def indirect (call : DispatchCall) : ComputeCommand :=
  { call.requested with
    kernelBuffers := fun j =>
      if j < maxKernelBufferBindCount then call.requested.kernelBuffers j else none
    bytes := none }

/-- The dispatch has no inline bytes, and no buffer at index 16 or later. -/
def Encodable (call : DispatchCall) : Prop :=
  call.inlineBytes = none ∧
    ∀ j < call.bufferCount, maxKernelBufferBindCount ≤ j → (call.buffers[j]?).join = none

theorem encode_ofCall (call : DispatchCall) :
    (ofCall call).encode = call.indirect := by
  unfold encode ofCall
  simp only [setBuffers_eq, setThreadgroupMemory_eq, ComputeCommand.setComputePipelineState,
    ComputeCommand.concurrentDispatchThreadgroups, indirect, requested, Nat.zero_le, true_and,
    if_true, Nat.sub_zero, Option.or_none, ComputeCommand.mk.injEq, and_true]
  funext j
  by_cases hj : j < call.bufferCount
  · simp [hj]
  · simp [hj]

/-- The indirect command is the whole dispatch exactly when the dispatch is encodable. -/
theorem indirect_eq_requested (call : DispatchCall) :
    call.indirect = call.requested ↔ call.Encodable := by
  unfold indirect Encodable
  constructor
  · intro h
    have hbytes : none = call.requested.bytes := congrArg ComputeCommand.bytes h
    have hbuffers := congrArg ComputeCommand.kernelBuffers h
    refine ⟨by simpa [requested] using hbytes.symm, fun j hj hle => ?_⟩
    have := congrFun hbuffers j
    simpa [requested, hj, hle.not_gt] using this.symm
  · rintro ⟨hbytes, hbuffers⟩
    have htable : (fun j => if j < maxKernelBufferBindCount then call.requested.kernelBuffers j
        else none) = call.requested.kernelBuffers := by
      funext j
      by_cases hj : j < maxKernelBufferBindCount
      · rw [if_pos hj]
      · rw [if_neg hj]
        by_cases hcount : j < call.bufferCount
        · simp [requested, hcount, hbuffers j hcount (by omega)]
        · simp [requested, hcount]
    rw [htable]
    simp [requested, hbytes]

end DispatchCall

/-! ### The condition -/

/-- The recording is kept whole: no call is dropped and no binding is lost. -/
structure KeptWhole (calls : List DispatchCall) : Prop where
  count : calls.length ≤ 32
  encodable : ∀ call ∈ calls, call.Encodable

/-- Moreover the dispatches are the same in every order. -/
structure Captured (calls : List DispatchCall) : Prop extends KeptWhole calls where
  alike : ∀ c ∈ calls, ∀ d ∈ calls, c.requested = d.requested

/-- The commands that a replay of the recording runs, in the order of their index. -/
def commandsOf (calls : List DispatchCall) : List ComputeCommand :=
  (calls.take 32).map DispatchCall.indirect

theorem commandsOf_eq_iff (calls : List DispatchCall) :
    commandsOf calls = calls.map DispatchCall.requested ↔ KeptWhole calls := by
  unfold commandsOf
  constructor
  · intro h
    have hlength : (calls.take 32).length = calls.length := by
      simpa using congrArg length h
    have hcount : calls.length ≤ 32 := by
      rw [length_take] at hlength
      omega
    rw [take_of_length_le hcount, map_inj_left] at h
    exact ⟨hcount, fun call hcall => call.indirect_eq_requested.mp (h call hcall)⟩
  · intro h
    rw [take_of_length_le h.count]
    exact map_congr_left fun call hcall =>
      call.indirect_eq_requested.mpr (h.encodable call hcall)

/-- A list is the only one of its permutations exactly when its members are equal. -/
theorem perm_unique_iff {α : Type*} (l : List α) :
    (∀ m : List α, m.Perm l → m = l) ↔ ∀ x ∈ l, ∀ y ∈ l, x = y := by
  constructor
  · intro h x hx y hy
    cases l with
    | nil => exact absurd hx not_mem_nil
    | cons a l =>
      have hhead : ∀ z ∈ a :: l, z = a := by
        intro z hz
        rcases mem_cons.mp hz with rfl | hz
        · rfl
        · obtain ⟨before, after, rfl⟩ := append_of_mem hz
          have hperm : (z :: (a :: before ++ after)).Perm (a :: (before ++ z :: after)) :=
            (@perm_middle _ z (a :: before) after).symm
          exact (cons.inj (h _ hperm)).1
      rw [hhead x hx, hhead y hy]
  · intro h m hm
    refine ext_getElem hm.length_eq fun i hi hi' => ?_
    exact h _ (hm.subset (getElem_mem hi)) _ (getElem_mem hi')

/-- Every order of a replay is the recording exactly when the recording is captured. -/
theorem forall_perm_commandsOf (calls : List DispatchCall) :
    (∀ commands : List ComputeCommand, commands.Perm (commandsOf calls) →
      commands = calls.map DispatchCall.requested) ↔ Captured calls := by
  constructor
  · intro h
    have heq := h _ (Perm.refl _)
    have hsame := (perm_unique_iff _).mp fun m hm => (h m hm).trans heq.symm
    rw [heq] at hsame
    refine ⟨(commandsOf_eq_iff calls).mp heq, fun c hc d hd => ?_⟩
    exact hsame _ (mem_map_of_mem hc) _ (mem_map_of_mem hd)
  · intro h commands hperm
    have heq := (commandsOf_eq_iff calls).mpr h.toKeptWhole
    rw [heq] at hperm
    refine (perm_unique_iff _).mpr (fun x hx y hy => ?_) commands hperm
    obtain ⟨c, hc, rfl⟩ := mem_map.mp hx
    obtain ⟨d, hd, rfl⟩ := mem_map.mp hy
    exact h.alike c hc d hd

/-! ### The invariant -/

/-- What the entry was built from. -/
def CachedICB.Holds (cached : CachedICB) (calls : List DispatchCall) : Prop :=
  cached.icb.take cached.command_count.toNat = commandsOf calls

namespace RecorderSystem

/-- The recorder has kept the first 32 calls of the recording in progress, and every entry of the
    cache is what was built from the last recording of its key, which has the property `P`. -/
structure RecorderInv (P : List DispatchCall → Prop) (s : RecorderSystem) : Prop where
  disabled : s.recorder.enabled = false → s.recorder.cache = [] ∧ s.current = none
  recording : s.recorder.is_recording = s.current.isSome
  current : ∀ key calls, s.current = some (key, calls) →
    s.recorder.recording_key = key ∧
      s.recorder.recorded_dispatches = (calls.take 32).map RecordedDispatch.ofCall ∧
      s.recorder.find key = none
  holds : ∀ cached ∈ s.recorder.cache, ∃ calls,
    Keyed.find Prod.fst s.recorded cached.key = some (cached.key, calls) ∧
      cached.Holds calls ∧ P calls
  distinct : Keyed.Distinct CachedICB.key s.recorder.cache

/-- The answer for every key: false when there is no entry, and otherwise every order in which the
    GPU may run the commands is the sequence of recorded dispatches. -/
def Faithful (s : RecorderSystem) : Prop :=
  ∀ key, match (s.recorder.replay key).1 with
    | none => s.recorder.hasCached key = false
    | some replayed => s.recorder.hasCached key = true ∧
        ∃ calls, Keyed.find Prod.fst s.recorded key = some (key, calls) ∧
          ∀ commands, replayed.RunsAs commands → commands = calls.map DispatchCall.requested

/-- The same, for the order in which the commands stand in the buffer. -/
def FaithfulByIndex (s : RecorderSystem) : Prop :=
  ∀ key, match (s.recorder.replay key).1 with
    | none => s.recorder.hasCached key = false
    | some replayed => s.recorder.hasCached key = true ∧
        ∃ calls, Keyed.find Prod.fst s.recorded key = some (key, calls) ∧
          replayed.executed = calls.map DispatchCall.requested

/-- The condition on a step: a recording that becomes an entry has the property. -/
def CachesOnly (P : List DispatchCall → Prop) (s : RecorderSystem) : RecorderCall → Prop
  | .endRecording true => ∀ recording ∈ s.current, P recording.2
  | _ => True

theorem cachesOnly_true (s : RecorderSystem) (a : RecorderCall) :
    CachesOnly (fun _ => True) s a := by
  cases a with
  | endRecording created =>
    cases created with
    | true => exact fun _ _ => trivial
    | false => exact trivial
  | _ => exact trivial

/-- The recording that becomes an entry is captured. -/
abbrev Capturable : RecorderSystem → RecorderCall → Prop := CachesOnly Captured

end RecorderSystem

/-! ### One operation at a time -/

variable {key : ICBShapeKey}

/-- What is built: the encoded dispatches, all within the range that a replay executes. -/
theorem buildIcb_eq_some {dispatches : List RecordedDispatch} {created : Bool}
    {cached : CachedICB} (hlength : dispatches.length ≤ 32)
    (h : buildIcb key dispatches created = some cached) :
    created = true ∧ cached.key = key ∧
      cached.icb.take cached.command_count.toNat = dispatches.map encode := by
  unfold buildIcb at h
  split_ifs at h with hnil hcreated
  have hsize : (UInt32.ofNat dispatches.length).toNat = dispatches.length := by
    rw [UInt32.toNat_ofNat']
    omega
  have hcount : ¬ UInt32.ofNat dispatches.length > MAX_COMMANDS := by
    rw [gt_iff_lt, UInt32.lt_iff_toNat_lt, hsize]
    show ¬ 32 < dispatches.length
    omega
  simp only [if_neg hcount, hsize, Option.some.injEq] at h
  subst h
  refine ⟨by simpa using hcreated, rfl, ?_⟩
  show ((dispatches.take dispatches.length).map encode).take
    (UInt32.ofNat dispatches.length).toNat = _
  rw [hsize, take_length, take_of_length_le (by simp)]

theorem buildIcb_created {dispatches : List RecordedDispatch}
    (h : dispatches ≠ []) : (buildIcb key dispatches true).isSome := by
  simp [buildIcb, h]

namespace ICBRecorder

theorem evictLoop_sublist (cache : List CachedICB) (keys : List ICBShapeKey) :
    (evictLoop cache keys).1.Sublist cache := by
  induction keys generalizing cache with
  | nil => exact Sublist.refl _
  | cons oldest rest ih =>
    unfold evictLoop
    split_ifs with hfull
    · exact (ih _).trans filter_sublist
    · exact Sublist.refl _

theorem evictIfNeeded_sublist (r : ICBRecorder) : r.evictIfNeeded.cache.Sublist r.cache :=
  evictLoop_sublist _ _

end ICBRecorder

namespace RecorderSystem

variable {P : List DispatchCall → Prop} {s : RecorderSystem}

theorem RecorderInv.init : RecorderInv P {} where
  disabled _ := ⟨rfl, rfl⟩
  recording := rfl
  current key calls h := by cases h
  holds cached h := absurd h not_mem_nil
  distinct := nodup_nil

/-- A call that only takes entries out of the cache, while nothing is recorded. -/
theorem RecorderInv.shrink (hi : RecorderInv P s) {r : ICBRecorder}
    (hcache : r.cache.Sublist s.recorder.cache) (henabled : r.enabled = s.recorder.enabled)
    (hrecording : r.is_recording = s.recorder.is_recording)
    (hkey : r.recording_key = s.recorder.recording_key)
    (hdispatches : r.recorded_dispatches = s.recorder.recorded_dispatches) :
    RecorderInv P { s with recorder := r } where
  disabled h := by
    obtain ⟨hnil, hcurrent⟩ := hi.disabled (henabled ▸ h)
    exact ⟨sublist_nil.mp (hnil ▸ hcache), hcurrent⟩
  recording := hrecording.trans hi.recording
  current key calls h := by
    obtain ⟨hk, hd, hnone⟩ := hi.current key calls h
    refine ⟨hkey.trans hk, hdispatches.trans hd, Keyed.find_eq_none.mpr fun c hc => ?_⟩
    exact Keyed.find_eq_none.mp hnone c (hcache.subset hc)
  holds cached h := hi.holds cached (hcache.subset h)
  distinct := hi.distinct.sublist (hcache.map _)

theorem RecorderInv.setEnabled (hi : RecorderInv P s) (enable : Bool) :
    RecorderInv P ⟨s.recorder.setEnabled enable, if enable then s.current else none,
      s.recorded⟩ := by
  cases enable with
  | true =>
    exact
      { hi with
        disabled := fun h => (by cases h) }
  | false =>
    exact
      { disabled := fun _ => ⟨rfl, rfl⟩
        recording := rfl
        current := fun _ _ h => (by cases h)
        holds := fun _ h => absurd h not_mem_nil
        distinct := nodup_nil }

theorem RecorderInv.beginRecording (hi : RecorderInv P s) (key : ICBShapeKey) :
    RecorderInv P ⟨(s.recorder.beginRecording key).2,
      if (s.recorder.beginRecording key).1 then some (key, []) else s.current, s.recorded⟩ := by
  by_cases hstarts : s.recorder.enabled = true ∧ s.recorder.find key = none
  · have hbegin : s.recorder.beginRecording key =
        (true, ⟨true, s.recorder.cache, s.recorder.lru_order, true, key, []⟩) := by
      simp [ICBRecorder.beginRecording, hstarts.1, hstarts.2]
    rw [hbegin]
    exact
      { disabled := fun h => (by cases h)
        recording := rfl
        current := fun k calls h => by
          obtain ⟨rfl, rfl⟩ := some_mk_inj h
          exact ⟨rfl, rfl, hstarts.2⟩
        holds := hi.holds
        distinct := hi.distinct }
  · have hbegin : s.recorder.beginRecording key = (false, s.recorder) := by
      unfold ICBRecorder.beginRecording
      split_ifs with henabled hcached
      · rfl
      · rfl
      · exact absurd ⟨by simpa using henabled, by simpa using hcached⟩ hstarts
    rw [hbegin]
    exact hi

/-- The 33rd call and those after it are not kept, as `List.take` says. -/
theorem RecorderInv.recordDispatch (hi : RecorderInv P s) (call : DispatchCall) :
    RecorderInv P ⟨s.recorder.recordDispatch call,
      s.current.map fun c => (c.1, c.2 ++ [call]), s.recorded⟩ := by
  cases hcurrent : s.current with
  | none =>
    have hidle : s.recorder.is_recording = false := by simp [hi.recording, hcurrent]
    rw [ICBRecorder.recordDispatch, if_pos hidle]
    show RecorderInv P ⟨s.recorder, none, s.recorded⟩
    rw [← hcurrent]
    exact hi
  | some recording =>
    obtain ⟨key, calls⟩ := recording
    obtain ⟨hkey, hdispatches, hnone⟩ := hi.current key calls hcurrent
    have hbusy : s.recorder.is_recording = true := by simp [hi.recording, hcurrent]
    have henabled : s.recorder.enabled = true := by
      by_contra h
      have := (hi.disabled (by simpa using h)).2
      rw [hcurrent] at this
      cases this
    have hlength : s.recorder.recorded_dispatches.length = min 32 calls.length := by
      simp [hdispatches]
    unfold ICBRecorder.recordDispatch
    rw [if_neg (by simp [hbusy])]
    split_ifs with hfull
    · have hle : 32 ≤ calls.length := by
        have h32 : MAX_COMMANDS.toNat = 32 := rfl
        omega
      refine
        { hi with
          disabled := fun h => absurd h (by simp [henabled])
          recording := by simp [hbusy]
          current := fun k cs h => ?_ }
      obtain ⟨rfl, rfl⟩ := some_mk_inj h
      exact ⟨hkey, by rw [hdispatches, take_append_of_le_length hle], hnone⟩
    · have hlt : calls.length < 32 := by
        have h32 : MAX_COMMANDS.toNat = 32 := rfl
        omega
      refine
        { disabled := fun h => absurd h (by simp [henabled])
          recording := by simp [hbusy]
          current := fun k cs h => ?_
          holds := hi.holds
          distinct := hi.distinct }
      obtain ⟨rfl, rfl⟩ := some_mk_inj h
      refine ⟨hkey, ?_, hnone⟩
      show s.recorder.recorded_dispatches ++ [ofCall call] = _
      rw [hdispatches, take_of_length_le hlt.le,
        take_of_length_le (by simpa using Nat.succ_le_of_lt hlt), map_append]
      rfl

/-- The three ways a recording ends: there is nothing in it, the device returns no buffer, or it
    becomes an entry. -/
theorem RecorderInv.endRecording_cases (hi : RecorderInv P s)
    {calls : List DispatchCall} (hcurrent : s.current = some (key, calls)) (created : Bool) :
    (s.recorder.endRecording created).enabled = s.recorder.enabled ∧
      (s.recorder.endRecording created).is_recording = false ∧
      ((s.recorder.endRecording created).cache = s.recorder.cache ∧
          (created = true → calls = []) ∨
        created = true ∧ ∃ cached rest, cached.key = key ∧ cached.Holds calls ∧
          rest.Sublist s.recorder.cache ∧
          (s.recorder.endRecording created).cache = Keyed.insert CachedICB.key rest cached) := by
  obtain ⟨hkey, hdispatches, -⟩ := hi.current key calls hcurrent
  have hbusy : ¬ s.recorder.is_recording = false := by simp [hi.recording, hcurrent]
  have hlength : s.recorder.recorded_dispatches.length ≤ 32 := by simp [hdispatches]
  have hempty : s.recorder.recorded_dispatches = [] ↔ calls = [] := by simp [hdispatches]
  unfold endRecording
  simp only [if_neg hbusy, hempty]
  split_ifs with hnil
  · exact ⟨rfl, rfl, .inl ⟨rfl, fun _ => hnil⟩⟩
  · have hne : s.recorder.recorded_dispatches ≠ [] := fun h => hnil (hempty.mp h)
    cases hbuild : buildIcb s.recorder.recording_key s.recorder.recorded_dispatches created with
    | none =>
      refine ⟨rfl, rfl, .inl ⟨rfl, fun hcreated => ?_⟩⟩
      subst hcreated
      have hsome : (buildIcb s.recorder.recording_key s.recorder.recorded_dispatches true).isSome :=
        buildIcb_created hne
      rw [hbuild] at hsome
      cases hsome
    | some cached =>
      obtain ⟨hcreated, hck, htake⟩ := buildIcb_eq_some hlength hbuild
      have hholds : cached.Holds calls := by
        unfold CachedICB.Holds commandsOf
        rw [htake, hdispatches, map_map]
        exact map_congr_left fun call _ => call.encode_ofCall
      exact ⟨rfl, rfl, .inr ⟨hcreated, cached, _, hck.trans hkey, hholds,
        evictIfNeeded_sublist _, rfl⟩⟩

theorem RecorderInv.endRecording (hi : RecorderInv P s) {created : Bool}
    (hg : CachesOnly P s (.endRecording created)) :
    RecorderInv P ⟨s.recorder.endRecording created, none,
      s.nextRecorded (.endRecording created)⟩ := by
  cases hcurrent : s.current with
  | none =>
    have hidle : s.recorder.is_recording = false := by simp [hi.recording, hcurrent]
    have hsame : s.recorder.endRecording created = s.recorder := by
      simp [ICBRecorder.endRecording, hidle]
    simp only [hsame, nextRecorded, hcurrent]
    rw [← hcurrent]
    exact hi
  | some recording =>
    obtain ⟨key, calls⟩ := recording
    obtain ⟨-, -, hnone⟩ := hi.current key calls hcurrent
    obtain ⟨henabled, hidle, hcache⟩ := hi.endRecording_cases hcurrent created
    simp only [nextRecorded, hcurrent]
    -- the key had no entry, so the entries there are keep their recordings
    have hold : ∀ cached ∈ s.recorder.cache, ∃ calls',
        Keyed.find Prod.fst (Keyed.insert Prod.fst s.recorded (key, calls)) cached.key =
          some (cached.key, calls') ∧ cached.Holds calls' ∧ P calls' := by
      intro cached hcached
      obtain ⟨calls', hfind, hholds⟩ := hi.holds cached hcached
      have hne : cached.key ≠ key := Keyed.find_eq_none.mp hnone cached hcached
      exact ⟨calls', (Keyed.find_insert_ne hne).trans hfind, hholds⟩
    have hdisabled : (s.recorder.endRecording created).enabled = false →
        s.recorder.enabled = false := fun h => henabled ▸ h
    rcases hcache with ⟨hcache, -⟩ | ⟨hcreated, cached, rest, hck, hholds, hsub, hcache⟩
    · exact
        { disabled := fun h => ⟨hcache.trans (hi.disabled (hdisabled h)).1, rfl⟩
          recording := hidle
          current := fun _ _ h => (by cases h)
          holds := fun c hc => hold c (hcache ▸ hc)
          distinct := hcache ▸ hi.distinct }
    · refine
        { disabled := fun h => ?_
          recording := hidle
          current := fun _ _ h => (by cases h)
          holds := fun c hc => ?_
          distinct := ?_ }
      · have := (hi.disabled (hdisabled h)).2
        rw [hcurrent] at this
        cases this
      · have hc : c ∈ (s.recorder.endRecording created).cache := hc
        rw [hcache, Keyed.mem_insert] at hc
        rcases hc with rfl | ⟨hc, -⟩
        · subst hcreated
          exact ⟨calls, by rw [hck]; exact Keyed.find_insert_self, hholds,
            hg (key, calls) hcurrent⟩
        · exact hold c (hsub.subset hc)
      · show Keyed.Distinct CachedICB.key (s.recorder.endRecording created).cache
        rw [hcache]
        exact Keyed.Distinct.insert (hi.distinct.sublist (hsub.map _)) cached

/-- Every call keeps the invariant. -/
theorem RecorderInv.step (hi : RecorderInv P s) {a : RecorderCall} {s' : RecorderSystem}
    (hg : CachesOnly P s a) (h : step s a = some s') : RecorderInv P s' := by
  obtain rfl := Option.some.inj h
  cases a with
  | setEnabled enable => exact hi.setEnabled enable
  | beginRecording key => exact hi.beginRecording key
  | recordDispatch call => exact hi.recordDispatch call
  | endRecording created => exact hi.endRecording hg
  | replay key =>
    show RecorderInv P { s with recorder := (s.recorder.replay key).2 }
    unfold replay
    split_ifs
    · exact hi
    · cases s.recorder.find key with
      | none => exact hi
      | some cached => exact hi.shrink (Sublist.refl _) rfl rfl rfl rfl
  | invalidate key => exact hi.shrink filter_sublist rfl rfl rfl rfl
  | invalidateAll => exact hi.shrink (nil_sublist _) rfl rfl rfl rfl

/-! ### Replays -/

/-- `replay` returns true exactly for a key that is cached, and then executes the recording. -/
theorem RecorderInv.replay (hi : RecorderInv P s) (key : ICBShapeKey) :
    (s.recorder.replay key).1 = none ∧ s.recorder.hasCached key = false ∨
      ∃ replayed calls, (s.recorder.replay key).1 = some replayed ∧
        s.recorder.hasCached key = true ∧
        Keyed.find Prod.fst s.recorded key = some (key, calls) ∧
        replayed.executed = commandsOf calls ∧ P calls := by
  unfold ICBRecorder.replay ICBRecorder.hasCached
  split_ifs with henabled
  · refine .inl ⟨rfl, ?_⟩
    simp [find, (hi.disabled henabled).1, Keyed.find]
  · cases hfind : s.recorder.find key with
    | none => exact .inl ⟨rfl, rfl⟩
    | some cached =>
      have hkey : cached.key = key := Keyed.find_key hfind
      obtain ⟨calls, hrecorded, hholds, hP⟩ := hi.holds cached (Keyed.find_mem hfind)
      exact .inr ⟨_, calls, rfl, rfl, hkey ▸ hrecorded, hholds, hP⟩

theorem RecorderInv.faithful (hi : RecorderInv Captured s) : s.Faithful := by
  intro key
  rcases hi.replay key with ⟨hnone, hcached⟩ | ⟨replayed, calls, hsome, hcached, hfind, hexec, hP⟩
  · rw [hnone]
    exact hcached
  · rw [hsome]
    refine ⟨hcached, calls, hfind, ?_⟩
    unfold Replayed.RunsAs
    rw [hexec]
    exact (forall_perm_commandsOf calls).mpr hP

theorem RecorderInv.faithfulByIndex (hi : RecorderInv KeptWhole s) : s.FaithfulByIndex := by
  intro key
  rcases hi.replay key with ⟨hnone, hcached⟩ | ⟨replayed, calls, hsome, hcached, hfind, hexec, hP⟩
  · rw [hnone]
    exact hcached
  · rw [hsome]
    exact ⟨hcached, calls, hfind, hexec.trans ((commandsOf_eq_iff calls).mpr hP)⟩

/-- A recording that becomes an entry is what the next replay of its key executes. -/
theorem RecorderInv.replay_endRecording (hi : RecorderInv P s)
    {calls : List DispatchCall} (hcurrent : s.current = some (key, calls)) (hne : calls ≠ []) :
    ∃ replayed, ((s.recorder.endRecording true).replay key).1 = some replayed ∧
      replayed.executed = commandsOf calls := by
  obtain ⟨henabled, -, ⟨-, hempty⟩ | ⟨-, cached, rest, hck, hholds, -, hcache⟩⟩ :=
    hi.endRecording_cases hcurrent true
  · exact absurd (hempty rfl) hne
  · have hon : ¬ (s.recorder.endRecording true).enabled = false := by
      rw [henabled]
      intro hoff
      have := (hi.disabled hoff).2
      rw [hcurrent] at this
      cases this
    have hfind : (s.recorder.endRecording true).find key = some cached := by
      unfold find
      rw [hcache, ← hck]
      exact Keyed.find_insert_self
    refine ⟨⟨cached.buffers, cached.icb.take cached.command_count.toNat⟩, ?_, hholds⟩
    simp only [ICBRecorder.replay, if_neg hon, hfind]

/-- After another recording became an entry, the replay of its key is not the recording. -/
theorem RecorderInv.not_faithful (hi : RecorderInv P s) {a : RecorderCall} {s' : RecorderSystem}
    (h : RecorderSystem.step s a = some s') (hnot : ¬ Capturable s a) : ¬ s'.Faithful := by
  obtain rfl := Option.some.inj h
  have hend : ∃ key calls, a = .endRecording true ∧ s.current = some (key, calls) ∧
      ¬ Captured calls := by
    cases a with
    | endRecording created =>
      cases created with
      | true =>
        simp only [Capturable, CachesOnly, not_forall] at hnot
        obtain ⟨⟨key, calls⟩, hcurrent, hcaptured⟩ := hnot
        exact ⟨key, calls, rfl, hcurrent, hcaptured⟩
      | false => exact absurd trivial hnot
    | _ => exact absurd trivial hnot
  obtain ⟨key, calls, rfl, hcurrent, hcaptured⟩ := hend
  have hne : calls ≠ [] := by
    rintro rfl
    exact hcaptured ⟨⟨by simp, by simp⟩, by simp⟩
  obtain ⟨replayed, hreplay, hexec⟩ := hi.replay_endRecording hcurrent hne
  intro hfaithful
  have hkey := hfaithful key
  simp only [callRecorder, hreplay, nextRecorded, hcurrent] at hkey
  obtain ⟨-, calls', hfind, hall⟩ := hkey
  have hcalls : calls' = calls := by
    have : some (key, calls') = some (key, calls) := hfind.symm.trans Keyed.find_insert_self
    exact (some_mk_inj this).2
  subst hcalls
  refine hcaptured ((forall_perm_commandsOf calls').mp fun commands hperm => hall commands ?_)
  rwa [Replayed.RunsAs, hexec]

/-- **Replay fidelity.**  In runs that cache only captured recordings, `replay` returns false for a
    key that is not cached, and otherwise runs the dispatches that were recorded under the key, with
    all their bindings and in their order; the first recording that is cached without being captured
    is not replayed so. -/
theorem replay_faithful {s : RecorderSystem} (h : Runs step Capturable {} s) :
    s.Faithful ∧ ∀ a s', step s a = some s' → ¬ Capturable s a → ¬ s'.Faithful := by
  have hi : RecorderInv Captured s :=
    h.invariant RecorderInv.init fun _ _ _ hi hg hstep => hi.step hg hstep
  exact ⟨hi.faithful, fun _ _ hstep hnot => hi.not_faithful hstep hnot⟩

/-- Without a bound on the dispatches the commands still stand in the order of the recording, as
    long as none is dropped and none loses a binding. -/
theorem replay_by_index {s : RecorderSystem} (h : Runs step (CachesOnly KeptWhole) {} s) :
    s.FaithfulByIndex := by
  have hi : RecorderInv KeptWhole s :=
    h.invariant RecorderInv.init fun _ _ _ hi hg hstep => hi.step hg hstep
  exact hi.faithfulByIndex

/-! ### One dispatch -/

/-- A dispatch of one threadgroup with one buffer. -/
def oneBuffer : DispatchCall where
  pipeline := 1
  buffers := [some 2]
  buffer_offsets := some fun _ => 16
  buffer_count := 1
  bytes_data := none
  bytes_length := 0
  bytes_index := 0
  grid_size := ⟨1, 1, 1⟩
  threadgroup_size := ⟨32, 1, 1⟩
  threadgroup_memory_lengths := none
  threadgroup_memory_count := 0

/-- The same dispatch with one inline byte at index 1. -/
def oneByte : DispatchCall :=
  { oneBuffer with
    bytes_data := some fun _ => 7
    bytes_length := 1
    bytes_index := 1 }

/-- The recorder is enabled, and one dispatch is recorded. -/
def recordOne (call : DispatchCall) : List RecorderCall :=
  [.setEnabled true, .beginRecording {}, .recordDispatch call]

/-- The dispatch with one buffer is recorded, cached and replayed. -/
theorem replay_faithful_oneBuffer :
    ∃ s, exec step {} (recordOne oneBuffer ++ [.endRecording true]) = some s ∧
      (s.recorder.replay {}).1.isSome = true ∧ s.Faithful := by
  have hcaptured : Captured [oneBuffer] := ⟨⟨by decide, by
    simp only [mem_singleton, forall_eq]
    exact ⟨rfl, by decide⟩⟩, by simp⟩
  have hguard : GuardedAlong step Capturable {}
      (recordOne oneBuffer ++ [.endRecording true]) := by
    refine ⟨trivial, fun _ h₁ => ⟨trivial, fun _ h₂ => ⟨trivial, fun _ h₃ => ⟨?_, ?_⟩⟩⟩⟩
    · obtain rfl := Option.some.inj h₁
      obtain rfl := Option.some.inj h₂
      obtain rfl := Option.some.inj h₃
      intro recording hrecording
      obtain rfl := Option.some.inj hrecording
      exact hcaptured
    · exact fun _ _ => trivial
  exact ⟨_, rfl, rfl, (replay_faithful (runs_exec rfl hguard)).1⟩

/-- **The inline byte is lost.**  The replay of the one recorded dispatch has no byte at index 1. -/
theorem inline_bytes_lost : ∃ s, Reaches step {} s ∧ ¬ s.Faithful := by
  have hreaches := reaches_exec (rfl : exec step {} (recordOne oneByte) = some _)
  have hi : RecorderInv (fun _ => True) _ := hreaches.invariant RecorderInv.init
    fun _ _ _ hi _ hstep => hi.step (cachesOnly_true _ _) hstep
  refine ⟨_, hreaches.tail trivial (rfl : step _ (.endRecording true) = some _),
    hi.not_faithful rfl fun hcap => ?_⟩
  have hcaptured : Captured [oneByte] := hcap _ rfl
  have hbytes := (hcaptured.encodable oneByte (by simp)).1
  cases hbytes

end RecorderSystem

end MetalNative
