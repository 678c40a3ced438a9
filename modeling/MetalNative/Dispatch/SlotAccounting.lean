import MetalNative.Dispatch.PipelineInvariant

namespace MetalNative

open LockSem Run

/-!
# Backpressure slot accounting

* `FreshCommit` — the condition: what a call commits is an active buffer not committed before.
* `slot_accounting` — in every run that meets it, with no call in progress the slots in use are
  the committed buffers that have not completed, and no buffer is committed twice.
* `throwing_commit_leaks_slot` — `commit` takes its slot before it looks for an active buffer.
-/

/-- With no call in progress `in_flight_count()` is the number of committed buffers that have not
    completed, at most `buffer_count`; and no buffer is committed twice. -/
structure Accounted (s : System) : Prop where
  quiescent : (∀ th ∈ s.threads, th.pc = .idle) →
    s.pipe.inFlight = s.pipe.pending.length ∧ s.pipe.inFlight ≤ s.pipe.bufferCount
  once : s.pipe.committed.Nodup
  pending_once : s.pipe.pending.Nodup
  pending_committed : s.pipe.pending ⊆ s.pipe.committed

/-- The condition on a step: a call that commits finds an active buffer that has not been
    committed. -/
def FreshCommit (s : System) : Action → Prop
  | .run t _ => ∀ th ∈ s.threads[t]?, th.pc.commits = true →
      s.pipe.hasActive = true ∧ ∃ buf ∈ s.pipe.activeBuffer, buf ∉ s.pipe.committed
  | .complete _ => True

instance (s : System) : ∀ a : Action, Decidable (FreshCommit s a)
  | .run t _ => inferInstanceAs (Decidable (∀ th ∈ s.threads[t]?, th.pc.commits = true →
      s.pipe.hasActive = true ∧ ∃ buf ∈ s.pipe.activeBuffer, buf ∉ s.pipe.committed))
  | .complete _ => inferInstanceAs (Decidable True)

theorem FreshCommit.ready {s : System} {a : Action} (h : FreshCommit s a) : CommitReady s a := by
  cases a with
  | run t env =>
    intro th hth hcommits
    obtain ⟨hactive, buf, hbuf, -⟩ := h th hth hcommits
    exact ⟨hactive, by rw [Option.mem_def.mp hbuf]; exact Option.some_ne_none buf⟩
  | complete buf => trivial

/-- Every buffer is committed once, and completes once. -/
structure CommitInv (s : System) : Prop where
  committed : s.pipe.committed.Nodup
  pending : s.pipe.pending.Nodup
  subset : s.pipe.pending ⊆ s.pipe.committed

theorem CommitInv.step {s s' : System} {a : Action} (hc : CommitInv s) (hg : FreshCommit s a)
    (h : MetalNative.step s a = some s') : CommitInv s' := by
  cases a with
  | complete buf =>
    obtain ⟨-, -, rfl⟩ := step_complete h
    exact ⟨hc.committed, hc.pending.erase buf, fun x hx => hc.subset (List.mem_of_mem_erase hx)⟩
  | run t env =>
    obtain ⟨th, th', p', hran, -⟩ := step_run h
    have hcomm : s'.pipe.committed = p'.committed := by rw [hran.pipe_eq]
    have hpend : s'.pipe.pending = p'.pending := by rw [hran.pipe_eq]
    rcases hran.effect.commit_cases with ⟨h1, h2⟩ | ⟨hcommits, h1, h2⟩
    · rw [h1] at hcomm
      rw [h2] at hpend
      refine ⟨?_, ?_, ?_⟩
      · rw [hcomm]
        exact hc.committed
      · rw [hpend]
        exact hc.pending
      · rw [hcomm, hpend]
        exact hc.subset
    · obtain ⟨-, buf, hbuf, hfresh⟩ := hg th hran.at_t hcommits
      obtain ⟨hnew, hnew'⟩ := commitActive_some (p := running s.pipe th.pc) hbuf
      rw [h1, hnew] at hcomm
      rw [h2, hnew'] at hpend
      refine ⟨?_, ?_, ?_⟩
      · rw [hcomm]
        exact List.nodup_cons.mpr ⟨hfresh, hc.committed⟩
      · -- a buffer not committed before is not in flight either
        rw [hpend]
        refine List.nodup_append.mpr ⟨hc.pending, List.nodup_singleton buf, fun x hx y hy => ?_⟩
        rintro rfl
        rw [List.mem_singleton.mp hy] at hx
        exact hfresh (hc.subset hx)
      · rw [hcomm, hpend]
        intro x hx
        rcases List.mem_append.mp hx with hx | hx
        · exact List.mem_cons_of_mem _ (hc.subset hx)
        · rw [List.mem_singleton.mp hx]
          exact List.mem_cons_self ..

/-- Idle threads hold no slot. -/
theorem held_idle {s : System} (h : ∀ th ∈ s.threads, th.pc = .idle) : held profile s.pcs = 0 := by
  unfold held
  rw [List.sum_eq_zero]
  intro k hk
  obtain ⟨pc, hpc, rfl⟩ := List.mem_map.mp hk
  obtain ⟨th, hth, rfl⟩ := List.mem_map.mp hpc
  rw [h th hth]
  rfl

/-- **Slot accounting.**  In every run whose commits are of active, not yet committed buffers the
    counter is exact, however the threads, the failures and the completions interleave. -/
theorem slot_accounting (bufferCount : ℕ) (progs : List (List Op)) {s : System}
    (hrun : Runs step FreshCommit (System.init bufferCount progs) s) : Accounted s := by
  have hinv : SlotInv s ∧ CommitInv s := by
    refine hrun.invariant (P := fun u => SlotInv u ∧ CommitInv u) ?_ ?_
    · exact ⟨SlotInv.init bufferCount progs, List.nodup_nil, List.nodup_nil, List.nil_subset _⟩
    · rintro u a v ⟨hslot, hcommit⟩ hg hs
      exact ⟨hslot.step hg.ready hs, hcommit.step hg hs⟩
  obtain ⟨hslot, hcommit⟩ := hinv
  refine ⟨fun hidle => ⟨?_, hslot.bounded⟩, hcommit.committed, hcommit.pending, hcommit.subset⟩
  rw [hslot.account, held_idle hidle, Nat.add_zero]

/-- The next step of thread `t`, with Metal granting what it is asked. -/
def go (t : ℕ) : Action := .run t {}

/-- One thread commits a buffer and goes on with the next. -/
def eagerSchedule : List Action := List.replicate 7 (go 0)

theorem slot_accounting_run :
    ∃ s, exec step (System.init 3 [[.currentBuffer, .commitAndContinue]]) eagerSchedule = some s ∧
      Accounted s := by
  have hsome : (exec step (System.init 3 [[.currentBuffer, .commitAndContinue]])
      eagerSchedule).isSome = true := by decide
  obtain ⟨s, hs⟩ := Option.isSome_iff_exists.mp hsome
  have hguard : GuardedAlong step FreshCommit (System.init 3 [[.currentBuffer, .commitAndContinue]])
      eagerSchedule := by decide
  exact ⟨s, hs, slot_accounting 3 _ (runs_exec hs hguard)⟩

/-- `commit` on a fresh pipeline: its slot is taken, the call throws, nobody gives it back. -/
theorem throwing_commit_leaks_slot :
    ∃ s, Reaches step (System.init 3 [[.commit]]) s ∧ (∀ th ∈ s.threads, th.pc = .idle) ∧
      s.pipe.inFlight = 1 ∧ s.pipe.pending = [] ∧ ¬ Accounted s := by
  have hsome : (exec step (System.init 3 [[.commit]]) [go 0, go 0, go 0]).isSome = true := by decide
  obtain ⟨s, hs⟩ := Option.isSome_iff_exists.mp hsome
  have hafter : (exec step (System.init 3 [[.commit]]) [go 0, go 0, go 0]).map
      (fun s => (s.threads.all fun th => decide (th.pc = .idle), s.pipe.inFlight, s.pipe.pending))
        = some (true, 1, []) := by decide
  rw [hs, Option.map_some, Option.some.injEq, Prod.mk.injEq, Prod.mk.injEq] at hafter
  obtain ⟨hidle, hin, hpend⟩ := hafter
  have hidle' : ∀ th ∈ s.threads, th.pc = .idle := by simpa using hidle
  refine ⟨s, reaches_exec hs, hidle', hin, hpend, fun h => ?_⟩
  have hcount := (h.quiescent hidle').1
  rw [hin, hpend] at hcount
  cases hcount

end MetalNative
