import MetalNative.Graph.OperatorCaches
import MetalNative.Memory.BudgetController
import MetalNative.Lib.Rounding

namespace MetalNative

open MemoTable Run

/-!
# The capacity of the graph caches

A translation of how `matmul` and `conv2d` insert a graph: the capacity is computed from the memory
pressure at each miss, `evict_lru_if_needed` drops one graph where the cache is full, and the graph
is stored.  A cache that has more graphs than a capacity that has dropped stays too large.

* `maxCacheEntries` — the capacity under a pressure.
* `OperatorCaches.step` — a call of one of the operators, or a change of the pressure.
* `operator_caches_bounded` — an insertion keeps its key, drops a graph used least recently, and
  respects the capacity exactly if the cache did so before.
* `cache_stays_too_large` — a cache that is too large after an insertion.
-/

/-- `matmul_cache_max_entries` and `conv2d_cache_max_entries` as a miss computes them, in single
    precision. -/
def maxCacheEntries (pressure : MemoryPressureLevel) : ℕ :=
  max 4 ⌊Rounding.round 24 (64 * pressureMultiplier pressure)⌋₊

/-- The two caches, the pressure, and the time of the last call. -/
structure OperatorCaches where
  pressure : MemoryPressureLevel := .Normal
  now : ℕ := 0
  matmul : Log GraphCacheKey MatmulGraph := {}
  conv2d : Log GraphCacheKey Conv2dGraph := {}

/-- A change of the pressure, or a call at a time; `place` is where a new graph is put in the order
    of the hash table. -/
inductive OperatorEvent (α : Type*) where
  | setPressure (level : MemoryPressureLevel)
  | matmul (call : MatmulCall α) (now place : ℕ)
  | conv2d (call : Conv2dCall α) (now place : ℕ)

namespace OperatorCaches

variable {α : Type*}

/-- Whether a product gets as far as the cache. -/
def onGraphPath (call : MatmulCall α) : Bool :=
  (matmulCheck call.a call.b call.transpose_a call.transpose_b).toOption.any
    fun dims => matmulPath call.a call.b dims = .MPSGraph

/-- One event; the clock does not go back. -/
def step (s : OperatorCaches) : OperatorEvent α → Option OperatorCaches
  | .setPressure level => some { s with pressure := level }
  | .matmul call now place =>
    if now < s.now then none
    else if onGraphPath call then
      some { s with
        now
        matmul := s.matmul.call MatmulCall.key MatmulCall.build
          ⟨call, now, place, maxCacheEntries s.pressure⟩ }
    else some { s with now }
  | .conv2d call now place =>
    if now < s.now then none
    else if call.check.isOk then
      some { s with
        now
        conv2d := s.conv2d.call Conv2dCall.key Conv2dCall.build
          ⟨call, now, place, maxCacheEntries s.pressure⟩ }
    else some { s with now }

/-- A graph is only inserted where the cache is within the capacity that is computed for it. -/
def Roomy (s : OperatorCaches) : OperatorEvent α → Prop
  | .setPressure _ => True
  | .matmul call _ _ => inserts MatmulCall.key MatmulCall.build s.matmul.rows call = true →
      s.matmul.rows.length ≤ maxCacheEntries s.pressure
  | .conv2d call _ _ => inserts Conv2dCall.key Conv2dCall.build s.conv2d.rows call = true →
      s.conv2d.rows.length ≤ maxCacheEntries s.pressure

instance (s : OperatorCaches) : (e : OperatorEvent α) → Decidable (s.Roomy e)
  | .setPressure _ => inferInstanceAs (Decidable True)
  | .matmul _ _ _ => inferInstanceAs (Decidable (_ = true → _ ≤ _))
  | .conv2d _ _ _ => inferInstanceAs (Decidable (_ = true → _ ≤ _))

theorem maxCacheEntries_pos (pressure : MemoryPressureLevel) : 0 < maxCacheEntries pressure :=
  Nat.lt_of_lt_of_le (by decide) (le_max_left 4 _)

example : [MemoryPressureLevel.Normal, .Warning, .Critical].map maxCacheEntries = [64, 32, 6] := by
  decide +kernel

/-- Every insertion so far respected the capacity. -/
structure Within (s : OperatorCaches) : Prop where
  matmul : ∀ i ∈ s.matmul.insertions, i.Within
  conv2d : ∀ i ∈ s.conv2d.insertions, i.Within

/-- Both caches keep the invariant of a table with a record of its uses. -/
structure Inv (s : OperatorCaches) : Prop where
  matmul : s.matmul.Inv
  conv2d : s.conv2d.Inv

variable {s s' : OperatorCaches} {e : OperatorEvent α}

theorem Inv.init : Inv {} := ⟨.init, .init⟩

/-- **Step.** -/
theorem Inv.step (hi : s.Inv) (hstep : s.step e = some s') : s'.Inv := by
  unfold OperatorCaches.step at hstep
  have hpos := maxCacheEntries_pos s.pressure
  cases e with
  | setPressure level =>
    obtain rfl := Option.some.inj hstep
    exact ⟨hi.matmul, hi.conv2d⟩
  | matmul call now place =>
    dsimp only at hstep
    split_ifs at hstep
    · obtain rfl := Option.some.inj hstep
      exact ⟨hi.matmul.call hpos, hi.conv2d⟩
    · obtain rfl := Option.some.inj hstep
      exact ⟨hi.matmul, hi.conv2d⟩
  | conv2d call now place =>
    dsimp only at hstep
    split_ifs at hstep
    · obtain rfl := Option.some.inj hstep
      exact ⟨hi.matmul, hi.conv2d.call hpos⟩
    · obtain rfl := Option.some.inj hstep
      exact ⟨hi.matmul, hi.conv2d⟩

/-- What is inserted where the cache is within the capacity stays within it. -/
theorem call_within {C γ ε : Type*} {key : C → GraphCacheKey} {build : C → Except ε γ}
    {t : Log GraphCacheKey γ} {req : MemoTable.Request C} (hi : t.Inv) (hw : ∀ i ∈ t.insertions, i.Within)
    (hpos : 0 < req.capacity)
    (hroom : inserts key build t.rows req.call = true → t.rows.length ≤ req.capacity) :
    ∀ i ∈ (t.call key build req).insertions, i.Within := by
  intro i hmem
  obtain hold | ⟨hins, hcapacity, hbefore⟩ := Log.insertions_call hmem
  · exact hw i hold
  · refine ((hi.call hpos).within_iff i hmem).mpr ?_
    unfold Insertion.WithinBefore
    rw [hcapacity, hbefore]
    exact hroom hins

theorem Within.step (hw : s.Within) (hi : s.Inv) (hroomy : s.Roomy e)
    (hstep : s.step e = some s') : s'.Within := by
  unfold OperatorCaches.step at hstep
  have hpos := maxCacheEntries_pos s.pressure
  cases e with
  | setPressure level =>
    obtain rfl := Option.some.inj hstep
    exact ⟨hw.matmul, hw.conv2d⟩
  | matmul call now place =>
    dsimp only at hstep
    split_ifs at hstep
    · obtain rfl := Option.some.inj hstep
      exact ⟨call_within hi.matmul hw.matmul hpos hroomy, hw.conv2d⟩
    · obtain rfl := Option.some.inj hstep
      exact ⟨hw.matmul, hw.conv2d⟩
  | conv2d call now place =>
    dsimp only at hstep
    split_ifs at hstep
    · obtain rfl := Option.some.inj hstep
      exact ⟨hw.matmul, call_within hi.conv2d hw.conv2d hpos hroomy⟩
    · obtain rfl := Option.some.inj hstep
      exact ⟨hw.matmul, hw.conv2d⟩

/-- **The capacity of the graph caches.**  In every run each insertion keeps its key, drops a graph
    that was used least recently if it drops one, and leaves the cache within the capacity exactly
    if it was so before; so it does at every insertion of a run in which a graph is only inserted
    where the cache is within the capacity of the moment. -/
theorem operator_caches_bounded (α : Type*) :
    (∀ s, Reaches (step (α := α)) {} s →
      (∀ i ∈ s.matmul.insertions, i.Present ∧ i.EvictsOldest ∧ (i.Within ↔ i.WithinBefore)) ∧
      (∀ i ∈ s.conv2d.insertions, i.Present ∧ i.EvictsOldest ∧ (i.Within ↔ i.WithinBefore))) ∧
    (∀ s, Runs (step (α := α)) Roomy {} s → s.Within) := by
  have hinv : ∀ {G : OperatorCaches → OperatorEvent α → Prop} {s}, Runs step G {} s → s.Inv :=
    fun h => h.invariant .init fun _ _ _ hi _ hstep => hi.step hstep
  refine ⟨fun s hreach => ?_, fun s hruns => ?_⟩
  · have hi := hinv hreach
    exact ⟨fun i h => ⟨hi.matmul.present i h, hi.matmul.evictsOldest i h, hi.matmul.within_iff i h⟩,
      fun i h => ⟨hi.conv2d.present i h, hi.conv2d.evictsOldest i h, hi.conv2d.within_iff i h⟩⟩
  · have hboth : s.Inv ∧ s.Within := by
      refine hruns.invariant (P := fun u => u.Inv ∧ u.Within) ⟨.init, ?_⟩ ?_
      · exact ⟨fun i h => absurd h List.not_mem_nil, fun i h => absurd h List.not_mem_nil⟩
      · rintro u e v ⟨hi, hw⟩ hroomy hstep
        exact ⟨hi.step hstep, hw.step hi hroomy hstep⟩
    exact hboth.2

/-! ### A drop of the capacity -/

theorem zero_lt_eight : 0 < 8 := by decide

/-- A convolution with a padding, at the time of that number. -/
def padded (n : ℕ) : OperatorEvent Unit :=
  .conv2d (smallConv (biasOf ⟨0, zero_lt_eight⟩ .Float32) [UInt64.ofNat n, 0] [1, 1]) n 0

/-- Seven graphs, and an eighth when the pressure has become critical: seven remain, where six may. -/
theorem cache_stays_too_large : ∃ s, Reaches (step (α := Unit)) {} s ∧
    ∃ i ∈ s.conv2d.insertions, ¬ i.Within :=
  exists_reaches ((List.range 7).map padded ++ [.setPressure .Critical, padded 7])
    (by decide +kernel)

/-- Six graphs, and a seventh when the pressure has become critical: one is dropped for it. -/
theorem operator_caches_bounded_seven : ∃ s, Runs (step (α := Unit)) Roomy {} s ∧
    s.conv2d.insertions.length = 7 ∧ s.conv2d.rows.length = 6 ∧ s.Within ∧
      ∀ i ∈ s.conv2d.insertions, i.Present ∧ i.EvictsOldest := by
  let events := (List.range 6).map padded ++ [.setPressure .Critical, padded 6]
  have hsome : (exec step {} events).any (fun s =>
      decide (s.conv2d.insertions.length = 7 ∧ s.conv2d.rows.length = 6)) = true := by
    decide +kernel
  have hroomy : GuardedAlong step Roomy {} events := by
    decide +kernel
  obtain ⟨s, hs, hlength⟩ := (Option.any_eq_true _ _).mp hsome
  obtain ⟨hinserted, hrows⟩ := of_decide_eq_true hlength
  have hruns := runs_exec hs hroomy
  refine ⟨s, hruns, hinserted, hrows, (operator_caches_bounded Unit).2 s hruns, fun i hi => ?_⟩
  have hall := ((operator_caches_bounded Unit).1 s (reaches_exec hs)).2 i hi
  exact ⟨hall.1, hall.2.1⟩

end OperatorCaches

end MetalNative
