import Mathlib.Algebra.BigOperators.Ring.Finset
import Mathlib.Algebra.Order.BigOperators.Group.List
import Mathlib.Data.Rat.Floor
import Mathlib.NumberTheory.Harmonic.Defs
import MetalNative.Memory.MemoryPressure

namespace MetalNative

open Run List

/-!
# `MemoryBudgetController`: shares of the distributable memory

A translation of `snapshot`, `pressure_multiplier` and `request_budget` of `budget_controller.mm`,
with exact arithmetic in place of single precision.  A strategy becomes active with its first
request; a request is granted a share for each active strategy, and earlier grants stay as they are.

* `MemoryBudgetController.requestBudget` — one request.
* `BudgetRun` — the controller with the latest grant of each strategy.
* `budget_grants` — what bounds a grant, the grants made alike, and all grants.
-/

/-- `BudgetStrategy`. -/
inductive BudgetStrategy where
  | GraphCache
  | KVCache
  | ActivationCache
  | QuantWeightCache
  | SpeculativeBuffers
  deriving DecidableEq, Repr

/-- The values of `BudgetStrategy` below `Count`. -/
def BudgetStrategy.all : List BudgetStrategy :=
  [.GraphCache, .KVCache, .ActivationCache, .QuantWeightCache, .SpeculativeBuffers]

/-- `GrantedBudget`, with the pressure that the cache does not read. -/
structure MemoryBudgetController.GrantedBudget where
  bytes : ℕ
  pressure : MemoryPressureLevel
  approved : Bool
  deriving DecidableEq, Repr

/-- `BudgetSnapshot`. -/
structure BudgetSnapshot where
  total_capacity : ℕ
  model_memory : ℕ
  headroom : ℕ
  distributable : ℕ
  pressure : MemoryPressureLevel
  pressure_multiplier : ℚ
  deriving DecidableEq, Repr

/-- The members of `MemoryBudgetController::Impl` that a request reads. -/
structure MemoryBudgetController where
  total_capacity : ℕ
  last_sampled_allocated : ℕ
  current_pressure : MemoryPressureLevel := .Normal
  strategy_active : BudgetStrategy → Bool := fun _ => false

/-- `pressure_multiplier`; `0.1f` is the single-precision number next to one tenth. -/
def pressureMultiplier : MemoryPressureLevel → ℚ
  | .Normal => 1
  | .Warning => 1 / 2
  | .Critical => 13421773 / 134217728

namespace MemoryBudgetController

/-- `snapshot`. -/
def snapshot (c : MemoryBudgetController) : BudgetSnapshot :=
  let headroom :=
    if c.total_capacity > c.last_sampled_allocated then c.total_capacity - c.last_sampled_allocated
    else 0
  let safety := headroom / 10
  { total_capacity := c.total_capacity
    model_memory := c.last_sampled_allocated
    headroom
    distributable := headroom - safety
    pressure := c.current_pressure
    pressure_multiplier := pressureMultiplier c.current_pressure }

/-- The loop that counts the active strategies. -/
def activeCount (c : MemoryBudgetController) : ℕ := BudgetStrategy.all.countP c.strategy_active

/-- `strategy_active[strategy] = true`. -/
def activate (c : MemoryBudgetController) (strategy : BudgetStrategy) : MemoryBudgetController :=
  { c with strategy_active := fun st => if st = strategy then true else c.strategy_active st }

/-- `per_strategy`. -/
def perStrategy (c : MemoryBudgetController) : ℕ :=
  let active_count := if c.activeCount = 0 then 1 else c.activeCount
  ⌊(c.snapshot.distributable : ℚ) * c.snapshot.pressure_multiplier / active_count⌋₊

/-- `request_budget`. -/
def requestBudget (c : MemoryBudgetController) (strategy : BudgetStrategy) (desired_bytes : ℕ) :
    GrantedBudget × MemoryBudgetController :=
  let c' := c.activate strategy
  let bytes := min desired_bytes c'.perStrategy
  (⟨bytes, c.current_pressure, bytes > 0⟩, c')

end MemoryBudgetController

/-! ### Runs -/

/-- A grant, with the number of active strategies and the pressure that it was computed from. -/
structure Grant where
  bytes : ℕ
  active : ℕ
  pressure : MemoryPressureLevel
  deriving DecidableEq, Repr

/-- The controller, and the latest grant of each strategy. -/
structure BudgetRun where
  controller : MemoryBudgetController
  latest : BudgetStrategy → Option Grant := fun _ => none

/-- A change of the pressure, or a request. -/
inductive BudgetAction where
  | setPressure (level : MemoryPressureLevel)
  | request (strategy : BudgetStrategy) (desired_bytes : ℕ)
  deriving DecidableEq, Repr

open BudgetStrategy MemoryBudgetController

namespace BudgetRun

/-- A new controller. -/
def init (total_capacity last_sampled_allocated : ℕ) : BudgetRun where
  controller := { total_capacity, last_sampled_allocated }

/-- One step. -/
def step (s : BudgetRun) : BudgetAction → Option BudgetRun
  | .setPressure level =>
    some { s with controller := { s.controller with current_pressure := level } }
  | .request strategy desired_bytes =>
    let (grant, controller) := s.controller.requestBudget strategy desired_bytes
    some
      { controller
        latest := fun st =>
          if st = strategy then some ⟨grant.bytes, controller.activeCount, grant.pressure⟩
          else s.latest st }

/-- The memory that can be distributed. -/
def distributable (s : BudgetRun) : ℕ := s.controller.snapshot.distributable

/-- The bytes granted to a strategy. -/
def granted (s : BudgetRun) (st : BudgetStrategy) : ℕ := ((s.latest st).map Grant.bytes).getD 0

/-- The outstanding grants. -/
def outstanding (s : BudgetRun) : ℕ := (BudgetStrategy.all.map s.granted).sum

/-- A grant that would be computed alike now. -/
def isCurrent (s : BudgetRun) (st : BudgetStrategy) : Bool :=
  (s.latest st).any fun g =>
    g.active = s.controller.activeCount ∧ g.pressure = s.controller.current_pressure

/-- The outstanding grants that were made with the present number of active strategies and the
present pressure. -/
def outstandingCurrent (s : BudgetRun) : ℕ :=
  ((BudgetStrategy.all.filter s.isCurrent).map s.granted).sum

/-! ### Shares -/

variable {s s' : BudgetRun} {a : BudgetAction}

theorem pressureMultiplier_nonneg (level : MemoryPressureLevel) : 0 ≤ pressureMultiplier level := by
  cases level <;> norm_num [pressureMultiplier]

theorem pressureMultiplier_pos (level : MemoryPressureLevel) : 0 < pressureMultiplier level := by
  cases level <;> norm_num [pressureMultiplier]

theorem pressureMultiplier_le_one (level : MemoryPressureLevel) : pressureMultiplier level ≤ 1 := by
  cases level <;> norm_num [pressureMultiplier]

/-- A request is granted no more than it asks for, and no more than a share. -/
theorem requestBudget_bytes (c : MemoryBudgetController) (strategy : BudgetStrategy)
    (desired_bytes : ℕ) :
    (c.requestBudget strategy desired_bytes).1.bytes ≤ desired_bytes ∧
      ((c.requestBudget strategy desired_bytes).1.bytes : ℚ)
        ≤ c.snapshot.distributable * pressureMultiplier c.current_pressure
            / (c.activate strategy).activeCount := by
  constructor
  · exact Nat.min_le_left _ _
  · have hshare : 0 ≤ (c.snapshot.distributable : ℚ) * pressureMultiplier c.current_pressure :=
      mul_nonneg (Nat.cast_nonneg _) (pressureMultiplier_nonneg _)
    have hmin : ((c.requestBudget strategy desired_bytes).1.bytes : ℚ)
        ≤ (c.activate strategy).perStrategy := by
      exact_mod_cast Nat.min_le_right _ _
    have hfloor : ((c.activate strategy).perStrategy : ℚ)
        ≤ c.snapshot.distributable * pressureMultiplier c.current_pressure
          / ((if (c.activate strategy).activeCount = 0 then 1
              else (c.activate strategy).activeCount : ℕ) : ℚ) :=
      Nat.floor_le (div_nonneg hshare (Nat.cast_nonneg _))
    have hactive : (c.activate strategy).activeCount ≠ 0 := by
      apply Nat.pos_iff_ne_zero.mp
      refine countP_pos_iff.mpr ⟨strategy, ?_, ?_⟩
      · cases strategy <;> decide
      · simp [activate]
    rw [if_neg hactive] at hfloor
    exact hmin.trans hfloor

/-- The strategies in the order in which they became active, and what the grants were computed
from. -/
structure Shares (D : ℕ) (s : BudgetRun) (order : List BudgetStrategy) : Prop where
  distributable : s.distributable = D
  nodup : order.Nodup
  active : ∀ st, st ∈ order ↔ s.controller.strategy_active st = true
  latest : ∀ st, (s.latest st).isSome = true → st ∈ order
  share : ∀ st g, s.latest st = some g →
    (g.bytes : ℚ) ≤ D * pressureMultiplier g.pressure / g.active
  ranked : ∀ (i : ℕ) st, order[i]? = some st → (s.granted st : ℚ) ≤ D / (i + 1)

namespace Shares

variable {D : ℕ} {order : List BudgetStrategy}

theorem mem_all (st : BudgetStrategy) : st ∈ BudgetStrategy.all := by
  cases st <;> decide

/-- The list holds the strategies that are counted. -/
theorem perm (h : Shares D s order) :
    order.Perm (BudgetStrategy.all.filter s.controller.strategy_active) := by
  apply (perm_ext_iff_of_nodup h.nodup (Nodup.filter _ (by decide))).mpr
  intro st
  rw [mem_filter, h.active st]
  simp [mem_all]

theorem activeCount_eq (h : Shares D s order) : s.controller.activeCount = order.length := by
  rw [h.perm.length_eq, activeCount, countP_eq_length_filter]

theorem granted_eq_zero (h : Shares D s order) {st : BudgetStrategy} (hst : st ∉ order) :
    s.granted st = 0 := by
  have hnone : s.latest st = none := by
    by_contra hne
    exact hst (h.latest st (Option.isSome_iff_ne_none.mpr hne))
  rw [granted, hnone]
  rfl

/-- The order after a request. -/
def extend (order : List BudgetStrategy) (strategy : BudgetStrategy) : List BudgetStrategy :=
  if strategy ∈ order then order else order ++ [strategy]

theorem mem_extend {strategy st : BudgetStrategy} :
    st ∈ extend order strategy ↔ st = strategy ∨ st ∈ order := by
  unfold extend
  split_ifs with hmem
  · constructor
    · exact .inr
    · rintro (rfl | hst)
      · exact hmem
      · exact hst
  · rw [mem_append, mem_singleton, or_comm]

theorem nodup_extend (h : order.Nodup) (strategy : BudgetStrategy) :
    (extend order strategy).Nodup := by
  unfold extend
  split_ifs with hmem
  · exact h
  · exact Nodup.append h (nodup_singleton _) (by simpa using hmem)

/-- A strategy that was there keeps its place. -/
theorem getElem?_extend {strategy st : BudgetStrategy} {i : ℕ}
    (h : (extend order strategy)[i]? = some st) (hne : st ≠ strategy) : order[i]? = some st := by
  unfold extend at h
  split_ifs at h with hmem
  · exact h
  · rcases Nat.lt_or_ge i order.length with hlt | hge
    · rwa [getElem?_append_left hlt] at h
    · rw [getElem?_append_right hge] at h
      exact absurd (mem_singleton.mp (mem_of_getElem? h)) hne

theorem setPressure (h : Shares D s order) (level : MemoryPressureLevel) :
    Shares D { s with controller := { s.controller with current_pressure := level } } order :=
  ⟨h.distributable, h.nodup, h.active, h.latest, h.share, h.ranked⟩

theorem request (h : Shares D s order) (strategy : BudgetStrategy) (desired_bytes : ℕ)
    (hs : step s (.request strategy desired_bytes) = some s') :
    Shares D s' (extend order strategy) := by
  obtain rfl := Option.some.inj hs
  have hbytes := (requestBudget_bytes s.controller strategy desired_bytes).2
  rw [show s.controller.snapshot.distributable = D from h.distributable] at hbytes
  have hactive : ∀ st, st ∈ extend order strategy
      ↔ (s.controller.activate strategy).strategy_active st = true := by
    intro st
    rw [mem_extend, h.active]
    by_cases hst : st = strategy
    · simp [activate, hst]
    · simp [activate, hst]
  have hcount : (s.controller.activate strategy).activeCount = (extend order strategy).length := by
    have hperm : (extend order strategy).Perm
        (BudgetStrategy.all.filter (s.controller.activate strategy).strategy_active) := by
      apply (perm_ext_iff_of_nodup (nodup_extend h.nodup _)
        (Nodup.filter _ (by decide))).mpr
      intro st
      rw [mem_filter, hactive st]
      simp [mem_all]
    rw [hperm.length_eq, activeCount, countP_eq_length_filter]
  refine ⟨h.distributable, nodup_extend h.nodup _, hactive, ?_, ?_, ?_⟩
  · intro st hst
    rw [mem_extend]
    by_cases heq : st = strategy
    · exact .inl heq
    · simp only [heq, if_false] at hst
      exact .inr (h.latest st hst)
  · intro st g hg
    by_cases heq : st = strategy
    · simp only [heq, if_true] at hg
      obtain rfl := Option.some.inj hg
      exact hbytes
    · simp only [heq, if_false] at hg
      exact h.share st g hg
  · intro i st hi
    by_cases heq : st = strategy
    · -- the share is at most that of the strategy's place
      subst heq
      have hlt : i < (extend order st).length := (List.getElem?_eq_some_iff.mp hi).1
      have hle : ((i : ℚ) + 1) ≤ (s.controller.activate st).activeCount := by
        rw [hcount]
        exact_mod_cast hlt
      have hpos : (0 : ℚ) < (i : ℚ) + 1 := by positivity
      have hD : (D : ℚ) * pressureMultiplier s.controller.current_pressure ≤ D :=
        mul_le_of_le_one_right (Nat.cast_nonneg _) (pressureMultiplier_le_one _)
      simp only [granted, if_true, Option.map_some, Option.getD_some]
      refine hbytes.trans ?_
      calc (D : ℚ) * pressureMultiplier s.controller.current_pressure
            / (s.controller.activate st).activeCount
          ≤ D / (s.controller.activate st).activeCount := by gcongr
        _ ≤ D / (i + 1) := by gcongr
    · simp only [granted, heq, if_false]
      exact h.ranked i st (getElem?_extend hi heq)

/-- All grants together. -/
theorem outstanding_le (h : Shares D s order) :
    (s.outstanding : ℚ) ≤ D * harmonic order.length := by
  have hsum : s.outstanding = (order.map s.granted).sum := by
    have hfilter : ∀ l : List BudgetStrategy,
        (l.map s.granted).sum
          = ((l.filter s.controller.strategy_active).map s.granted).sum := by
      intro l
      induction l with
      | nil => rfl
      | cons st l ih =>
        by_cases hst : s.controller.strategy_active st = true
        · simp [hst, ih]
        · have hzero := h.granted_eq_zero (mt (h.active st).mp hst)
          simp [hst, hzero, ih]
    rw [outstanding, hfilter]
    exact ((h.perm.map _).sum_eq).symm
  -- the strategy at place `i` has at most the share of `i + 1` strategies
  have hprefix : ∀ l : List BudgetStrategy,
      (∀ (i : ℕ) st, l[i]? = some st → (s.granted st : ℚ) ≤ D / (i + 1)) →
        (((l.map s.granted).sum : ℕ) : ℚ) ≤ D * harmonic l.length := by
    intro l
    induction l using reverseRecOn with
    | nil => simp
    | append_singleton l st ih =>
      intro hl
      have hlast := hl l.length st (by simp)
      have hrest := ih fun i st' hi => hl i st' (by
        rw [List.getElem?_append_left (List.getElem?_eq_some_iff.mp hi).1]
        exact hi)
      rw [map_append, sum_append, length_append, length_singleton,
        harmonic_succ, mul_add, Nat.cast_add]
      apply add_le_add hrest
      simpa [div_eq_mul_inv] using hlast
  rw [hsum]
  exact hprefix order h.ranked

/-- The grants that were made alike. -/
theorem outstandingCurrent_le (h : Shares D s order) :
    (s.outstandingCurrent : ℚ) ≤ D * pressureMultiplier s.controller.current_pressure := by
  have hshare : ∀ st ∈ all.filter s.isCurrent, (s.granted st : ℚ)
      ≤ D * pressureMultiplier s.controller.current_pressure / s.controller.activeCount := by
    intro st hst
    obtain ⟨-, hcurrent⟩ := mem_filter.mp hst
    obtain ⟨g, hg, halike⟩ := (Option.any_eq_true _ _).mp hcurrent
    obtain ⟨hactive, hpressure⟩ := of_decide_eq_true halike
    rw [granted, hg, ← hactive, ← hpressure]
    exact h.share st g hg
  have hlen : (all.filter s.isCurrent).length ≤ s.controller.activeCount := by
    rw [← countP_eq_length_filter]
    apply countP_mono_left
    intro st _ hcurrent
    obtain ⟨g, hg, -⟩ := (Option.any_eq_true _ _).mp hcurrent
    exact (h.active st).mp (h.latest st (by rw [hg]; rfl))
  have hnonneg : 0 ≤ (D : ℚ) * pressureMultiplier s.controller.current_pressure :=
    mul_nonneg (Nat.cast_nonneg _) (pressureMultiplier_nonneg _)
  rcases Nat.eq_zero_or_pos s.controller.activeCount with hzero | hpos
  · have hnil : all.filter s.isCurrent = [] :=
      length_eq_zero_iff.mp (by omega)
    rw [outstandingCurrent, hnil]
    simpa using hnonneg
  · have hcast : (s.outstandingCurrent : ℚ)
        = ((all.filter s.isCurrent).map fun st => (s.granted st : ℚ)).sum := by
      rw [outstandingCurrent, Nat.cast_list_sum, map_map]
      rfl
    have hsum := sum_le_card_nsmul
      ((all.filter s.isCurrent).map fun st => (s.granted st : ℚ)) _
      (forall_mem_map.mpr hshare)
    rw [length_map, nsmul_eq_mul] at hsum
    rw [hcast]
    refine hsum.trans ?_
    have hcount : (0 : ℚ) < s.controller.activeCount := by exact_mod_cast hpos
    calc ((all.filter s.isCurrent).length : ℚ)
          * (D * pressureMultiplier s.controller.current_pressure / s.controller.activeCount)
        ≤ s.controller.activeCount
          * (D * pressureMultiplier s.controller.current_pressure / s.controller.activeCount) := by
          gcongr
      _ = D * pressureMultiplier s.controller.current_pressure := by
          field_simp

theorem step {s s' : BudgetRun} {a : BudgetAction} (h : Shares D s order)
    (hs : s.step a = some s') : ∃ order, Shares D s' order := by
  cases a with
  | setPressure level =>
    obtain rfl := Option.some.inj hs
    exact ⟨order, h.setPressure level⟩
  | request strategy desired_bytes => exact ⟨_, h.request strategy desired_bytes hs⟩

end Shares

theorem shares_init (total sampled : ℕ) :
    Shares (init total sampled).distributable (init total sampled) [] where
  distributable := rfl
  nodup := nodup_nil
  active := by simp [init]
  latest := by simp [init]
  share := by simp [init]
  ranked := by simp

/-- The graph cache asks for everything, then the key-value cache. -/
def twoRequests : List BudgetAction := [.request .GraphCache 90, .request .KVCache 90]

/-- The state after both requests. -/
theorem exec_twoRequests :
    ∃ s, exec BudgetRun.step (init 100 0) twoRequests = some s ∧ s.granted .GraphCache = 90
      ∧ s.granted .KVCache = 45 ∧ s.outstanding = 135
      ∧ s.controller.snapshot.distributable = 90 ∧ s.controller.current_pressure = .Normal := by
  have hfirst : ((init 100 0).controller.activate .GraphCache).perStrategy = 90 := by
    have hcount : ((init 100 0).controller.activate .GraphCache).activeCount = 1 := by decide
    simp only [perStrategy, hcount]
    norm_num [snapshot, activate, init,
      pressureMultiplier]
  have hsecond :
      (((init 100 0).controller.activate .GraphCache).activate .KVCache).perStrategy = 45 := by
    have hcount :
        (((init 100 0).controller.activate .GraphCache).activate .KVCache).activeCount = 2 := by
      decide
    simp only [perStrategy, hcount]
    norm_num [snapshot, activate, init,
      pressureMultiplier]
  have hnone : (init 100 0).latest = fun _ => none := rfl
  refine ⟨_, rfl, ?_, ?_, ?_, rfl, rfl⟩
  · simp [granted, hfirst]
  · simp [granted, hsecond]
  · simp [outstanding, granted, BudgetStrategy.all, hfirst, hsecond, hnone]

end BudgetRun

end MetalNative
