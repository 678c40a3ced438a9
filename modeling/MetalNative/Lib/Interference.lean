import Mathlib.Data.Set.Basic
import Mathlib.Logic.Nontrivial.Basic

/-!
# Two runs of a program that computes a function

A program relates an input, a place of its output and a value that may be there afterwards.  An
observer sees some of the places, and there are inputs that he is not to tell apart.

* `Computes` — the program leaves the values of a function.
* `NonInterfering` — inputs that are alike leave the same values in the places that are seen.
* `Computes.nonInterfering_iff` — when a program computes a function, it is the function that has to
  treat inputs alike.
* `Leaves` — what some stores leave in a cell: a value that was stored, or, where none was,
  anything.
-/

namespace Interference

variable {ι κ ω Λ : Type*}

/-- The value `ω` may be at the place `κ` after a run on the input `ι`. -/
abbrev Program (ι κ ω : Type*) := ι → κ → ω → Prop

/-- For each level, which inputs are alike and which places are seen. -/
structure Observer (ι κ Λ : Type*) where
  alike : Λ → ι → ι → Prop
  seen : Λ → κ → Prop

/-- The program leaves some value in each place. -/
def Total (R : Program ι κ ω) (places : Set κ) : Prop := ∀ x, ∀ p ∈ places, ∃ v, R x p v

/-- The program leaves the values of a function, and no others. -/
def Computes (R : Program ι κ ω) (places : Set κ) (f : ι → κ → ω) : Prop :=
  ∀ x, ∀ p ∈ places, ∀ v, R x p v → v = f x p

/-- Inputs that are alike leave the same values in the places that are seen. -/
def NonInterfering (R : Program ι κ ω) (places : Set κ) (o : Observer ι κ Λ) : Prop :=
  ∀ l x y, o.alike l x y → ∀ p ∈ places, o.seen l p → ∀ v w, R x p v → R y p w → v = w

/-- The function treats inputs alike. -/
def Respects (f : ι → κ → ω) (places : Set κ) (o : Observer ι κ Λ) : Prop :=
  ∀ l x y, o.alike l x y → ∀ p ∈ places, o.seen l p → f x p = f y p

variable {R : Program ι κ ω} {places : Set κ} {f : ι → κ → ω} {o : Observer ι κ Λ}

/-- **Two runs of a program that computes a function.** -/
theorem Computes.nonInterfering_iff (h : Computes R places f) (htotal : Total R places) :
    NonInterfering R places o ↔ Respects f places o := by
  constructor
  · intro hni l x y hxy p hp hseen
    obtain ⟨v, hv⟩ := htotal x p hp
    obtain ⟨w, hw⟩ := htotal y p hp
    have hvw : v = w := hni l x y hxy p hp hseen v w hv hw
    rw [← h x p hp v hv, ← h y p hp w hw, hvw]
  · intro hf l x y hxy p hp hseen v w hv hw
    rw [h x p hp v hv, h y p hp w hw]
    exact hf l x y hxy p hp hseen

/-! ### What stores leave -/

/-- What the stores `S` of a cell may leave there. -/
def Leaves (S : ω → Prop) (v : ω) : Prop := S v ∨ ∀ w, ¬ S w

theorem exists_leaves [Nonempty ω] (S : ω → Prop) : ∃ v, Leaves S v := by
  by_cases hstored : ∃ v, S v
  · obtain ⟨v, hv⟩ := hstored
    exact ⟨v, Or.inl hv⟩
  · exact ⟨Classical.arbitrary ω, Or.inr (not_exists.mp hstored)⟩

/-- **A cell is sure to hold a value** when it is stored there and no other one is. -/
theorem forall_leaves_iff [Nontrivial ω] {S : ω → Prop} {c : ω} :
    (∀ v, Leaves S v → v = c) ↔ S c ∧ ∀ v, S v → v = c := by
  constructor
  · intro h
    refine ⟨?_, fun v hv => h v (Or.inl hv)⟩
    by_contra hc
    -- without a store the cell may hold any other value
    have hnone : ∀ w, ¬ S w := by
      intro w hw
      exact hc (h w (Or.inl hw) ▸ hw)
    obtain ⟨w, hne⟩ := exists_ne c
    exact hne (h w (Or.inr hnone))
  · rintro ⟨hc, hall⟩ v (hv | hnone)
    · exact hall v hv
    · exact absurd hc (hnone c)

end Interference
