import MetalNative.Interop.NumPyFaithful
import MetalNative.Matmul.HostDispatch

namespace MetalNative

open Broadcast (Within)
open Strided (linear position)

/-!
# Places in memory

A kernel accesses a buffer through a pointer to elements of its own type, whatever the type of the
tensor is.

* `Place` — a byte, and the type of what is accessed there.
* `MNTensor.placeOf` — where a tensor has an element; `MNTensor.cellAt` — where a kernel has it.
-/

/-- A byte of a buffer, and the type of what is accessed there. -/
structure Place where
  byte : ℕ
  dtype : MNDType
  deriving DecidableEq, Repr

/-- The accesses have a byte in common. -/
def Place.overlaps (p p' : Place) : Bool :=
  p.byte < p'.byte + dtypeSize p'.dtype ∧ p'.byte < p.byte + dtypeSize p.dtype

theorem Place.overlaps_self (p : Place) : p.overlaps p = true := by
  have hpos := dtypeSize_pos p.dtype
  unfold overlaps
  simpa using hpos

namespace MNTensor

variable (t : MNTensor Unit)

/-- Where an element lies, counted in elements from the offset of the tensor on. -/
def cellOf (idx : List ℕ) : ℕ := linear (t.strides.map toSizeT) idx

/-- An element. -/
def placeOf (idx : List ℕ) : Place := ⟨dtypeSize t.dtype * (t.offset + t.cellOf idx), t.dtype⟩

/-- Cell `i` behind the pointer that a kernel of type `τ` is given. -/
def cellAt (τ : MNDType) (i : ℕ) : Place := ⟨dtypeSize t.dtype * t.offset + dtypeSize τ * i, τ⟩

/-- A place is an element of a tensor of four dimensions. -/
def IsElement (p : Place) : Prop :=
  ∃ b < t.dim 0, ∃ h < t.dim 1, ∃ s < t.dim 2, ∃ d < t.dim 3, p = t.placeOf [b, h, s, d]

variable {t} {τ : MNDType} {i j : ℕ} {idx : List ℕ}

theorem cellOf_of_isContiguous (h : t.isContiguous = true) (hidx : Within t.dims idx) :
    t.cellOf idx = position t.dims idx :=
  MNShape.linear_of_isContiguous h t.numel_lt hidx

/-- A cell is an element where the kernel has the type of the tensor. -/
theorem cellAt_eq_placeOf : t.cellAt τ i = t.placeOf idx ↔ τ = t.dtype ∧ i = t.cellOf idx := by
  have hpos := dtypeSize_pos t.dtype
  unfold cellAt placeOf
  rw [Place.mk.injEq, Nat.mul_add]
  constructor
  · rintro ⟨hbyte, rfl⟩
    exact ⟨rfl, Nat.eq_of_mul_eq_mul_left hpos (Nat.add_left_cancel hbyte)⟩
  · rintro ⟨rfl, rfl⟩
    exact ⟨rfl, rfl⟩

/-- And then it touches no other one. -/
theorem cellAt_overlaps (hτ : τ = t.dtype) :
    (t.cellAt τ i).overlaps (t.placeOf idx) = true ↔ i = t.cellOf idx := by
  subst hτ
  have hpos := dtypeSize_pos t.dtype
  unfold Place.overlaps cellAt placeOf
  simp only [decide_eq_true_eq, Nat.mul_add]
  constructor
  · rintro ⟨hlow, hhigh⟩
    have hleft : dtypeSize t.dtype * i < dtypeSize t.dtype * (t.cellOf idx + 1) := by
      rw [Nat.mul_succ]
      omega
    have hright : dtypeSize t.dtype * t.cellOf idx < dtypeSize t.dtype * (i + 1) := by
      rw [Nat.mul_succ]
      omega
    have hlt := Nat.lt_of_mul_lt_mul_left hleft
    have hgt := Nat.lt_of_mul_lt_mul_left hright
    omega
  · rintro rfl
    omega

end MNTensor

end MetalNative
