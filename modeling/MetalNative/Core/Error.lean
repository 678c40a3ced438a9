import Mathlib.Data.UInt
import Mathlib.Data.Rat.Defs

namespace MetalNative

/-!
# Errors, storage modes and call outcomes

The vocabulary every component shares: the typed error enum, the exception that `MN_CHECK` and
`MN_THROW` raise, and the outcome of a call.  A C++ call that throws does not roll its object
back, so an outcome always carries the state the call leaves behind.
-/

/-- `MetalNativeError`: the error codes of the library. -/
inductive MetalNativeError where
  | Success
  | DeviceNotFound
  | AllocationFailed
  | KernelCompilationFailed
  | InvalidArgument
  | OutOfMemory
  | TimeoutError
  | InternalError
  | NotImplemented
  deriving DecidableEq, Repr

/-- `MNException`: an error code and a message. -/
structure MNException where
  code : MetalNativeError
  message : String
  deriving DecidableEq, Repr

/-- `MN_CHECK` with `InvalidArgument`. -/
def mnCheck (condition : Prop) [Decidable condition] (message : String) : Except MNException Unit :=
  if condition then .ok () else .error ⟨.InvalidArgument, message⟩

theorem mnCheck_eq_ok {condition : Prop} [Decidable condition] {message : String} {u : Unit} :
    mnCheck condition message = .ok u ↔ condition := by
  unfold mnCheck
  split_ifs with h
  · exact iff_of_true rfl h
  · exact iff_of_false (fun hx => by cases hx) h

theorem mnCheck_bind_eq_ok {α : Type} {condition : Prop} [Decidable condition] {message : String}
    {next : Unit → Except MNException α} {x : α} :
    (mnCheck condition message >>= next) = .ok x ↔ condition ∧ next () = .ok x := by
  unfold mnCheck
  by_cases h : condition
  · rw [if_pos h]
    exact ⟨fun hx => ⟨h, hx⟩, fun hx => hx.2⟩
  · rw [if_neg h]
    constructor
    · intro hx
      cases hx
    · intro hx
      exact absurd hx.1 h

/-- What a call that returns both a value and a state has returned. -/
theorem some_mk_inj {α β : Type*} {a a' : α} {b b' : β} (h : some (a, b) = some (a', b')) :
    a = a' ∧ b = b' := Prod.mk.inj (Option.some.inj h)

theorem bind_eq_ok {α β : Type} {first : Except MNException α} {next : α → Except MNException β}
    {y : β} : (first >>= next) = .ok y ↔ ∃ x, first = .ok x ∧ next x = .ok y := by
  cases first with
  | error e =>
    constructor
    · intro h
      cases h
    · rintro ⟨x, hx, -⟩
      cases hx
  | ok x =>
    constructor
    · intro h
      exact ⟨x, rfl, h⟩
    · rintro ⟨x', hx, h⟩
      obtain rfl := Except.ok.inj hx
      exact h

/-- What a call returns or throws, together with the state it leaves. -/
abbrev Outcome (σ α : Type*) := Except MNException α × σ

/-- `StorageMode` of a GPU buffer. -/
inductive StorageMode where
  | Shared
  | Private
  deriving DecidableEq, Repr

/-- The number of values of a `size_t`. -/
def sizeTRange : ℕ := 2 ^ 64

/-- `SIZE_MAX`. -/
def SIZE_MAX : ℕ := sizeTRange - 1

/-- The number of values of a `uint`. -/
def uintRange : ℕ := 2 ^ 32

/-- `UINT32_MAX`. -/
def UINT32_MAX : ℕ := uintRange - 1

/-- The value of a number as a `uint`. -/
def toUInt (n : ℕ) : ℕ := n % uintRange

theorem toUInt_of_lt {n : ℕ} (h : n < uintRange) : toUInt n = n := Nat.mod_eq_of_lt h

theorem toUInt_lt (n : ℕ) : toUInt n < uintRange := Nat.mod_lt n (by decide)

/-- The value of an `int` as a `uint`. -/
def uintOfInt (n : ℤ) : ℕ := (n % uintRange).toNat

theorem uintOfInt_natCast {n : ℕ} (h : n < uintRange) : uintOfInt n = n := by
  unfold uintOfInt
  rw [← Int.natCast_mod, Int.toNat_natCast, Nat.mod_eq_of_lt h]

/-- The value of a `uint` as an `int32_t`. -/
def int32OfUInt (n : ℕ) : ℤ := (n : ℤ).bmod uintRange

theorem int32OfUInt_of_lt {n : ℕ} (h : n < 2 ^ 31) : int32OfUInt n = n := by
  unfold int32OfUInt uintRange
  apply Int.bmod_eq_of_le <;> omega

theorem int32OfUInt_neg {n : ℕ} (hle : 2 ^ 31 ≤ n) (h : n < uintRange) : int32OfUInt n < 0 := by
  unfold int32OfUInt
  unfold uintRange at h ⊢
  rw [Int.bmod_def]
  omega

/-- The identity of a Metal object (an `id<...>` pointer). -/
abbrev ObjId := ℕ

end MetalNative
