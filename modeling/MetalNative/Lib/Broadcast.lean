import Mathlib.Algebra.Order.BigOperators.Group.List
import Mathlib.Tactic.Linarith

/-!
# Multi-indices and broadcasting

Dimensions are listed from the fastest one on, so that the dimensions a shape lacks are at the end
of the list.

* `offset` — the position of a multi-index in a dense array; `offset_lt` and `exists_offset` say
  that it runs through `[0, product of the dimensions)`.
* `common` — the dimensions that two lists broadcast to.
* `Expands ds es` — `ds` broadcasts to `es`; `Expands.offset_collapse` says that an operand with as
  many elements as the result is read at the position of the result.
-/

namespace Broadcast

/-! ### Multi-indices -/

/-- The multi-index `is` lies within the dimensions. -/
def Within : List ℕ → List ℕ → Prop
  | [], [] => True
  | d :: ds, i :: is => i < d ∧ Within ds is
  | _, _ => False

/-- The position of a multi-index in an array with these dimensions. -/
def offset : List ℕ → List ℕ → ℕ
  | d :: ds, i :: is => i + d * offset ds is
  | _, _ => 0

theorem offset_lt {ds is : List ℕ} (h : Within ds is) : offset ds is < ds.prod := by
  induction ds generalizing is with
  | nil => simp [offset]
  | cons d ds ih =>
    cases is with
    | nil => exact h.elim
    | cons i is =>
      have htail : offset ds is + 1 ≤ ds.prod := ih h.2
      have hmul : d * (offset ds is + 1) ≤ d * ds.prod := Nat.mul_le_mul_left d htail
      have hi : i < d := h.1
      rw [List.prod_cons, offset]
      rw [Nat.mul_add_one] at hmul
      omega

/-- Every position is that of a multi-index. -/
theorem exists_offset (ds : List ℕ) {f : ℕ} (hf : f < ds.prod) :
    ∃ is, Within ds is ∧ offset ds is = f := by
  induction ds generalizing f with
  | nil =>
    have hzero : f = 0 := by simpa using hf
    exact ⟨[], trivial, hzero.symm⟩
  | cons d ds ih =>
    rw [List.prod_cons] at hf
    have hd : 0 < d := Nat.pos_of_ne_zero fun h => by simp [h] at hf
    obtain ⟨is, his, hoff⟩ := ih (Nat.div_lt_of_lt_mul hf)
    refine ⟨f % d :: is, ⟨Nat.mod_lt f hd, his⟩, ?_⟩
    rw [offset, hoff]
    exact Nat.mod_add_div f d

/-! ### Broadcasting -/

section Common

variable {α : Type*} [DecidableEq α] [One α]

/-- The dimension that two dimensions broadcast to. -/
def commonDim (d e : α) : Option α :=
  if d = e then some d else if d = 1 then some e else if e = 1 then some d else none

/-- The dimensions that two lists broadcast to; a missing dimension counts as `1`. -/
def common : List α → List α → Option (List α)
  | [], es => some es
  | ds, [] => some ds
  | d :: ds, e :: es => do
    let c ← commonDim d e
    let cs ← common ds es
    some (c :: cs)

end Common

theorem commonDim_natCast (d e : ℕ) :
    commonDim (d : ℤ) (e : ℤ) = (commonDim d e).map fun c : ℕ => (c : ℤ) := by
  unfold commonDim
  simp only [Nat.cast_inj, Nat.cast_eq_one]
  split_ifs <;> rfl

theorem common_natCast (ds es : List ℕ) :
    common (ds.map Nat.cast : List ℤ) (es.map Nat.cast)
      = (common ds es).map fun cs => cs.map Nat.cast := by
  induction ds generalizing es with
  | nil => simp [common]
  | cons d ds ih =>
    cases es with
    | nil => simp [common]
    | cons e es =>
      simp only [List.map_cons, common, ih, commonDim_natCast]
      cases commonDim d e <;> cases common ds es <;> rfl

/-- The dimensions `ds` broadcast to `es`. -/
inductive Expands : List ℕ → List ℕ → Prop
  | nil (es : List ℕ) : Expands [] es
  | cons {d e : ℕ} {ds es : List ℕ} : (d = 1 ∨ d = e) → Expands ds es → Expands (d :: ds) (e :: es)

namespace Expands

theorem refl (ds : List ℕ) : Expands ds ds := by
  induction ds with
  | nil => exact .nil []
  | cons d ds ih => exact .cons (.inr rfl) ih

theorem trans {ds es fs : List ℕ} (h : Expands ds es) (h' : Expands es fs) : Expands ds fs := by
  induction h generalizing fs with
  | nil es => exact .nil fs
  | cons hd _ ih =>
    cases h' with
    | cons he htail =>
      apply Expands.cons _ (ih htail)
      rcases hd with hone | rfl
      · exact .inl hone
      · exact he

end Expands

theorem commonDim_eq_some {d e c : ℕ} (h : commonDim d e = some c) :
    (d = 1 ∨ d = c) ∧ (e = 1 ∨ e = c) := by
  unfold commonDim at h
  split_ifs at h with heq hd he
  · obtain rfl := Option.some.inj h
    exact ⟨.inr rfl, .inr heq.symm⟩
  · obtain rfl := Option.some.inj h
    exact ⟨.inl hd, .inr rfl⟩
  · obtain rfl := Option.some.inj h
    exact ⟨.inr rfl, .inl he⟩

/-- Both operands expand to what they have in common. -/
theorem expands_of_common {ds es cs : List ℕ} (h : common ds es = some cs) :
    Expands ds cs ∧ Expands es cs := by
  induction ds generalizing es cs with
  | nil =>
    obtain rfl : es = cs := by simpa [common] using h
    exact ⟨.nil _, .refl _⟩
  | cons d ds ih =>
    cases es with
    | nil =>
      obtain rfl : d :: ds = cs := by simpa [common] using h
      exact ⟨.refl _, .nil _⟩
    | cons e es =>
      simp only [common, Option.bind_eq_bind, Option.bind_eq_some_iff] at h
      obtain ⟨c, hc, cs', hcs, hcons⟩ := h
      obtain rfl := Option.some.inj hcons
      obtain ⟨hd, he⟩ := commonDim_eq_some hc
      obtain ⟨hds, hes⟩ := ih hcs
      exact ⟨.cons hd hds, .cons he hes⟩

/-! ### The elements of an operand -/

/-- The multi-index of an operand: a dimension of size `1` has only index `0`. -/
def collapse (ds is : List ℕ) : List ℕ := List.zipWith (fun d i => if d = 1 then 0 else i) ds is

namespace Expands

variable {ds es is : List ℕ}

/-- An operand of a result that is not empty has at most as many elements as the result. -/
theorem prod_le (h : Expands ds es) (hpos : 0 < es.prod) : ds.prod ≤ es.prod := by
  induction h with
  | nil es =>
    rw [List.prod_nil]
    exact hpos
  | @cons d e ds es hd _ ih =>
    rw [List.prod_cons] at hpos
    have he : 0 < e := Nat.pos_of_mul_pos_right hpos
    have hes : 0 < es.prod := Nat.pos_of_mul_pos_left hpos
    have hde : d ≤ e := by omega
    rw [List.prod_cons, List.prod_cons]
    exact Nat.mul_le_mul hde (ih hes)

/-- An operand with as many elements as the result is read at the position of the result. -/
theorem offset_collapse (h : Expands ds es) (hprod : ds.prod = es.prod) (hw : Within es is) :
    offset ds (collapse ds is) = offset es is := by
  have hpos : 0 < es.prod := Nat.lt_of_le_of_lt (Nat.zero_le _) (offset_lt hw)
  induction h generalizing is with
  | nil es =>
    have hlt := offset_lt hw
    simp only [List.prod_nil] at hprod
    simp only [offset]
    omega
  | @cons d e ds es hd htail ih =>
    cases is with
    | nil => exact hw.elim
    | cons i is =>
      rw [List.prod_cons] at hpos
      have he : 0 < e := Nat.pos_of_mul_pos_right hpos
      have hes : 0 < es.prod := Nat.pos_of_mul_pos_left hpos
      have hle : ds.prod ≤ es.prod := htail.prod_le hes
      rw [List.prod_cons, List.prod_cons] at hprod
      -- neither the first dimension nor the rest can be smaller than the result's
      have hde : d = e := by
        rcases hd with rfl | rfl
        · by_contra hne
          have htwo : 2 * es.prod ≤ e * es.prod := Nat.mul_le_mul_right _ (by omega)
          omega
        · rfl
      subst hde
      have hrest : ds.prod = es.prod := Nat.eq_of_mul_eq_mul_left he hprod
      have hoff := ih hrest hw.2 hes
      have hi : (if d = 1 then 0 else i) = i := by
        have := hw.1
        split_ifs <;> omega
      rw [collapse, List.zipWith_cons_cons, offset, offset, ← collapse, hoff, hi]

end Expands

end Broadcast
