import MetalNative.Memory.AllocatorAccounting

namespace MetalNative

/-!
# The arithmetic of the size classes

`next_size_class` doubles a `size_t` until it is not less than the request, `bucket_key` shifts the
class to make room for the mode, and the heap manager rounds the class up to pages.

* `IsSizeClass` — the powers of two from 64 on, and what lies half way between two of them.
* `growPow2_ends`, `nextSizeClass_isLeast` — the loop, and the class that is returned.
* `SizeSound` — what is asked of a request and its class.
* `size_classes_sound_iff` — the requests for which it holds.
-/

namespace MetalSmartAllocator

/-- The sizes `64 * 2 ^ k` and `1.5 * 64 * 2 ^ k`. -/
def IsSizeClass (c : ℕ) : Prop := ∃ k, c = 64 * 2 ^ k ∨ c = 96 * 2 ^ k

/-- A size is rounded up to pages, and the sum on the way is no more than a `size_t`. -/
structure PageRounds (size : ℕ) : Prop where
  exact : size + (kGPUPageSize - 1) < sizeTRange
  page : kGPUPageSize ∣ alignToPage size
  le : size ≤ alignToPage size

variable {s sc : ℕ}

/-- What is asked of a request `s` and its class `sc`. -/
structure SizeSound (s sc : ℕ) : Prop where
  least : IsLeast {c | IsSizeClass c ∧ s ≤ c} sc
  monotone : ∀ s' ≤ s, ∃ sc' ≤ sc, nextSizeClass s' = some sc'
  idempotent : nextSizeClass sc = some sc
  /-- The shift of the class loses no bit. -/
  key : ∀ mode, bucketKey sc mode = 2 * sc + if mode = .Private then 1 else 0
  keyInj : ∀ s' sc' mode mode', nextSizeClass s' = some sc' →
    bucketKey sc mode = bucketKey sc' mode' → sc = sc' ∧ mode = mode'
  request : PageRounds s
  rounded : PageRounds sc
  heap : PageRounds (max kLargeHeapSize (alignToPage sc)) ∧
    kGPUPageSize ∣ heapSizeForAlloc (alignToPage sc) ∧ s ≤ heapSizeForAlloc (alignToPage sc)

/-! ### The least class -/

/-- The loop ends at the first power of two that is not less than the request. -/
theorem growPow2_ends (hs : s ≤ 2 ^ 63) : ∀ {rounds j : ℕ}, 57 < rounds + j → j ≤ 57 →
    32 * 2 ^ j < s → ∃ i, growPow2 s rounds (64 * 2 ^ j) = some (64 * 2 ^ i) ∧ i ≤ 57 ∧
      32 * 2 ^ i < s ∧ s ≤ 64 * 2 ^ i
  | 0, j, hrounds, hj, _ => by omega
  | rounds + 1, j, hrounds, hj, hlow => by
    unfold growPow2
    split_ifs with hlt
    · have hj' : j < 57 := by
        by_contra hge
        obtain rfl : j = 57 := by omega
        omega
      have hpow : 2 ^ j ≤ 2 ^ 56 := Nat.pow_le_pow_right (by decide) (by omega)
      have hshift : (64 * 2 ^ j) <<< 1 % sizeTRange = 64 * 2 ^ (j + 1) := by
        unfold sizeTRange
        rw [Nat.shiftLeft_eq, pow_succ]
        omega
      rw [hshift]
      exact growPow2_ends hs (by omega) (by omega) (by rw [pow_succ]; omega)
    · exact ⟨j, rfl, hj, hlow, not_lt.mp hlt⟩

/-- No class lies between half a power and the next intermediate, nor between that and the power. -/
theorem IsSizeClass.cases_of_lt {c j : ℕ} (hc : IsSizeClass c) (h : 64 * 2 ^ j < c) :
    c = 96 * 2 ^ j ∨ 128 * 2 ^ j ≤ c := by
  obtain ⟨k, rfl | rfl⟩ := hc
  · have hjk : j < k := by
      by_contra hle
      have := Nat.pow_le_pow_right (n := 2) (by decide) (not_lt.mp hle)
      omega
    have hpow : 2 ^ (j + 1) ≤ 2 ^ k := Nat.pow_le_pow_right (by decide) hjk
    rw [pow_succ] at hpow
    omega
  · rcases lt_trichotomy j k with hjk | rfl | hjk
    · have hpow : 2 ^ (j + 1) ≤ 2 ^ k := Nat.pow_le_pow_right (by decide) hjk
      rw [pow_succ] at hpow
      omega
    · exact .inl rfl
    · have hpow : 2 ^ (k + 1) ≤ 2 ^ j := Nat.pow_le_pow_right (by decide) hjk
      rw [pow_succ] at hpow
      omega

/-- A request up to `2 ^ 63` gets the least class that is not less. -/
theorem nextSizeClass_isLeast (hs : s ≤ 2 ^ 63) :
    ∃ sc, nextSizeClass s = some sc ∧ IsLeast {c | IsSizeClass c ∧ s ≤ c} sc := by
  unfold nextSizeClass
  split_ifs with hmin
  · refine ⟨64, rfl, ⟨⟨0, .inl rfl⟩, hmin⟩, ?_⟩
    rintro c ⟨⟨k, rfl | rfl⟩, -⟩
    all_goals
      have hpow := Nat.two_pow_pos k
      omega
  · have hmin' : 64 < s := not_le.mp hmin
    obtain ⟨i, hgrow, -, hlow, hhigh⟩ :=
      growPow2_ends hs (show 57 < 64 + 0 by decide) (Nat.zero_le 57) (by omega)
    obtain ⟨j, rfl⟩ : ∃ j, i = j + 1 := Nat.exists_eq_succ_of_ne_zero (by rintro rfl; omega)
    have hhalf : (64 * 2 ^ (j + 1)) >>> 1 = 64 * 2 ^ j := by
      rw [Nat.shiftRight_eq_div_pow, pow_succ]
      omega
    have hmid : 64 * 2 ^ j + (64 * 2 ^ j) >>> 1 = 96 * 2 ^ j := by
      rw [Nat.shiftRight_eq_div_pow]
      omega
    have hgrow' : growPow2 s 64 kMinAllocSize = some (64 * 2 ^ (j + 1)) := hgrow
    rw [hgrow', Option.map_some]
    simp only [hhalf, hmid]
    rw [pow_succ] at hlow hhigh ⊢
    refine ⟨_, rfl, ?_⟩
    split_ifs with hle
    · refine ⟨⟨⟨j, .inr rfl⟩, hle.1⟩, ?_⟩
      rintro c ⟨hc, hsc⟩
      have := hc.cases_of_lt (j := j) (by omega)
      omega
    · refine ⟨⟨⟨j + 1, .inl (by rw [pow_succ])⟩, hhigh⟩, ?_⟩
      rintro c ⟨hc, hsc⟩
      have := hc.cases_of_lt (j := j) (by omega)
      have hpow := Nat.two_pow_pos j
      omega

/-! ### The requests that are served soundly -/

theorem pageRounds_of_le {size : ℕ} (h : size ≤ 2 ^ 63) : PageRounds size := by
  obtain ⟨hle, -, hd⟩ := alignToPage_spec h
  refine ⟨?_, hd, hle⟩
  unfold kGPUPageSize sizeTRange
  omega

/-- **Size classes.** A request is given the least size class that is not less, by computations that
    do not wrap, exactly when it is at most `1.5 * 2 ^ 62`: the next class is shifted out of its
    key, and beyond `2 ^ 63` the loop never ends. -/
theorem size_classes_sound_iff (s : ℕ) :
    (∃ sc, nextSizeClass s = some sc ∧ SizeSound s sc) ↔ s ≤ 3 * 2 ^ 61 := by
  constructor
  · rintro ⟨sc, hsc, hsound⟩
    obtain ⟨hle, -, hmax⟩ := nextSizeClass_spec hsc
    have hkey := hsound.key .Shared
    rw [bucketKey_eq] at hkey
    have hlt : sc < 2 ^ 63 := by
      simp only [reduceCtorEq, if_false] at hkey
      omega
    by_contra hlong
    have hclass := hsound.least.1.1.cases_of_lt (j := 56) (by omega)
    omega
  · intro hs
    obtain ⟨sc, hsc, hleast⟩ := nextSizeClass_isLeast (s := s) (by omega)
    obtain ⟨hle, hpos, -⟩ := nextSizeClass_spec hsc
    have hmax : sc ≤ 3 * 2 ^ 61 := hleast.2 ⟨⟨56, .inr (by decide)⟩, hs⟩
    have hround : sc ≤ 2 ^ 63 := by omega
    obtain ⟨hal, halmax, hd⟩ := alignToPage_spec hround
    obtain ⟨hheap, -, -, hpage⟩ := heapSizeForAlloc_spec halmax hd
    refine ⟨sc, hsc, hleast, ?_, ?_, ?_, ?_, pageRounds_of_le (by omega),
      pageRounds_of_le (by omega), ?_, hpage, (hle.trans hal).trans hheap⟩
    · intro s' hs'
      obtain ⟨sc', hsc', hleast'⟩ := nextSizeClass_isLeast (s := s') (by omega)
      exact ⟨sc', hleast'.2 ⟨hleast.1.1, hs'.trans hle⟩, hsc'⟩
    · obtain ⟨sc', hsc', hleast'⟩ := nextSizeClass_isLeast (s := sc) (by omega)
      have heq : sc' = sc := le_antisymm (hleast'.2 ⟨hleast.1.1, le_refl sc⟩) hleast'.1.2
      rw [hsc', heq]
    · intro mode
      rw [bucketKey_eq, Nat.mod_eq_of_lt (by omega)]
    · intro s' sc' mode mode' hsc' hkey
      exact bucketKey_inj (isClass_nextSizeClass hsc) (isClass_nextSizeClass hsc') hkey
    · refine pageRounds_of_le ?_
      unfold kLargeHeapSize
      omega

/-- For one byte more than `2 ^ 63` the loop never ends; the key of the class `2 ^ 63` is zero. -/
theorem size_class_never_found :
    2 ^ 63 + 1 < sizeTRange ∧ nextSizeClass (2 ^ 63 + 1) = none ∧
      bucketKey (2 ^ 63) .Shared = 0 := by
  decide

end MetalSmartAllocator

end MetalNative
