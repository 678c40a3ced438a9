import Mathlib.Data.Option.Basic

namespace TwoLevel

/-!
# A fast store over a slow one

A fast partial map is read first and a slow one when the fast one has nothing.  Either may forget
what it has at any time; what they are to agree with is a third map, the latest value of each key.

* `Current` — nothing that a read can return is out of date.  A slow value may be, as long as the
  fast store has the key: nobody sees it.
* `Current.put` — a new value goes to the fast store only.
* `current_restrict_iff` — the fast store may forget exactly the keys for which the slow store has
  nothing or the same.
* `current_store_iff` — the slow store may be given exactly what is the latest value, or what nobody
  sees.
-/

variable {κ ν : Type*} {fast fast' slow slow' latest : κ → Option ν} {k : κ} {v : ν}

/-- What a read returns. -/
def read (fast slow : κ → Option ν) (k : κ) : Option ν := (fast k).or (slow k)

/-- Whatever a read returns is the latest value. -/
structure Current (fast slow latest : κ → Option ν) : Prop where
  ahead : ∀ k v, fast k = some v → latest k = some v
  behind : ∀ k v, fast k = none → slow k = some v → latest k = some v

/-- **Reading.** -/
theorem Current.read (h : Current fast slow latest) (hread : read fast slow k = some v) :
    latest k = some v := by
  unfold TwoLevel.read at hread
  cases hfast : fast k with
  | some w =>
    rw [hfast, Option.some_or] at hread
    exact hread ▸ h.ahead k w hfast
  | none =>
    rw [hfast, Option.none_or] at hread
    exact h.behind k v hfast hread

/-- The slow store may lose values. -/
theorem Current.lose (h : Current fast slow latest)
    (hslow : ∀ k v, slow' k = some v → slow k = some v) : Current fast slow' latest :=
  ⟨h.ahead, fun k v hv hw => h.behind k v hv (hslow k v hw)⟩

section Update

variable [DecidableEq κ]

/-- A value put in front of the others. -/
theorem Current.put (h : Current fast slow latest) (k : κ) (v : ν) :
    Current (Function.update fast k (some v)) slow (Function.update latest k (some v)) := by
  constructor
  · intro j w hw
    by_cases hj : j = k
    · subst hj
      simpa using hw
    · rw [Function.update_of_ne hj] at hw ⊢
      exact h.ahead j w hw
  · intro j w hw hslow
    by_cases hj : j = k
    · subst hj
      simp at hw
    · rw [Function.update_of_ne hj] at hw ⊢
      exact h.behind j w hw hslow

/-- A value that is in the slow store comes to the fast one. -/
theorem Current.promote (h : Current fast slow latest) (hk : TwoLevel.read fast slow k = some v) :
    Current (Function.update fast k (some v)) slow latest := by
  constructor
  · intro j w hw
    by_cases hj : j = k
    · subst hj
      simp only [Function.update_self, Option.some.injEq] at hw
      exact hw ▸ h.read hk
    · rw [Function.update_of_ne hj] at hw
      exact h.ahead j w hw
  · intro j w hw hslow
    by_cases hj : j = k
    · subst hj
      simp at hw
    · rw [Function.update_of_ne hj] at hw
      exact h.behind j w hw hslow

/-- **Writing back.**  What the slow store is given has to be the latest value, unless the fast
    store hides it. -/
theorem current_store_iff (h : Current fast slow latest) :
    Current fast (Function.update slow k (some v)) latest ↔ fast k ≠ none ∨ latest k = some v := by
  constructor
  · intro h'
    by_cases hk : fast k = none
    · exact .inr (h'.behind k v hk (by simp))
    · exact .inl hk
  · intro hkv
    refine ⟨h.ahead, fun j w hw hslow => ?_⟩
    by_cases hj : j = k
    · subst hj
      simp only [Function.update_self, Option.some.injEq] at hslow
      exact hslow ▸ hkv.resolve_left fun hne => hne hw
    · rw [Function.update_of_ne hj] at hslow
      exact h.behind j w hw hslow

end Update

/-- **Forgetting.**  The fast store may forget a key exactly when the slow store has nothing for it,
    or the same. -/
theorem current_restrict_iff (h : Current fast slow latest)
    (hsub : ∀ k v, fast' k = some v → fast k = some v) :
    Current fast' slow latest ↔
      ∀ k v w, fast k = some v → fast' k = none → slow k = some w → w = v := by
  constructor
  · intro h' k v w hv hgone hslow
    have hlatest := h'.behind k w hgone hslow
    rw [h.ahead k v hv] at hlatest
    exact (Option.some.inj hlatest).symm
  · intro hsame
    refine ⟨fun k v hv => h.ahead k v (hsub k v hv), fun k v hgone hslow => ?_⟩
    cases hk : fast k with
    | none => exact h.behind k v hk hslow
    | some w =>
      rw [hsame k w v hk hgone hslow]
      exact h.ahead k w hk

end TwoLevel
