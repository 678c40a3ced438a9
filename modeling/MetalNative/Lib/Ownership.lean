import MetalNative.Lib.Keyed

namespace Ownership

/-!
# What the entries of a keyed map own

A map of slots whose contents own resources.  `holdings` lists all of them, a resource once for each
slot that owns it; each lemma says what an operation on the slots does to that list, up to order.

* `holdings_fresh`, `holdings_erase` — a slot comes or goes with what it owns.
* `holdings_swap` — other contents for a slot.
* `holdings_transfer` — contents go from one slot to another, and what was there is not owned by any
  slot any more.
-/

open List

variable {κ V R : Type*} [DecidableEq κ] (held : V → List R) {l : List (κ × V)} {k src dst : κ}
  {old v empty : V}

/-- All resources that are owned. -/
def holdings (l : List (κ × V)) : List R := l.flatMap fun e => held e.2

omit [DecidableEq κ] in
@[simp] theorem holdings_nil : holdings held ([] : List (κ × V)) = [] := rfl

omit [DecidableEq κ] in
@[simp] theorem holdings_cons (e : κ × V) : holdings held (e :: l) = held e.2 ++ holdings held l :=
  List.flatMap_cons

/-- A slot goes. -/
theorem holdings_erase (hl : Keyed.Distinct Prod.fst l)
    (hfind : Keyed.find Prod.fst l k = some (k, old)) :
    holdings held l ~ held old ++ holdings held (Keyed.erase Prod.fst l k) := by
  have hperm := (hl.perm_cons_erase hfind).flatMap_right fun e => held e.2
  rwa [List.flatMap_cons] at hperm

/-- A new slot. -/
theorem holdings_fresh (hnone : Keyed.find Prod.fst l k = none) :
    holdings held (Keyed.insert Prod.fst l (k, v)) = held v ++ holdings held l := by
  rw [Keyed.insert, holdings_cons, Keyed.erase_eq_self hnone]

/-- Other contents for a slot. -/
theorem holdings_swap (hl : Keyed.Distinct Prod.fst l)
    (hfind : Keyed.find Prod.fst l k = some (k, old)) :
    held v ++ holdings held l ~ held old ++ holdings held (Keyed.insert Prod.fst l (k, v)) := by
  rw [Keyed.insert, holdings_cons]
  show held v ++ holdings held l ~ held old ++ (held v ++ holdings held (Keyed.erase Prod.fst l k))
  calc held v ++ holdings held l
      ~ held v ++ (held old ++ holdings held (Keyed.erase Prod.fst l k)) :=
        (holdings_erase held hl hfind).append_left _
    _ ~ held old ++ (held v ++ holdings held (Keyed.erase Prod.fst l k)) :=
        List.perm_append_comm_assoc ..

/-- The contents of a slot go to another one.  What was there goes out of reach. -/
theorem holdings_transfer (hl : Keyed.Distinct Prod.fst l) (hempty : held empty = [])
    (hsrc : Keyed.find Prod.fst l src = some (src, v))
    (hdst : Keyed.find Prod.fst (Keyed.insert Prod.fst l (src, empty)) dst = some (dst, old)) :
    holdings held l ~ held old
      ++ holdings held (Keyed.insert Prod.fst (Keyed.insert Prod.fst l (src, empty)) (dst, v)) := by
  have hout : holdings held l ~ held v ++ holdings held (Keyed.insert Prod.fst l (src, empty)) := by
    have hswap := holdings_swap held (v := empty) hl hsrc
    rwa [hempty, List.nil_append] at hswap
  exact hout.trans (holdings_swap held (hl.insert _) hdst)

end Ownership
