import Mathlib.Algebra.BigOperators.Group.List.Basic
import Mathlib.Algebra.GroupWithZero.Nat
import Mathlib.Data.List.Perm.Basic

/-!
# Weighted quorums

Members of a list carry weights.  A quorum is a choice of members that weighs more than
two thirds of the whole; two quorums share more than one third.
-/

namespace Quorum

variable {α : Type*} (weight : α → Nat)

/-- The weight of the members that satisfy `p`. -/
def weightOf (p : α → Bool) (members : List α) : Nat :=
  ((members.filter p).map weight).sum

def total (members : List α) : Nat := (members.map weight).sum

@[simp] theorem weightOf_nil (p : α → Bool) : weightOf weight p [] = 0 := rfl

theorem weightOf_cons (p : α → Bool) (a : α) (members : List α) :
    weightOf weight p (a :: members) = (if p a then weight a else 0)
      + weightOf weight p members := by
  by_cases h : p a <;> simp [weightOf, h]

theorem weightOf_add_le (p q : α → Bool) (members : List α) :
    weightOf weight p members + weightOf weight q members
      ≤ total weight members + weightOf weight (fun a => p a && q a) members := by
  induction members with
  | nil => simp
  | cons a members ih =>
    simp only [weightOf_cons, total, List.map_cons, List.sum_cons] at ih ⊢
    cases p a <;> cases q a <;> simp <;> omega

/-- **Quorum intersection.**  Two quorums share more than one third of the weight. -/
theorem total_lt_weightOf_inter {p q : α → Bool} {members : List α}
    (hp : 2 * total weight members < 3 * weightOf weight p members)
    (hq : 2 * total weight members < 3 * weightOf weight q members) :
    total weight members < 3 * weightOf weight (fun a => p a && q a) members := by
  have h := weightOf_add_le weight p q members
  omega

theorem sum_eq_weightOf {p : α → Bool} {members chosen : List α} (hmembers : members.Nodup)
    (hchosen : chosen.Nodup) (h : ∀ a, a ∈ chosen ↔ a ∈ members ∧ p a = true) :
    (chosen.map weight).sum = weightOf weight p members := by
  have hperm : chosen.Perm (members.filter p) :=
    (List.perm_ext_iff_of_nodup hchosen (hmembers.filter p)).mpr fun a => by
      rw [h a, List.mem_filter]
  exact (hperm.map weight).sum_eq

end Quorum
