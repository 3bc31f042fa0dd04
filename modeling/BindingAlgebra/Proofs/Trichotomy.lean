import BindingAlgebra.Proofs.Complement
import BindingAlgebra.Proofs.Rounding
import Mathlib.Algebra.Group.Int.Defs
import Mathlib.Data.Int.Order.Basic

namespace BindingAlgebra

open Binary64

namespace ComparisonOperator

-- What an operator says of two integers.
def holds (op : ComparisonOperator) (a b : Int) : Bool :=
  match op with
  | equal          => a = b
  | notEqual       => a ≠ b
  | lessThan       => a < b
  | lessOrEqual    => a ≤ b
  | greaterThan    => a > b
  | greaterOrEqual => a ≥ b

-- Integers are equal as they are, but ordered as they are rounded.
theorem evaluate_integer (op : ComparisonOperator) (a b : Int) :
    op.evaluate (.integer a) (.integer b) =
      if op.isOrder then op.holds (integerRank a) (integerRank b) else op.holds a b := by
  have ho : (Value.integer a : Value Expr).order? (.integer b) =
      some (compare (integerRank a) (integerRank b)) := order?_ofInt a b
  have he : (Value.integer a : Value Expr).strictEquals (.integer b) = decide (a = b) := rfl
  generalize integerRank a = r at *
  generalize integerRank b = s at *
  cases op
  case equal    => exact he
  case notEqual => simp [evaluate, isOrder, holds, he]
  all_goals
    rcases lt_trichotomy r s with h | rfl | h
    case inl => simp [evaluate, isOrder, holds, ho, compare_lt_iff_lt.mpr h, h, h.le, h.not_gt]
    case inr.inl => simp [evaluate, isOrder, holds, ho]
    case inr.inr =>
      simp [evaluate, isOrder, holds, ho, compare_gt_iff_gt.mpr h, h, h.le, h.not_gt, h.not_ge]

end ComparisonOperator

namespace Value

open ComparisonOperator

-- Exactly one of `<`, `===` and `>` holds of two values, and `<=` and `>=` hold just if one of the
-- two does that they are named for.
structure Trichotomous (v w : Value Expr) : Prop where
  single  : (lessThan.evaluate v w).toNat + (equal.evaluate v w).toNat +
    (greaterThan.evaluate v w).toNat = 1
  atMost  : lessOrEqual.evaluate v w = (lessThan.evaluate v w || equal.evaluate v w)
  atLeast : greaterOrEqual.evaluate v w = (greaterThan.evaluate v w || equal.evaluate v w)

variable {a b : Int}

theorem trichotomous_integer_iff :
    Trichotomous (integer a) (integer b) ↔ (integerRank a = integerRank b → a = b) := by
  have up   : a ≤ b → _ := integerRank_mono
  have down : b ≤ a → _ := integerRank_mono
  constructor
  case mp =>
    intro ⟨hs, _, _⟩ hr
    by_contra hn
    simp [evaluate_integer, isOrder, holds, hr, hn] at hs
  case mpr =>
    intro h
    rcases lt_trichotomy a b with hab | rfl | hab
    case inl =>
      have hr : integerRank a < integerRank b := by omega
      constructor <;> simp [evaluate_integer, isOrder, holds, hr, hr.le, hr.not_gt, hab.ne]
    case inr.inl =>
      constructor <;> simp [evaluate_integer, isOrder, holds]
    case inr.inr =>
      have hr : integerRank b < integerRank a := by omega
      constructor <;> simp [evaluate_integer, isOrder, holds, hr, hr.le, hr.not_gt, hab.ne']

theorem evaluate_integer_eq_holds (h : integerRank a = integerRank b → a = b)
    (op : ComparisonOperator) : op.evaluate (integer a) (integer b) = op.holds a b := by
  have up   : a ≤ b → _ := integerRank_mono
  have down : b ≤ a → _ := integerRank_mono
  rw [evaluate_integer]
  split
  case isFalse => rfl
  case isTrue ho =>
    cases op <;> simp only [isOrder, Bool.false_eq_true] at ho
    all_goals
      simp only [holds, decide_eq_decide]
      omega

-- Integers are ordered consistently, and then as they are in themselves, unless they differ and are
-- rounded to one number. Those that need no rounding always are.
theorem trichotomous_integers_iff (a b : Int) :
    (Trichotomous (integer a) (integer b) ↔ (a = b ∨ ofInt a ≠ ofInt b)) ∧
      (Trichotomous (integer a) (integer b) ↔
        ∀ op : ComparisonOperator, op.evaluate (integer a) (integer b) = op.holds a b) ∧
      (a.natAbs ≤ 2 ^ 53 → b.natAbs ≤ 2 ^ 53 → Trichotomous (integer a) (integer b)) := by
  rw [trichotomous_integer_iff, Ne, ← integerRank_inj]
  refine ⟨by tauto, ⟨?mp, ?mpr⟩, ?exact⟩
  case mp  => exact evaluate_integer_eq_holds
  case mpr =>
    intro h hr
    have hl := h .lessThan
    have hg := h .greaterThan
    simp only [evaluate_integer, isOrder, if_true, holds, decide_eq_decide] at hl hg
    omega
  case exact =>
    intro ha hb hr
    have up   : a < b → _ := integerRank_lt ha hb
    have down : b < a → _ := integerRank_lt hb ha
    omega

theorem trichotomous_integers_iff_large :
    let a : Int := -2 ^ 53
    let b : Int := 2 ^ 53 - 1
    a.natAbs ≤ 2 ^ 53 ∧ b.natAbs ≤ 2 ^ 53 ∧ Trichotomous (integer a) (integer b) := by
  intro a b
  have ha : a.natAbs ≤ 2 ^ 53 := by decide
  have hb : b.natAbs ≤ 2 ^ 53 := by decide
  have ⟨_, _, exact⟩ := trichotomous_integers_iff a b
  exact ⟨ha, hb, exact ha hb⟩

-- Two integers of 64 bits that differ, and of which neither is less than the other.
theorem not_trichotomous_neighbours :
    let a : Int := 2 ^ 53
    let b : Int := a + 1
    (-2 ^ 63 ≤ a ∧ b < 2 ^ 63) ∧ ¬Trichotomous (integer a) (integer b) := by
  intro a b
  refine ⟨by decide, fun h => ?_⟩
  have hs : (lessThan.evaluate (integer a) (integer b)).toNat +
      (equal.evaluate (integer a) (integer b)).toNat +
      (greaterThan.evaluate (integer a) (integer b)).toNat = 0 := by decide +kernel
  exact absurd (hs.symm.trans h.single) (by decide)

end Value
end BindingAlgebra
