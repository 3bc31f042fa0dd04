import BindingAlgebra.Expr.Equality
import BindingAlgebra.Proofs.Operands

namespace BindingAlgebra

theorem Binary64.isSome_order?_iff {x y : Binary64} :
    (x.order? y).isSome ↔ ¬x.isNaN ∧ ¬y.isNaN := by
  cases hx : x.isNaN <;> cases hy : y.isNaN <;> simp [order?, rank?, hx, hy]

-- Strings have an order among themselves, and all other values have one as far as they are numbers.
theorem Value.isSome_order?_iff {v w : Value Expr} :
    (v.order? w).isSome ↔
      (∃ s t, v = string s ∧ w = string t) ∨ ¬v.toNumber.isNaN ∧ ¬w.toNumber.isNaN := by
  unfold order?
  split
  case h_1 s t => simp
  case h_2 h =>
    have hs : ¬∃ s t, v = string s ∧ w = string t := fun ⟨s, t, hv, hw⟩ => h s t hv hw
    rw [Binary64.isSome_order?_iff, or_iff_right hs]

namespace ComparisonOperator

-- Operators that ask for the order of two values, and not only whether these are equal.
def isOrder : ComparisonOperator → Bool
  | equal | notEqual => false
  | _                => true

-- Whether two values are such that an operator can tell something about them.
def Decides (op : ComparisonOperator) (v w : Value Expr) : Prop :=
  op.isOrder → (v.order? w).isSome

variable {op : ComparisonOperator} {v w : Value Expr}

theorem decides_iff : op.Decides v w ↔ (op.isOrder →
    (∃ s t, v = .string s ∧ w = .string t) ∨ ¬v.toNumber.isNaN ∧ ¬w.toNumber.isNaN) := by
  rw [Decides, Value.isSome_order?_iff]

theorem decides_negate_iff : op.negate.Decides v w ↔ op.Decides v w := by
  cases op <;> rfl

theorem evaluate_of_not_decides (h : ¬op.Decides v w) : op.evaluate v w = false := by
  simp only [Decides, Bool.not_eq_true, Option.isSome_eq_false_iff, Option.isNone_iff_eq_none,
    Classical.not_imp] at h
  obtain ⟨ho, hn⟩ := h
  cases op <;> simp_all [isOrder, evaluate]

theorem evaluate_negate_of_decides (h : op.Decides v w) :
    op.negate.evaluate v w = !op.evaluate v w := by
  by_cases ho : op.isOrder
  case neg => cases op <;> simp_all [isOrder, negate, evaluate]
  case pos =>
    obtain ⟨o, hvw⟩ := Option.isSome_iff_exists.mp (h ho)
    cases op <;> simp only [isOrder, Bool.false_eq_true] at ho <;>
      cases o <;> simp [negate, evaluate, hvw]

-- Where nothing can be told, an operator and its negation both fail.
theorem evaluate_negate_iff : op.negate.evaluate v w = !op.evaluate v w ↔ op.Decides v w where
  mp h := by
    by_contra hd
    rw [evaluate_of_not_decides hd, evaluate_of_not_decides (decides_negate_iff.not.mpr hd)] at h
    contradiction
  mpr := evaluate_negate_of_decides

end ComparisonOperator

namespace Expr

variable {op : ComparisonOperator} {l r : Expr}

theorem relate_of_hasUnresolvable (h : hasUnresolvable [l, r]) : relate op l r = unresolvable :=
  if_pos h

theorem relate_constant (v w : Value Expr) :
    relate op (constant v) (constant w) = ofBool (op.evaluate v w) :=
  rfl

theorem relate_of_not_constant (hu : ¬hasUnresolvable [l, r])
    (hc : ¬(l.isConstant ∧ r.isConstant)) : relate op l r = comparison op l r := by
  unfold relate
  rw [if_neg hu]
  split
  case h_1 => exact absurd ⟨rfl, rfl⟩ hc
  case h_2 => rfl

theorem negate_relate_constant_iff (v w : Value Expr) :
    negate (relate op (constant v) (constant w)) = relate op.negate (constant v) (constant w) ↔
      op.Decides v w := by
  rw [← ComparisonOperator.evaluate_negate_iff, relate_constant, relate_constant]
  simp [negate, negateAtom, ofBool, Value.isTruthy, eq_comm]

-- To negate a comparison is to compare by the negated operator, unless both sides are known and
-- have no order although one is asked for: not both are strings, and one is no number.
theorem negate_relate_iff (op : ComparisonOperator) :
    (∀ l r, negate (relate op l r) = relate op.negate l r ↔
      ∀ v w, l = constant v → r = constant w → op.Decides v w) ∧
    (∀ v w, op.negate.evaluate v w = !op.evaluate v w ↔ op.Decides v w) ∧
    ∀ v w, op.Decides v w ↔ (op.isOrder →
      (∃ s t, v = .string s ∧ w = .string t) ∨ ¬v.toNumber.isNaN ∧ ¬w.toNumber.isNaN) := by
  refine ⟨fun l r => ?_, fun v w => ComparisonOperator.evaluate_negate_iff,
    fun v w => ComparisonOperator.decides_iff⟩
  by_cases hc : l.isConstant ∧ r.isConstant
  case pos =>
    obtain ⟨v, rfl⟩ := isConstant_iff.mp hc.left
    obtain ⟨w, rfl⟩ := isConstant_iff.mp hc.right
    simp [negate_relate_constant_iff]
  case neg =>
    have hd : ∀ v w, l = constant v → r = constant w → op.Decides v w := by
      rintro v w rfl rfl
      exact absurd ⟨rfl, rfl⟩ hc
    rw [iff_true_right hd]
    by_cases hu : hasUnresolvable [l, r]
    case pos => rw [relate_of_hasUnresolvable hu, relate_of_hasUnresolvable hu]; rfl
    case neg => rw [relate_of_not_constant hu hc, relate_of_not_constant hu hc]; rfl

-- An undefined value is not less than one, and it is not at least one either.
theorem negate_relate_undefined :
    let less : ComparisonOperator := .lessThan
    ¬negate (relate less (constant .undefined) (ofInt 1)) =
        relate less.negate (constant .undefined) (ofInt 1) ∧
      ¬less.negate.evaluate .undefined (.integer 1) = !less.evaluate .undefined (.integer 1) := by
  intro less
  have hn : negate (relate less (constant .undefined) (ofInt 1)) = ofBool true := rfl
  have hr : relate less.negate (constant .undefined) (ofInt 1) = ofBool false := rfl
  refine ⟨?_, by decide⟩
  rw [hn, hr]
  nofun

end Expr
end BindingAlgebra
