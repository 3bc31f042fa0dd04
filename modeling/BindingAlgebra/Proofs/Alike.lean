import BindingAlgebra.Proofs.Same
import BindingAlgebra.Value.Order

namespace BindingAlgebra

namespace Binary64

variable {x x' y y' : Binary64}

theorem rank?_eq_of_equals (h : x.equals y) : x.rank? = y.rank? := by
  cases hx : x.rank? <;> cases hy : y.rank? <;> simp_all [equals]

theorem equals_congr_left (h : x.equals x') (y : Binary64) : x.equals y = x'.equals y := by
  rw [equals, equals, rank?_eq_of_equals h]

theorem order?_congr (hx : x.rank? = x'.rank?) (hy : y.rank? = y'.rank?) :
    x.order? y = x'.order? y' := by
  rw [order?, order?, hx, hy]

end Binary64

namespace Value

open BindingAlgebra.Expr

variable {v w v' w' : Value Expr}

theorem sameValue_comm (v w : Value Expr) : sameValue v w = sameValue w v :=
  Bool.eq_iff_iff.mpr
    ⟨sameValue_symm fun _ _ _ => same_symm, sameValue_symm fun _ _ _ => same_symm⟩

theorem sameValue_congr_left (h : sameValue v v') (w : Value Expr) :
    sameValue v w = sameValue v' w := by
  have trans : ∀ {u v w}, sameValue u v → sameValue v w → sameValue u w :=
    sameValue_trans fun _ _ _ _ => same_trans
  exact Bool.eq_iff_iff.mpr ⟨trans (sameValue_comm v v' ▸ h), trans h⟩

theorem strictEquals_comm (v w : Value Expr) : v.strictEquals w = w.strictEquals v := by
  cases v <;> cases w
  case integer.decimal | decimal.integer => exact Binary64.equals_comm ..
  all_goals exact sameValue_comm ..

-- Equal values are strictly equal.
theorem strictEquals_of_sameValue (h : sameValue v w) : v.strictEquals w := by
  cases v <;> cases w
  case integer.decimal | decimal.integer => contradiction
  all_goals exact h

theorem strictEquals_boolean (a b : Bool) :
    (boolean a : Value Expr).strictEquals (boolean b) = (a == b) :=
  rfl

theorem strictEquals_boolean_iff {b : Bool} : w.strictEquals (boolean b) ↔ w = boolean b := by
  cases w <;> simp [strictEquals, sameValue]

-- Truth and comparisons treat equal values alike.

theorem isTruthy_congr (h : sameValue v w) : v.isTruthy = w.isTruthy := by
  cases v <;> cases w <;> try contradiction
  case boolean.boolean | integer.integer | string.string => rw [eq_of_beq h]
  case decimal.decimal x y =>
    simp only [sameValue, Binary64.equals, Binary64.rank?, isTruthy] at h ⊢
    cases hx : x.isNaN <;> cases hy : y.isNaN <;> simp [hx, hy] at h ⊢
    split at h <;> split at h <;> omega
  all_goals rfl

theorem strictEquals_congr_left (h : sameValue v v') (w : Value Expr) :
    v.strictEquals w = v'.strictEquals w := by
  have hs := sameValue_congr_left h w
  cases v <;> cases v' <;> try contradiction
  case integer.integer => rw [eq_of_beq h]
  case decimal.decimal =>
    cases w
    case integer => exact Binary64.equals_congr_left h _
    all_goals exact hs
  all_goals cases w <;> exact hs

theorem strictEquals_congr (hv : sameValue v v') (hw : sameValue w w') :
    v.strictEquals w = v'.strictEquals w' := by
  rw [strictEquals_congr_left hv, strictEquals_comm, strictEquals_congr_left hw, strictEquals_comm]

theorem rank?_toNumber_congr (h : sameValue v w) : v.toNumber.rank? = w.toNumber.rank? := by
  cases v <;> cases w <;> try contradiction
  case boolean.boolean | integer.integer | string.string => rw [eq_of_beq h]
  case decimal.decimal => exact Binary64.rank?_eq_of_equals h
  all_goals rfl

theorem order?_congr (hv : sameValue v v') (hw : sameValue w w') : v.order? w = v'.order? w' := by
  have hn : v.toNumber.order? w.toNumber = v'.toNumber.order? w'.toNumber :=
    Binary64.order?_congr (rank?_toNumber_congr hv) (rank?_toNumber_congr hw)
  cases v <;> cases v' <;> try contradiction
  case string.string =>
    cases w <;> cases w' <;> try contradiction
    case string.string => rw [eq_of_beq hv, eq_of_beq hw]
    all_goals exact hn
  all_goals exact hn

end Value

theorem ComparisonOperator.evaluate_congr (op : ComparisonOperator) {v w v' w' : Value Expr}
    (hv : Expr.sameValue v v') (hw : Expr.sameValue w w') :
    op.evaluate v w = op.evaluate v' w' := by
  have he := Value.strictEquals_congr hv hw
  have ho := Value.order?_congr hv hw
  cases op <;> simp only [evaluate, he, ho]

end BindingAlgebra
