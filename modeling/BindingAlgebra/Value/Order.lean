import BindingAlgebra.Expr.Same
import BindingAlgebra.Value.Coercion

namespace BindingAlgebra

namespace Value

-- Strict equality is structural equality, save that integers and decimals are of one numeric type.
def strictEquals : Value Expr → Value Expr → Bool
  | integer n, decimal x => (Binary64.ofInt n).equals x
  | decimal x, integer n => x.equals (.ofInt n)
  | v, w                 => Expr.sameValue v w

-- Two strings are ordered by their characters, all else by number.
def order? : Value ε → Value ε → Option Ordering
  | string s, string t => some (compare s t)
  | v, w               => v.toNumber.order? w.toNumber

end Value

def ComparisonOperator.evaluate (op : ComparisonOperator) (v w : Value Expr) : Bool :=
  match op with
  | equal          => v.strictEquals w
  | notEqual       => !v.strictEquals w
  | lessThan       => v.order? w == some .lt
  | lessOrEqual    => v.order? w == some .lt || v.order? w == some .eq
  | greaterThan    => v.order? w == some .gt
  | greaterOrEqual => v.order? w == some .gt || v.order? w == some .eq

example : ComparisonOperator.lessThan.evaluate (.string "10") (.string "9") = true := by
  decide +kernel
example : ComparisonOperator.lessThan.evaluate (.string "10") (.integer 9) = false := by
  decide +kernel
example : ComparisonOperator.equal.evaluate (.string "1") (.integer 1) = false := by
  decide +kernel

end BindingAlgebra
