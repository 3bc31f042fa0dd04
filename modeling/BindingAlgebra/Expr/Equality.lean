import BindingAlgebra.Expr.Logic
import BindingAlgebra.Value.Order

namespace BindingAlgebra.Expr

-- A comparison, evaluated if both sides are constants.
def relate (op : ComparisonOperator) (l r : Expr) : Expr :=
  if hasUnresolvable [l, r] then unresolvable
  else
    match l, r with
    | constant v, constant w => ofBool (op.evaluate v w)
    | _, _                   => comparison op l r

-- Whether three values are known, the third of which equals neither of the others.
def excludes (t f r : Expr) : Bool :=
  match t, f, r with
  | constant v, constant w, constant u => !v.strictEquals u && !w.strictEquals u
  | _, _, _                            => false

mutual

-- Equality. Comparing a comparison with a boolean, or a conditional with one of its branches, takes
-- no comparison at all.
def equal (l r : Expr) : Expr :=
  if hasUnresolvable [l, r] then unresolvable
  else if l.same r then ofBool true
  else
    match reduceEqual? l r with
    | some e => e
    | none   =>
      match reduceEqual? r l with
      | some e => e
      | none   => relate .equal l r
termination_by 2 * (sizeOf l + sizeOf r) + 1

def reduceEqual? (l r : Expr) : Option Expr :=
  match l with
  | comparison op x y =>
    if r.isBoolean true then some (comparison op x y)
    else if r.isBoolean false then some (negate (comparison op x y))
    else none
  | ifElse c t f =>
    if t.same r then some (anyOf [c, equal f r])
    else if f.same r then some (anyOf [negate c, equal t r])
    else if excludes t f r then some (ofBool false)
    else none
  | _ => none
termination_by 2 * (sizeOf l + sizeOf r)

end

def notEqual (l r : Expr) : Expr :=
  negate (equal l r)

-- Whether a value is an empty string, undefined or null.
def isEmpty (e : Expr) : Expr :=
  anyOf [equal e (ofString ""), equal e (constant .undefined), equal e (constant .null)]

example : equal (ofInt 1) (ofString "1") matches constant (.boolean false) := by decide +kernel

end BindingAlgebra.Expr
