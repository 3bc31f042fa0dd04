import BindingAlgebra.Expr.Same

namespace BindingAlgebra.Expr

def isUndefined : Expr → Bool
  | constant v => v.isUndefined
  | _          => false

-- A constant. Attributes of an object that are undefined are as good as absent.
def ofValue : Value Expr → Expr
  | .object attributes => constant (.object (attributes.filter fun _ e => !e.isUndefined))
  | v                  => constant v

def ofBool (b : Bool) : Expr :=
  constant (.boolean b)

def ofInt (n : Int) : Expr :=
  constant (.integer n)

def ofString (s : String) : Expr :=
  constant (.string s)

-- The negation of what is no set.
def negateAtom : Expr → Expr
  | unresolvable      => unresolvable
  | constant v        => ofBool !v.isTruthy
  | comparison op l r => comparison op.negate l r
  | not e             => e
  | e                 => not e

-- Of several equal expressions the first one stays.
def distinct : List Expr → List Expr
  | []      => []
  | e :: es => e :: (distinct es).filter (!e.same ·)

-- The operands that an expression contributes to a set: a set of the same operator dissolves.
def operandsIn (op : LogicalOperator) : Expr → List Expr
  | set op' es => if op' = op then es else [set op' es]
  | e          => [e]

def flatten (op : LogicalOperator) (es : List Expr) : List Expr :=
  distinct (es.flatMap (operandsIn op))

-- Whether a constant decides a set on its own.
def absorbs (op : LogicalOperator) : Expr → Bool
  | constant v => v.isTruthy == op.absorbing
  | _          => false

-- Whether the negation of an expression occurs after it.
def hasOpposite (neg : Expr → Expr) : List Expr → Bool
  | []      => false
  | e :: es => es.any (neg e).same || hasOpposite neg es

-- The set of operands that are already flat. A lone operand is itself, even a constant. Among
-- several operands constants count by their truth.
def foldSet (neg : Expr → Expr) (op : LogicalOperator) (es : List Expr) : Expr :=
  match es with
  | [e] => e
  | _   =>
    if es.any (absorbs op) then ofBool op.absorbing
    else
      match es.filter (!·.isConstant) with
      | []   => ofBool !op.absorbing
      | [e]  => e
      | pending =>
        if hasOpposite neg pending then ofBool op.absorbing else set op pending

def setWith (neg : Expr → Expr) (op : LogicalOperator) (es : List Expr) : Expr :=
  let flat := flatten op es
  if hasUnresolvable flat then unresolvable else foldSet neg op flat

-- Sets of nothing but constants and comparisons are negated operand by operand. These operands are
-- no sets, so that looking for opposites among them needs no more than `negateAtom`.
def negate : Expr → Expr
  | set op es =>
    if es.all fun e => e.isConstant || e.isComparison then
      setWith negateAtom op.dual (es.map negateAtom)
    else not (set op es)
  | e => negateAtom e

def setOf (op : LogicalOperator) (es : List Expr) : Expr :=
  setWith negate op es

def allOf (es : List Expr) : Expr :=
  setOf .and es

def anyOf (es : List Expr) : Expr :=
  setOf .or es

-- The truth of an expression as a boolean.
def truthOf : Expr → Expr
  | unresolvable => unresolvable
  | constant v   => ofBool v.isTruthy
  | e            => truthy e

end BindingAlgebra.Expr
