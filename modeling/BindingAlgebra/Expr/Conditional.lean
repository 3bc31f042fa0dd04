import BindingAlgebra.Expr.Call

namespace BindingAlgebra.Expr

-- What a branch is, once the condition is known to hold or known to fail.
def whenTrue (c : Expr) : Expr → Expr
  | ifElse c' t f => if c'.same c then t else ifElse c' t f
  | e             => e

def whenFalse (c : Expr) : Expr → Expr
  | ifElse c' t f => if c'.same c then f else ifElse c' t f
  | e             => e

-- The three parts of a conditional without a negation in front and without a branch that asks the
-- same condition once more.
def canonical (c t f : Expr) : Expr × Expr × Expr :=
  match c with
  | not c => (c, whenTrue c f, whenFalse c t)
  | c     => (c, whenTrue c t, whenFalse c f)

-- A conditional that is no choice, or one that boolean operators express.
def collapse? (c t f : Expr) : Option Expr :=
  match c with
  | constant v => some (if v.isTruthy then t else f)
  | c =>
    if t.same f then some t
    else if f.isBoolean false then some (allOf [c, t])
    else if f.isBoolean true then some (anyOf [negate c, t])
    else if t.isBoolean false then some (allOf [negate c, f])
    else if t.isBoolean true then some (anyOf [c, f])
    else none

-- Conditionals over complex values have no text of their own.
def chooseWith (outline : Outlining) (c t f : Expr) : Expr :=
  if hasUnresolvable [c, t, f] then unresolvable
  else
    let (c, t, f) := canonical c t f
    match collapse? c t f with
    | some e => e
    | none   =>
      if c.isComplex || t.isComplex || f.isComplex then
        outline (formatCall ifElseFormatter [c, t, f]) true
      else ifElse c t f

end BindingAlgebra.Expr
