import BindingAlgebra.Expr.Replacement
import BindingAlgebra.Expr.Wire

namespace BindingAlgebra.Expr

def placeholderModel : String := "$"

-- Sets a path aside. What stands for it is the path of its number in the model of placeholders.
def setAside (e : Expr) : StateM (List Expr) Expr :=
  modifyGet fun aside =>
    (pathTo ("$" ++ displayInt aside.length) placeholderModel, aside ++ [e])

-- Sets the paths of a tree aside and puts what is left, in writing, into a call of the formatter
-- that evaluates it with the values of these paths.
def outlineWith (inner : Outlining) (e : Expr) (all : Bool) : Expr :=
  let (rest, aside) := (replaceWith inner .path setAside all e).run []
  formatCall evaluateFormatter (ofString rest.written :: aside)

-- What has been put together once holds no more node that needs to be outlined. So outlining never
-- nests more than twice, and what stands at the bottom is never asked.
def outlineAt : Nat → Outlining
  | 0     => fun _ _ => unresolvable
  | n + 1 => outlineWith (outlineAt n)

def outline : Outlining :=
  outlineAt 2

-- A conditional.
def choose (c t f : Expr) : Expr :=
  chooseWith outline c t f

-- The concatenation of texts.
def join (parts : List Expr) : Expr :=
  joinWith outline parts

-- The call of a formatter. Unless complex parts are to be ignored, a part that is neither a constant
-- nor a path causes the call to be outlined.
def format (name : String) (parameters : List Expr) (keys : Option (List String))
    (ignoreComplex : Bool) : Expr :=
  formatWith outline name parameters keys ignoreComplex

def replace (kind : Kind) (f : Expr → StateM σ Expr) (all : Bool) (e : Expr) : StateM σ Expr :=
  replaceWith outline kind f all e

end BindingAlgebra.Expr
