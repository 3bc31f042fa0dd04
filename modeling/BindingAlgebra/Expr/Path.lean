import BindingAlgebra.Expr.Logic
import BindingAlgebra.Value.Coercion

namespace BindingAlgebra.Expr

def pathTo (target : String) (model : Option String := none) : Expr :=
  path { path := target, model }

-- The binding to a path that may be absent. A visitor, if there is one, decides on its own what is
-- bound. Otherwise the navigation that led here comes first.
def resolvePath (source : Option String) (model : Option String) (navigation : List String)
    (visitor : Option (String → Option String)) : Expr :=
  match source with
  | none        => unresolvable
  | some source =>
    match visitor with
    | none         => pathTo ("/".intercalate (navigation ++ [source])) model
    | some visitor =>
      match visitor source with
      | none        => unresolvable
      | some target => pathTo target model

-- Changes the metadata of a path and leaves all else alone.
def annotate (change : PathBinding Expr → PathBinding Expr) : Expr → Expr
  | path b => path (change b)
  | e      => e

-- What a text in a binding attribute stands for: a binding or an expression binding that is already
-- written, or else a constant of the target type.
def ofBindingText (text : String) (targetType : Option String) : Expr :=
  let chars  := text.toList
  let closed := chars.getLast? = some '\x7d'
  if closed ∧ ['\x7b', '='].isPrefixOf chars then embeddedExpression text
  else if closed ∧ ['\x7b'].isPrefixOf chars then embeddedBinding text
  else if targetType = some "boolean" then ofBool (text = "true")
  else if targetType = some "number" then
    let numeral := trimBlanks chars
    if numeral = [] then ofInt 0
    else constant (.decimal ((Numeral.read? numeral).getD .nan))
  else ofString text

example : ofBindingText "\x7b=" none matches constant (.string _) := by decide +kernel
example : ofBindingText "\x7b=\x7d" none matches embeddedExpression _ := by decide +kernel

end BindingAlgebra.Expr
