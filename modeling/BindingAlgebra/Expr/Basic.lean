import BindingAlgebra.Binding.Path
import BindingAlgebra.Operator
import BindingAlgebra.Value.Basic

namespace BindingAlgebra

-- Binding expressions. `unresolvable` is what has no value: every operation that meets it gives it
-- back.
inductive Expr where
  | constant (value : Value Expr)
  | unresolvable
  | path (binding : PathBinding Expr)
  -- A binding, or an expression binding, whose text is already written.
  | embeddedBinding (text : String)
  | embeddedExpression (text : String)
  | reference (token : Option String)
  | not (operand : Expr)
  | truthy (operand : Expr)
  | set (operator : LogicalOperator) (operands : List Expr)
  | comparison (operator : ComparisonOperator) (left right : Expr)
  | ifElse (condition onTrue onFalse : Expr)
  | concat (parts : List Expr)
  | length (collection : Expr)
  | formatter (function : String) (parameters : List Expr)
  | compositeType (typeName : String) (parameters : List Expr)
      (formatOptions bindingParameters : Option (ObjectLiteral Expr))
  | call (receiver : Option Expr) (function : String) (arguments : List Expr)

inductive Kind where
  | constant
  | unresolvable
  | path
  | embeddedBinding
  | embeddedExpression
  | reference
  | not
  | truthy
  | set
  | comparison
  | ifElse
  | concat
  | length
  | formatter
  | compositeType
  | call
  deriving DecidableEq, Repr

namespace Kind

def all : List Kind :=
  [constant, unresolvable, path, embeddedBinding, embeddedExpression, reference, not, truthy, set,
    comparison, ifElse, concat, length, formatter, compositeType, call]

-- The tag of a node in written trees.
def name : Kind → String
  | constant           => "Constant"
  | unresolvable       => "Unresolvable"
  | path               => "PathInModel"
  | embeddedBinding    => "EmbeddedBinding"
  | embeddedExpression => "EmbeddedExpressionBinding"
  | reference          => "Ref"
  | not                => "Not"
  | truthy             => "Truthy"
  | set                => "Set"
  | comparison         => "Comparison"
  | ifElse             => "IfElse"
  | concat             => "Concat"
  | length             => "Length"
  | formatter          => "Formatter"
  | compositeType      => "ComplexType"
  | call               => "Function"

def ofName? (name : String) : Option Kind :=
  all.find? (·.name = name)

theorem ofName?_name (k : Kind) : ofName? k.name = some k := by
  cases k <;> rfl

end Kind

namespace Expr

def kind : Expr → Kind
  | constant _            => .constant
  | unresolvable          => .unresolvable
  | path _                => .path
  | embeddedBinding _     => .embeddedBinding
  | embeddedExpression _  => .embeddedExpression
  | reference _           => .reference
  | not _                 => .not
  | truthy _              => .truthy
  | set _ _               => .set
  | comparison _ _ _      => .comparison
  | ifElse _ _ _          => .ifElse
  | concat _              => .concat
  | length _              => .length
  | formatter _ _         => .formatter
  | compositeType _ _ _ _ => .compositeType
  | call _ _ _            => .call

def value? : Expr → Option (Value Expr)
  | constant v => some v
  | _          => none

def path? : Expr → Option (PathBinding Expr)
  | path b => some b
  | _      => none

def isConstant (e : Expr) : Bool :=
  e.kind = .constant

def isPath (e : Expr) : Bool :=
  e.kind = .path

def isComparison (e : Expr) : Bool :=
  e.kind = .comparison

def isUnresolvable (e : Expr) : Bool :=
  e.kind = .unresolvable

def hasUnresolvable (es : List Expr) : Bool :=
  es.any isUnresolvable

def isBoolean (b : Bool) : Expr → Bool
  | constant (.boolean c) => b == c
  | _                     => false

mutual

-- What neither a conditional nor a concatenation can contain in written form: composite types and
-- concatenations, and logic over them.
def isComplex : Expr → Bool
  | compositeType _ _ _ _ => true
  | concat _              => true
  | not e                 => e.isComplex
  | truthy e              => e.isComplex
  | set _ es              => anyComplex es
  | comparison _ l r      => l.isComplex || r.isComplex
  | ifElse c t f          => c.isComplex || t.isComplex || f.isComplex
  | _                     => false

def anyComplex : List Expr → Bool
  | []      => false
  | e :: es => e.isComplex || anyComplex es

end

theorem anyComplex_eq_any (es : List Expr) : anyComplex es = es.any isComplex := by
  induction es <;> simp_all [anyComplex]

end Expr
end BindingAlgebra
