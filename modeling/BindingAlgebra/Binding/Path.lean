import BindingAlgebra.ObjectLiteral

namespace BindingAlgebra

-- How often, and which way, a value flows between a model and what is bound to it.
inductive BindingMode where
  | oneTime
  | oneWay
  | twoWay
  deriving DecidableEq, Repr

def BindingMode.name : BindingMode → String
  | oneTime => "OneTime"
  | oneWay  => "OneWay"
  | twoWay  => "TwoWay"

-- A path into a named model or, without a name, into the default one. All but the path and the
-- model is metadata that types the binding.
structure PathBinding (ε : Type) where
  path          : String
  model         : Option String := none
  typeName      : Option String := none
  targetType    : Option String := none
  mode          : Option BindingMode := none
  constraints   : Option (ObjectLiteral ε) := none
  formatOptions : Option (ObjectLiteral ε) := none
  parameters    : Option (ObjectLiteral ε) := none

namespace PathBinding

def hasMetadata (b : PathBinding ε) : Bool :=
  b.typeName.isSome || b.targetType.isSome || b.mode.isSome || b.constraints.isSome ||
    b.formatOptions.isSome || b.parameters.isSome

-- An empty model name qualifies nothing.
def qualified (b : PathBinding ε) : String :=
  match b.model with
  | none       => b.path
  | some model => if model = "" then b.path else model ++ ">" ++ b.path

end PathBinding
end BindingAlgebra
