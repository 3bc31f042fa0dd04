namespace BindingAlgebra

-- How an expression is written: as an operand within an expression binding or on its own, with or
-- without the target types of the paths in it, and with or without a text for a lone `null`.
structure RenderOptions where
  embedded       : Bool := false
  keepTargetType : Bool := false
  nullable       : Bool := false
  deriving DecidableEq, Repr

namespace RenderOptions

-- What precedes a binding inside of an expression binding.
def separator (o : RenderOptions) : Char :=
  if o.keepTargetType then '$' else '%'

def operand (o : RenderOptions) : RenderOptions :=
  { o with embedded := true }

-- Operands of sets and concatenations keep their target types in any case.
def typedOperand (o : RenderOptions) : RenderOptions :=
  { o with embedded := true, keepTargetType := true }

def topLevel (o : RenderOptions) : RenderOptions :=
  { o with embedded := false }

@[simp]
theorem embedded_operand (o : RenderOptions) : o.operand.embedded = true := rfl

@[simp]
theorem embedded_typedOperand (o : RenderOptions) : o.typedOperand.embedded = true := rfl

@[simp]
theorem keepTargetType_operand (o : RenderOptions) :
    o.operand.keepTargetType = o.keepTargetType := rfl

@[simp]
theorem keepTargetType_typedOperand (o : RenderOptions) : o.typedOperand.keepTargetType = true :=
  rfl

@[simp]
theorem operand_topLevel (o : RenderOptions) : o.topLevel.operand = o.operand := rfl

@[simp]
theorem topLevel_operand (o : RenderOptions) : o.operand.topLevel = o.topLevel := rfl

end RenderOptions
end BindingAlgebra
