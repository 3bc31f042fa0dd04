import BindingAlgebra.Json

namespace BindingAlgebra.Expr

def tagged (k : Kind) (fields : List (String × Json)) : Json :=
  .object (("_type", .string k.name) :: fields)

-- An absent field leaves no trace.
def field? (key : String) (value : Option Json) : List (String × Json) :=
  match value with
  | some j => [(key, j)]
  | none   => []

mutual

-- The JSON form of a tree: a tag with the kind of the node, then its fields.
def wire : Expr → Json
  | constant v           => tagged .constant (field? "value" (wireValue? v))
  | unresolvable         => tagged .unresolvable []
  | path b               => tagged .path (wirePath b)
  | embeddedBinding s    => tagged .embeddedBinding [("value", .string s)]
  | embeddedExpression s => tagged .embeddedExpression [("value", .string s)]
  | reference token      =>
    tagged .reference [("ref", match token with | some s => .string s | none => .null)]
  | not e                => tagged .not [("operand", e.wire)]
  | truthy e             => tagged .truthy [("operand", e.wire)]
  | set op es            =>
    tagged .set [("operator", .string op.token), ("operands", .array (wireAll es))]
  | comparison op l r    =>
    tagged .comparison
      [("operator", .string op.token), ("operand1", l.wire), ("operand2", r.wire)]
  | ifElse c t f         =>
    tagged .ifElse [("condition", c.wire), ("onTrue", t.wire), ("onFalse", f.wire)]
  | concat es            => tagged .concat [("expressions", .array (wireAll es))]
  | length e             => tagged .length [("pathInModel", e.wire)]
  | formatter n es       =>
    tagged .formatter [("fn", .string n), ("parameters", .array (wireAll es))]
  | compositeType n es o p =>
    tagged .compositeType <|
      [("type", .string n), ("parameters", .array (wireAll es))] ++
        field? "formatOptions" (wireObject? o) ++ field? "bindingParameters" (wireObject? p)
  | call none n es       =>
    tagged .call [("fn", .string n), ("parameters", .array (wireAll es))]
  | call (some e) n es   =>
    tagged .call [("obj", e.wire), ("fn", .string n), ("parameters", .array (wireAll es))]
termination_by structural e => e

-- Undefined is the one value without a JSON form.
def wireValue? : Value Expr → Option Json
  | .undefined    => none
  | .null         => some .null
  | .boolean b    => some (.boolean b)
  | .integer n    => some (.integer n)
  | .decimal x    => some (.decimal x)
  | .string s     => some (.string s)
  | .array es     => some (.array (wireAll es))
  | .object ⟨es⟩  => some (.object (wireEntries es))
termination_by structural v => v

def wirePath : PathBinding Expr → List (String × Json)
  | ⟨p, m, t, g, d, co, fo, pa⟩ =>
    [("path", .string p)] ++ field? "modelName" (m.map .string) ++
      field? "type" (t.map .string) ++ field? "targetType" (g.map .string) ++
      field? "mode" (d.map (.string ·.name)) ++ field? "constraints" (wireObject? co) ++
      field? "formatOptions" (wireObject? fo) ++ field? "parameters" (wireObject? pa)
termination_by structural b => b

def wireObject? : Option (ObjectLiteral Expr) → Option Json
  | none      => none
  | some ⟨es⟩ => some (.object (wireEntries es))
termination_by structural o => o

def wireEntries : List (String × Expr) → List (String × Json)
  | []           => []
  | (k, e) :: es => (k, e.wire) :: wireEntries es
termination_by structural es => es

def wireAll : List Expr → List Json
  | []      => []
  | e :: es => e.wire :: wireAll es
termination_by structural es => es

end

-- The text in which a tree is handed on.
def written (e : Expr) : String :=
  e.wire.render

end BindingAlgebra.Expr
