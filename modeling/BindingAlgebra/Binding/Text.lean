import BindingAlgebra.Binding.Options
import BindingAlgebra.Text
import BindingAlgebra.Value.Coercion

namespace BindingAlgebra

namespace BindingText

open Quoted

def braced (s : String) : String :=
  "\x7b" ++ s ++ "\x7d"

-- An operator expression needs a binding around it, unless it stands in one.
def wrap (o : RenderOptions) (s : String) : String :=
  if o.embedded then s else "\x7b= " ++ s ++ "\x7d"

def embed (o : RenderOptions) (s : String) : String :=
  if o.embedded then .singleton o.separator ++ s else s

def listed (ss : List String) : String :=
  ", ".intercalate ss

def entry (key text : String) : String :=
  key ++ ": " ++ text

def entries (key : String) (text : Option String) : List String :=
  match text with
  | some s => [entry key s]
  | none   => []

def quotedEntries (key : String) (text : Option String) : List String :=
  entries key (text.map quote)

def modeEntries (mode : Option BindingMode) : List String :=
  quotedEntries "mode" (mode.map (·.name))

def dropBytes? (n : Nat) : List Char → Option (List Char)
  | []      => if n = 0 then some [] else none
  | c :: cs =>
    if n = 0 then some (c :: cs)
    else if c.utf8Size ≤ n then dropBytes? (n - c.utf8Size) cs
    else none

-- What a written expression binding holds: the text between its first two bytes and its last one,
-- or nothing if these are not whole characters.
def expressionIn (s : String) : String :=
  let inner := do
    let cs ← dropBytes? 2 s.toList
    let cs ← dropBytes? 1 cs.reverse
    return cs.reverse
  .ofList (inner.getD [])

-- The attributes of a path in a part of a formatter or a composite type. What no type is known of
-- may become of any type.
def partTarget? (anyTarget : Bool) (b : PathBinding Expr) : Option String :=
  if anyTarget && b.typeName.isNone then some (b.targetType.getD "any") else b.targetType

-- A part of a formatter: an ordinary one, which leaves its braces to the whole, or a composite type.
inductive Part where
  | plain (text : String)
  | composite (text : String)

def Part.text : Part → String
  | plain s     => braced s
  | composite s => s

def formatterText (function : String) : List Part → String
  | [.plain s] => braced (s ++ ", " ++ entry "formatter" (quote function))
  | parts      =>
    braced ("parts: [" ++ listed (parts.map Part.text) ++ "], " ++
      entry "formatter" (quote function))

-- An entry for an object that may be missing or empty. If it has attributes, they need a text.
def objectEntries? (key : String) (object : Option (ObjectLiteral Expr)) (text : Option String) :
    Option (List String) :=
  match object with
  | none        => some []
  | some object => if object.isEmpty then some [] else text.map fun s => [entry key s]

def compositeText (typeName : String) (parts options : List String) : String :=
  let tail := listed (entry "type" (quote typeName) :: options)
  match parts with
  | [part] => braced (part ++ ", " ++ tail)
  | parts  =>
    braced ("mode:'TwoWay', parts:[" ++ ",".intercalate (parts.map braced) ++ "], " ++ tail)

-- Whether an operand takes parentheses.
def needsParenthesis (e : Expr) : Bool :=
  match e.kind with
  | .constant | .path | .ifElse | .call | .embeddedExpression | .unresolvable => false
  | _ => true

def asOperand (e : Expr) (s : String) : String :=
  if needsParenthesis e then "(" ++ s ++ ")" else s

end BindingText

namespace Expr

open BindingText Quoted

mutual

-- The text of an expression in a binding. There is none if something in it is unresolvable.
def bindingText? : Expr → RenderOptions → Option String
  | unresolvable, _ => none
  | constant v, o => valueText? v o
  | reference token, _ => some (token.getD "null")
  | embeddedBinding s, o => some (embed o s)
  | embeddedExpression s, o => some (if o.embedded then "(" ++ expressionIn s ++ ")" else s)
  | path b, o => some (embed o (pathText b o))
  | not e, o => do
    let s ← bindingText? e o.operand
    return wrap o ("!" ++ asOperand e s)
  | truthy e, o => do
    let s ← bindingText? e o.operand
    return wrap o ("!!" ++ asOperand e s)
  | set op es, o => do
    let ss ← operandTexts? es o.typedOperand
    return wrap o ((" " ++ op.token ++ " ").intercalate ss)
  | comparison op l r, o => do
    let s ← bindingText? l o.operand
    let t ← bindingText? r o.operand
    return wrap o (asOperand l s ++ " " ++ op.token ++ " " ++ asOperand r t)
  | ifElse c t f, o => do
    let c ← bindingText? c o.operand
    let t ← bindingText? t o.operand
    let f ← bindingText? f o.operand
    let choice := c ++ " ? " ++ t ++ " : " ++ f
    return if o.embedded then "(" ++ choice ++ ")" else wrap o choice
  | concat es, o => do
    let ss ← operandTexts? es o.typedOperand
    return wrap o (" + ".intercalate ss)
  | length e, o => do
    let s ← bindingText? e o.operand
    return wrap o (s ++ ".length")
  | formatter n es, o => do
    let parts ← formatterParts? es o.topLevel
    return embed o (formatterText n parts)
  | compositeType n es fo pa, o => do
    let parts ← partTexts? es o.topLevel
    let fo ← objectEntries? "formatOptions" fo (objectText? fo o.topLevel)
    let pa ← objectEntries? "parameters" pa (objectText? pa o.topLevel)
    return embed o (compositeText n parts (fo ++ pa))
  | call none n es, o => do
    let ss ← texts? es o.operand
    return n ++ "(" ++ listed ss ++ ")"
  | call (some e) n es, o => do
    let ss ← texts? es o.operand
    let s ← bindingText? e o.operand
    return s ++ "." ++ n ++ "(" ++ listed ss ++ ")"
termination_by structural e => e

-- A string on its own is written as it is, and within an expression in quotes.
def valueText? : Value Expr → RenderOptions → Option String
  | .undefined, o => if o.nullable && !o.embedded then none else some "undefined"
  | .null, o      => if o.nullable && !o.embedded then none else some "null"
  | .boolean b, _ => some (displayBool b)
  | .integer n, _ => some (displayInt n)
  | .decimal x, _ => some x.display
  | .string s, o  => some (if o.embedded then quote s else s)
  | .array es, o  => do
    let ss ← texts? es o.operand
    return "[" ++ ",".intercalate ss ++ "]"
  | .object ⟨es⟩, o => do
    let ss ← entryTexts? es o.operand
    return braced (listed ss)
termination_by structural v => v

-- Metadata that cannot be written is left out.
def pathText : PathBinding Expr → RenderOptions → String
  | ⟨p, m, t, g, d, co, fo, pa⟩, o =>
    let b : PathBinding Expr := ⟨p, m, t, g, d, co, fo, pa⟩
    if b.hasMetadata then
      braced <| listed <|
        [entry "path" (quote b.qualified)] ++ quotedEntries "type" t ++
          quotedEntries "targetType" g ++ modeEntries d ++ entries "parameters" (objectText? pa o) ++
          entries "formatOptions" (objectText? fo o) ++ entries "constraints" (objectText? co o)
    else braced b.qualified
termination_by structural b => b

def pathPart (anyTarget : Bool) : PathBinding Expr → RenderOptions → String
  | ⟨p, m, t, g, d, co, fo, pa⟩, o =>
    let b : PathBinding Expr := ⟨p, m, t, g, d, co, fo, pa⟩
    listed <|
      [entry "path" (quote b.qualified)] ++ quotedEntries "type" t ++
        quotedEntries "targetType" (partTarget? anyTarget b) ++ modeEntries d ++
        entries "constraints" (objectText? co o) ++ entries "formatOptions" (objectText? fo o) ++
        entries "parameters" (objectText? pa o)
termination_by structural b => b

def objectText? : Option (ObjectLiteral Expr) → RenderOptions → Option String
  | none, _      => none
  | some ⟨es⟩, o => do
    let ss ← entryTexts? es o.operand
    return braced (listed ss)
termination_by structural o => o

def entryTexts? : List (String × Expr) → RenderOptions → Option (List String)
  | [], _           => some []
  | (k, e) :: es, o => do
    let s  ← bindingText? e o
    let ss ← entryTexts? es o
    return entry k s :: ss
termination_by structural es => es

def texts? : List Expr → RenderOptions → Option (List String)
  | [], _      => some []
  | e :: es, o => do
    let s  ← bindingText? e o
    let ss ← texts? es o
    return s :: ss
termination_by structural es => es

def operandTexts? : List Expr → RenderOptions → Option (List String)
  | [], _      => some []
  | e :: es, o => do
    let s  ← bindingText? e o
    let ss ← operandTexts? es o
    return asOperand e s :: ss
termination_by structural es => es

-- Only constants and paths can be parts of a composite type.
def partTexts? : List Expr → RenderOptions → Option (List String)
  | [], _      => some []
  | e :: es, o => do
    let s  ← partText? e o
    let ss ← partTexts? es o
    return s :: ss
termination_by structural es => es

def partText? : Expr → RenderOptions → Option String
  | constant v, o => (valueText? v o.operand).map (entry "value")
  | path b, o     => some (pathPart false b o)
  | _, _          => none
termination_by structural e => e

def formatterParts? : List Expr → RenderOptions → Option (List Part)
  | [], _      => some []
  | e :: es, o => do
    let part  ← formatterPart? e o
    let parts ← formatterParts? es o
    return part :: parts
termination_by structural es => es

def formatterPart? : Expr → RenderOptions → Option Part
  | constant v, o => (valueText? v o.operand).map fun s => .plain (entry "value" s)
  | path b, o     => some (.plain (pathPart true b o))
  | compositeType n es fo pa, o => do
    let parts ← partTexts? es o.topLevel
    let fo ← objectEntries? "formatOptions" fo (objectText? fo o.topLevel)
    let pa ← objectEntries? "parameters" pa (objectText? pa o.topLevel)
    return .composite (compositeText n parts (fo ++ pa))
  | _, _ => none
termination_by structural e => e

end

section Lists

variable (es : List Expr) (o : RenderOptions)

theorem texts?_eq_mapM : texts? es o = es.mapM (bindingText? · o) := by
  induction es <;> simp_all [texts?]

theorem operandTexts?_eq_mapM :
    operandTexts? es o = es.mapM fun e => (bindingText? e o).map (asOperand e) := by
  induction es
  case nil => rfl
  case cons e es ih => cases h : bindingText? e o <;> simp [operandTexts?, ih, h]

theorem entryTexts?_eq_mapM (entries : List (String × Expr)) :
    entryTexts? entries o = entries.mapM fun (k, e) => (bindingText? e o).map (entry k) := by
  induction entries
  case nil => rfl
  case cons e es ih => cases h : bindingText? e.2 o <;> simp [entryTexts?, ih, h]

theorem partTexts?_eq_mapM : partTexts? es o = es.mapM (partText? · o) := by
  induction es <;> simp_all [partTexts?]

theorem formatterParts?_eq_mapM : formatterParts? es o = es.mapM (formatterPart? · o) := by
  induction es <;> simp_all [formatterParts?]

end Lists

end Expr
end BindingAlgebra
