import BindingAlgebra.Value.Coercion

namespace BindingAlgebra

-- JSON data, with integers and decimals told apart.
inductive Json where
  | null
  | boolean (b : Bool)
  | integer (n : Int)
  | decimal (x : Binary64)
  | string  (s : String)
  | array   (items : List Json)
  | object  (fields : List (String × Json))

-- A decimal always shows a point or an exponent, so that it never reads as an integer.
def NumberLayout.wire : NumberLayout :=
  ⟨-5, 15, ['.', '0'], .even⟩

namespace Json

-- What is no finite number has no JSON form but `null`.
def renderDecimal (x : Binary64) : String :=
  if x.isNaN || x.isInfinite then "null"
  else if x.magnitude = 0 then (if x.negative then "-0.0" else "0.0")
  else NumberLayout.wire.write x

def escapeChar (c : Char) : List Char :=
  if c = '\x22' ∨ c = '\x5c' then ['\x5c', c]
  else if c = '\x08' then ['\x5c', 'b']
  else if c = '\x09' then ['\x5c', 't']
  else if c = '\x0a' then ['\x5c', 'n']
  else if c = '\x0c' then ['\x5c', 'f']
  else if c = '\x0d' then ['\x5c', 'r']
  else if c.toNat < 0x20 then
    ['\x5c', 'u', '0', '0', Nat.digitChar (c.toNat / 16), Nat.digitChar (c.toNat % 16)]
  else [c]

def renderString (s : String) : String :=
  .ofList ('\x22' :: s.toList.flatMap escapeChar ++ ['\x22'])

mutual

-- The compact text, fields in their order.
def render : Json → String
  | null      => "null"
  | boolean b => displayBool b
  | integer n => displayInt n
  | decimal x => renderDecimal x
  | string s  => renderString s
  | array js  => "[" ++ ",".intercalate (renderItems js) ++ "]"
  | object fs => "\x7b" ++ ",".intercalate (renderFields fs) ++ "\x7d"
termination_by structural j => j

def renderItems : List Json → List String
  | []      => []
  | j :: js => j.render :: renderItems js
termination_by structural js => js

def renderFields : List (String × Json) → List String
  | []           => []
  | (k, j) :: fs => (renderString k ++ ":" ++ j.render) :: renderFields fs
termination_by structural fs => fs

end

example : (object [("a\n", array [decimal .one, null])]).render =
    "\x7b\"a\x5cn\":[1.0,null]\x7d" := by decide +kernel
example : renderDecimal (.ofDecimal true 1 (-6)) = "-1e-6" := by decide +kernel

end Json
end BindingAlgebra
