import BindingAlgebra.Binary64.Basic
import BindingAlgebra.ObjectLiteral

namespace BindingAlgebra

-- Literal values. What collections hold is left open, since an element of a literal array may be
-- any expression.
inductive Value (ε : Type) where
  | undefined
  | null
  | boolean (b : Bool)
  | integer (n : Int)
  | decimal (x : Binary64)
  | string  (s : String)
  | array   (items : List ε)
  | object  (attributes : ObjectLiteral ε)

namespace Value

def isUndefined : Value ε → Bool
  | undefined => true
  | _         => false

def isNullish : Value ε → Bool
  | undefined | null => true
  | _                => false

def isTruthy : Value ε → Bool
  | undefined | null => false
  | boolean b        => b
  | integer n        => n ≠ 0
  | decimal x        => !x.isNaN && x.magnitude ≠ 0
  | string s         => s ≠ ""
  | array _          => true
  | object _         => true

end Value
end BindingAlgebra
