namespace BindingAlgebra

-- The number of 16-bit units of a character: those past the first 2 ^ 16 take a pair.
def unitCount (c : Char) : Nat :=
  if c.toNat < 0x10000 then 1 else 2

def lengthInUnits (text : String) : Nat :=
  text.toList.foldl (fun n c => n + unitCount c) 0

example : lengthInUnits "a😀b" = 4 := by decide +kernel

-- The characters with the Unicode property `White_Space`.
def isBlank (c : Char) : Bool :=
  let n := c.toNat
  9 ≤ n && n ≤ 13 || n == 0x20 || n == 0x85 || n == 0xA0 || n == 0x1680 ||
    0x2000 ≤ n && n ≤ 0x200A || n == 0x2028 || n == 0x2029 || n == 0x202F || n == 0x205F ||
    n == 0x3000

def trimBlanks (text : List Char) : List Char :=
  ((text.dropWhile isBlank).reverse.dropWhile isBlank).reverse

namespace Quoted

-- Text between single quotes, in which a backslash stands before every quote and every backslash.

def quoteMark : Char := '\x27'

def backslash : Char := '\x5c'

def escape : List Char → List Char
  | []        => []
  | c :: text =>
    if c = quoteMark ∨ c = backslash then backslash :: c :: escape text else c :: escape text

def escapeText (text : String) : String :=
  .ofList (escape text.toList)

def quote (text : String) : String :=
  .ofList (quoteMark :: escape text.toList ++ [quoteMark])

example : quote "it's" = "'it\x5c's'" := by decide +kernel

end Quoted
end BindingAlgebra
