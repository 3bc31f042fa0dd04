import BindingAlgebra.Binary64.Rounding
import BindingAlgebra.Text

namespace BindingAlgebra.Numeral

-- A numeral is an optional sign followed by `inf`, `infinity` or `nan` in letters of either case,
-- or by decimal digits with at most one point among or around them and an optional exponent.

def splitSign : List Char → Bool × List Char
  | '-' :: text => (true, text)
  | '+' :: text => (false, text)
  | text        => (false, text)

def natOfDigits (digits : List Char) : Nat :=
  digits.foldl (fun n c => 10 * n + (c.toNat - 48)) 0

def readSpecial? (negative : Bool) (text : List Char) : Option Binary64 :=
  let word := String.ofList (text.map Char.toLower)
  if word = "inf" ∨ word = "infinity" then some ⟨negative, Binary64.infinityMagnitude⟩
  else if word = "nan" then some .nan
  else none

def readExponent? : List Char → Option Int
  | [] => some 0
  | mark :: text =>
    let (negative, digits) := splitSign text
    if (mark = 'e' ∨ mark = 'E') ∧ digits ≠ [] ∧ digits.all Char.isDigit then
      let n : Int := natOfDigits digits
      some (if negative then -n else n)
    else none

def readDecimal? (negative : Bool) (text : List Char) : Option Binary64 :=
  let whole := text.takeWhile Char.isDigit
  let rest  := text.dropWhile Char.isDigit
  let (fraction, rest) :=
    match rest with
    | '.' :: rest => (rest.takeWhile Char.isDigit, rest.dropWhile Char.isDigit)
    | rest        => ([], rest)
  if whole = [] ∧ fraction = [] then none
  else (readExponent? rest).map fun exponent =>
    .ofDecimal negative (natOfDigits (whole ++ fraction)) (exponent - fraction.length)

def read? (text : List Char) : Option Binary64 :=
  let (negative, text) := splitSign text
  (readSpecial? negative text).or (readDecimal? negative text)

-- The number that a text stands for: blanks around it do not count, a blank text is zero, and what
-- is no numeral is not a number.
def value (text : String) : Binary64 :=
  let text := trimBlanks text.toList
  if text = [] then .zero else (read? text).getD .nan

example : value "" = .zero := by decide +kernel
example : value " 1\n" = .one := by decide +kernel
example : value "-0" = ⟨true, 0⟩ := by decide +kernel
example : value "1_0" = .nan := by decide +kernel
example : value ".5e+1" = .ofInt 5 := by decide +kernel
example : value "e5" = .nan := by decide +kernel
example : value "-Infinity" = ⟨true, Binary64.infinityMagnitude⟩ := by decide +kernel

end BindingAlgebra.Numeral
