import BindingAlgebra.Decimal.Layout
import BindingAlgebra.Decimal.Numeral
import BindingAlgebra.Expr.Basic

namespace BindingAlgebra

-- Numbers show an exponent of their own below `0.000001` and from `1e+21` on.
def NumberLayout.display : NumberLayout :=
  ⟨-6, 20, [], .up⟩

def Binary64.display (x : Binary64) : String :=
  if x.isNaN then "NaN"
  else if x.isInfinite then (if x.negative then "-Infinity" else "Infinity")
  else if x.magnitude = 0 then "0"
  else NumberLayout.display.write x

def displayBool (b : Bool) : String :=
  if b then "true" else "false"

def displayInt (n : Int) : String :=
  .ofList <|
    if n < 0 then '-' :: Nat.toDigits 10 n.natAbs else Nat.toDigits 10 n.natAbs

theorem isDigit_or_eq_of_mem_displayInt {n : Int} {c : Char} (h : c ∈ (displayInt n).toList) :
    c.isDigit ∨ c = '-' := by
  rw [displayInt, String.toList_ofList] at h
  have hd : c ∈ Nat.toDigits 10 n.natAbs → c.isDigit :=
    Nat.isDigit_of_mem_toDigits (by decide) (by decide)
  split at h
  case isTrue  => exact (List.mem_cons.mp h).symm.imp_left hd
  case isFalse => exact .inl (hd h)

theorem displayInt_ne_empty (n : Int) : displayInt n ≠ "" := by
  rw [displayInt, Ne, ← String.ofList_nil, String.ofList_inj]
  split
  case isTrue  => exact List.cons_ne_nil _ _
  case isFalse => exact Nat.toDigits_ne_nil

theorem ne_displayInt {n : Int} {s : String}
    (h : ¬s.toList.all fun c => c.isDigit || c = '-') : s ≠ displayInt n := by
  rintro rfl
  exact h (by simpa using fun c => isDigit_or_eq_of_mem_displayInt)

theorem displayBool_ne_displayInt (b : Bool) (n : Int) : displayBool b ≠ displayInt n := by
  cases b <;> exact ne_displayInt (by decide)

theorem displayBool_inj {b c : Bool} (h : displayBool b = displayBool c) : b = c := by
  revert b c
  decide

theorem displayInt_inj {m n : Int} (h : displayInt m = displayInt n) : m = n := by
  have sign : ∀ n : Nat, '-' ∉ Nat.toDigits 10 n := by
    intro n hm
    exact absurd (Nat.isDigit_of_mem_toDigits (by decide) (by decide) hm) (by decide)
  have digits : ∀ {m n : Nat}, Nat.toDigits 10 m = Nat.toDigits 10 n → m = n := by
    intro m n h
    simpa only [Nat.ofDigitChars_ten_toDigits] using congrArg (Nat.ofDigitChars 10 · 0) h
  rw [displayInt, displayInt, String.ofList_inj] at h
  split at h <;> split at h
  case isTrue.isTrue =>
    have := digits (List.tail_eq_of_cons_eq h)
    omega
  case isTrue.isFalse => exact absurd (h ▸ List.mem_cons_self) (sign _)
  case isFalse.isTrue => exact absurd (h.symm ▸ List.mem_cons_self) (sign _)
  case isFalse.isFalse =>
    have := digits h
    omega

namespace Value

def toNumber : Value ε → Binary64
  | undefined => .nan
  | null      => .zero
  | boolean b => if b then .one else .zero
  | integer n => .ofInt n
  | decimal x => x
  | string s  => Numeral.value s
  | array _   => .nan
  | object _  => .nan

mutual

-- The text of a value where a string is wanted. Elements of an array that are no values, or
-- nullish ones, leave their places empty.
def display : Value Expr → String
  | undefined => "undefined"
  | null      => "null"
  | boolean b => displayBool b
  | integer n => displayInt n
  | decimal x => x.display
  | string s  => s
  | array es  => ",".intercalate (displayItems es)
  | object _  => "[object Object]"
termination_by structural v => v

def displayItems : List Expr → List String
  | []      => []
  | e :: es => displayItem e :: displayItems es
termination_by structural es => es

def displayItem : Expr → String
  | .constant v => if v.isNullish then "" else v.display
  | _           => ""
termination_by structural e => e

end

end Value

example : Binary64.display (.ofDecimal false 1 21) = "1e+21" := by decide +kernel
example : Binary64.display (.ofDecimal true 123 18) = "-123000000000000000000" := by decide +kernel
example : Binary64.display (.ofDecimal false 15 (-8)) = "1.5e-7" := by decide +kernel
example : Binary64.display (.ofDecimal false 15 (-7)) = "0.0000015" := by decide +kernel

end BindingAlgebra
