import BindingAlgebra.Binary64.Basic

namespace BindingAlgebra

def twoPow (n : Nat) : Nat :=
  Nat.pow 2 n

def tenPow (n : Nat) : Nat :=
  Nat.pow 10 n

-- The quotient of two naturals to the nearest integer, a tie going to the even one.
def roundDiv (n d : Nat) : Nat :=
  if 2 * (n % d) < d then n / d
  else if d < 2 * (n % d) then n / d + 1
  else n / d + n / d % 2

-- The exponent `e` with `2 ^ e ≤ n / d < 2 ^ (e + 1)`, for positive `n` and `d`.
def ratioLog2 (n d : Nat) : Int :=
  let e : Int := n.log2 - d.log2
  if n * twoPow (-e).toNat < d * twoPow e.toNat then e - 1 else e

namespace Binary64

-- The magnitude nearest to a positive quotient. Its significand has 53 bits, or fewer where the
-- least exponent stops it, and what is rounded up to `2 ^ 53` carries into the exponent by itself.
def ratioMagnitude (n d : Nat) : Nat :=
  let q := max (ratioLog2 n d - 52) (-1074)
  let m := roundDiv (n * twoPow (-q).toNat) (d * twoPow q.toNat)
  min infinityMagnitude ((q + 1074).toNat * exponentPlace + m)

def ofInt (n : Int) : Binary64 where
  negative  := n < 0
  magnitude := if n = 0 then 0 else ratioMagnitude n.natAbs 1

-- The number nearest to `digits * 10 ^ exponent`. Powers far outside the range of the encoding are
-- settled by the count of digits alone.
def ofDecimal (negative : Bool) (digits : Nat) (exponent : Int) : Binary64 where
  negative
  magnitude :=
    let top := (Nat.toDigits 10 digits).length + exponent
    if digits = 0 ∨ top < -330 then 0
    else if 310 < top then infinityMagnitude
    else ratioMagnitude (digits * tenPow exponent.toNat) (tenPow (-exponent).toNat)

end Binary64

theorem roundDiv_mul (n : Nat) {d : Nat} (h : 0 < d) : roundDiv (n * d) d = n := by
  simp [roundDiv, h]

example : Binary64.ofInt 1 = .one := by decide +kernel
example : Binary64.ofInt (2 ^ 53 + 1) = .ofInt (2 ^ 53) := by decide +kernel
example : Binary64.ofDecimal false 5 (-324) = ⟨false, 1⟩ := by decide +kernel
example : Binary64.ofDecimal false 247 (-326) = ⟨false, 0⟩ := by decide +kernel
example : Binary64.ofDecimal true 17976931348623159 292 = ⟨true, Binary64.infinityMagnitude⟩ := by
  decide +kernel

end BindingAlgebra
