namespace BindingAlgebra

-- A double-precision number as its sign and the remaining 63 bits of its encoding, read as a
-- natural number. Among numbers of one sign the encoding grows with the number, so that order and
-- equality need no arithmetic on significands. All magnitudes above that of infinity encode
-- "not a number".
structure Binary64 where
  negative  : Bool
  magnitude : Nat
  deriving DecidableEq, Repr

namespace Binary64

-- The place value of the sign, and that of the least bit of the exponent.
def signPlace : Nat := 0x8000000000000000

def exponentPlace : Nat := 0x10000000000000

def infinityMagnitude : Nat := 0x7FF0000000000000

def zero : Binary64 := ⟨false, 0⟩

def one : Binary64 := ⟨false, 0x3FF0000000000000⟩

def nan : Binary64 := ⟨false, 0x7FF8000000000000⟩

def isNaN (x : Binary64) : Bool :=
  infinityMagnitude < x.magnitude

def isInfinite (x : Binary64) : Bool :=
  x.magnitude = infinityMagnitude

-- The 64 bits of the encoding.
def ofBits (bits : UInt64) : Binary64 where
  negative  := signPlace ≤ bits.toNat
  magnitude := bits.toNat % signPlace

def toBits (x : Binary64) : UInt64 :=
  .ofNat <| (if x.negative then signPlace else 0) + x.magnitude

-- The place of a number on the line of all numbers. Both zeros share one place, and what is not a
-- number has none.
def rank? (x : Binary64) : Option Int :=
  if x.isNaN then none else some (if x.negative then -x.magnitude else x.magnitude)

-- Numeric equality: `0.0` equals `-0.0`, and `NaN` equals nothing.
def equals (x y : Binary64) : Bool :=
  match x.rank?, y.rank? with
  | some r, some s => r == s
  | _, _           => false

def order? (x y : Binary64) : Option Ordering :=
  match x.rank?, y.rank? with
  | some r, some s => some (compare r s)
  | _, _           => none

-- A finite number is `significand * 2 ^ exponent`, up to its sign. Below the least power of two
-- with a full significand all numbers share one exponent.
def significand (x : Binary64) : Nat :=
  x.magnitude % exponentPlace + (if x.magnitude < exponentPlace then 0 else exponentPlace)

def exponent (x : Binary64) : Int :=
  (max (x.magnitude / exponentPlace) 1 : Nat) - 1075

theorem equals_comm (x y : Binary64) : x.equals y = y.equals x := by
  cases hx : x.rank? <;> cases hy : y.rank? <;> simp [equals, hx, hy, Bool.beq_comm]

theorem equals_trans {x y z : Binary64} (h₁ : x.equals y) (h₂ : y.equals z) : x.equals z := by
  cases hx : x.rank? <;> cases hy : y.rank? <;> cases hz : z.rank? <;>
    simp_all [equals]

theorem equals_self_iff (x : Binary64) : x.equals x ↔ x.isNaN = false := by
  by_cases h : x.isNaN <;> simp [equals, rank?, h]

end Binary64
end BindingAlgebra
