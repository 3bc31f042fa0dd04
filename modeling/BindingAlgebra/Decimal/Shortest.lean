import BindingAlgebra.Binary64.Rounding

namespace BindingAlgebra

-- A positive number in decimal notation: its digits, which neither begin nor end with a zero, and
-- the power of ten that the first of them counts.
structure Decimal where
  digits  : List Char
  leading : Int
  deriving DecidableEq, Repr

-- What becomes of a number that lies halfway between two decimals of equal length.
inductive Tie where
  | up
  | even
  deriving DecidableEq, Repr

-- The exponent `e` with `10 ^ e ≤ n / d < 10 ^ (e + 1)`, for positive `n` and `d`.
def ratioLog10 (n d : Nat) : Int :=
  let e : Int := (Nat.toDigits 10 n).length - (Nat.toDigits 10 d).length
  if n * tenPow (-e).toNat < d * tenPow e.toNat then e - 1 else e

-- The reals that round to one positive double, in units of `2 ^ scale`. The ends belong to the
-- interval if they round to the double as well, which ties to even decide.
structure RoundingInterval where
  lower  : Nat
  centre : Nat
  upper  : Nat
  scale  : Int
  closed : Bool

-- Below a power of two the doubles lie twice as close as above it.
def Binary64.roundingInterval (x : Binary64) : RoundingInterval :=
  let m := x.significand
  {
    lower  := if m = Binary64.exponentPlace ∧ -1074 < x.exponent then 4 * m - 1 else 4 * m - 2
    centre := 4 * m
    upper  := 4 * m + 2
    scale  := x.exponent - 2
    closed := m % 2 = 0
  }

namespace RoundingInterval

-- A multiple of `2 ^ scale` and the step of the grid of multiples of `10 ^ position`, both brought
-- to one unit.
def scaled (i : RoundingInterval) (position : Int) (n : Nat) : Nat :=
  n * twoPow i.scale.toNat * tenPow (-position).toNat

def step (i : RoundingInterval) (position : Int) : Nat :=
  twoPow (-i.scale).toNat * tenPow position.toNat

def covers (i : RoundingInterval) (position : Int) (n : Nat) : Bool :=
  let lower := i.scaled position i.lower
  let upper := i.scaled position i.upper
  let point := n * i.step position
  if i.closed then lower ≤ point && point ≤ upper else lower < point && point < upper

-- The point of the grid of multiples of `10 ^ position` that lies in the interval, the one nearest
-- to the centre if there are several. If any point does, one of the two around the centre does.
def gridPoint? (i : RoundingInterval) (tie : Tie) (position : Int) : Option Nat :=
  let centre := i.scaled position i.centre
  let step   := i.step position
  let below  := centre / step
  let rest   := centre % step
  match i.covers position below, i.covers position (below + 1) with
  | false, false => none
  | true,  false => some below
  | false, true  => some (below + 1)
  | true,  true  =>
    if 2 * rest < step then some below
    else if step < 2 * rest then some (below + 1)
    else
      match tie with
      | .up   => some (below + 1)
      | .even => some (below + below % 2)

end RoundingInterval

namespace Decimal

def ofScaled (n : Nat) (position : Int) : Decimal :=
  let digits := Nat.toDigits 10 n
  {
    digits  := (digits.reverse.dropWhile (· = '0')).reverse
    leading := position + digits.length - 1
  }

-- The fewest digits that read back as the given positive finite number, and of those the nearest
-- to it. Seventeen digits always read back, so that the exact expansion is never needed.
def shortest (tie : Tie) (x : Binary64) : Decimal :=
  let i   := x.roundingInterval
  let top := ratioLog10 (i.centre * twoPow i.scale.toNat) (twoPow (-i.scale).toNat)
  let hit := (List.range 17).findSome? fun (n : Nat) =>
    (i.gridPoint? tie (top - n)).map (ofScaled · (top - n))
  hit.getD <|
    ofScaled (i.centre * twoPow i.scale.toNat * Nat.pow 5 (-i.scale).toNat) (min i.scale 0)

theorem isDigit_of_mem_ofScaled (n : Nat) (position : Int) :
    ∀ c ∈ (ofScaled n position).digits, c.isDigit := by
  intro c hc
  simp only [ofScaled, List.mem_reverse] at hc
  have hc := (List.dropWhile_sublist _).subset hc
  exact Nat.isDigit_of_mem_toDigits (by decide) (by decide) (List.mem_reverse.mp hc)

theorem isDigit_of_mem_shortest (tie : Tie) (x : Binary64) :
    ∀ c ∈ (shortest tie x).digits, c.isDigit := by
  simp only [shortest]
  generalize hh : List.findSome? _ _ = hit
  cases hit
  case none => exact isDigit_of_mem_ofScaled _ _
  case some d =>
    obtain ⟨_, _, hd⟩ := List.exists_of_findSome?_eq_some hh
    obtain ⟨_, _, rfl⟩ := Option.map_eq_some_iff.mp hd
    exact isDigit_of_mem_ofScaled _ _

end Decimal

example : Decimal.shortest .up .one = ⟨['1'], 0⟩ := by decide +kernel
example : Decimal.shortest .up ⟨false, 1⟩ = ⟨['5'], -324⟩ := by decide +kernel
example : Decimal.shortest .even (.ofDecimal false 3 (-1)) = ⟨['3'], -1⟩ := by decide +kernel
example : Decimal.shortest .even (.ofDecimal false 1 23) = ⟨['1'], 23⟩ := by decide +kernel

end BindingAlgebra
