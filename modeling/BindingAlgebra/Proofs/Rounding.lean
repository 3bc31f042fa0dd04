import BindingAlgebra.Value.Order
import Mathlib.Algebra.Group.Nat.Defs
import Mathlib.Order.Monotone.Defs
import Mathlib.Tactic.SplitIfs

namespace BindingAlgebra

section RoundDiv

variable {m n : Nat}

theorem div_le_roundDiv (n d : Nat) : n / d ≤ roundDiv n d := by
  unfold roundDiv
  split_ifs <;> omega

theorem roundDiv_le_div_succ (n d : Nat) : roundDiv n d ≤ n / d + 1 := by
  unfold roundDiv
  split_ifs <;> omega

theorem roundDiv_mono (h : m ≤ n) (d : Nat) : roundDiv m d ≤ roundDiv n d := by
  rcases Nat.lt_or_eq_of_le (Nat.div_le_div_right h : m / d ≤ n / d) with hq | hq
  case inl =>
    calc roundDiv m d ≤ m / d + 1    := roundDiv_le_div_succ m d
      _               ≤ n / d        := hq
      _               ≤ roundDiv n d := div_le_roundDiv n d
  case inr =>
    have hr : m % d ≤ n % d := by
      have hm := Nat.div_add_mod m d
      have hn := Nat.div_add_mod n d
      rw [hq] at hm
      omega
    unfold roundDiv
    rw [hq]
    split_ifs <;> omega

end RoundDiv

namespace Binary64

-- The magnitude that the integers `n` and `-n` are rounded to.
def integerMagnitude (n : Nat) : Nat :=
  if n = 0 then 0 else ratioMagnitude n 1

-- The significand of a positive integer, which is rounded if it has more than 53 bits.
def roundedSignificand (n : Nat) : Nat :=
  roundDiv (n * 2 ^ (52 - n.log2)) (2 ^ (n.log2 - 52))

section Magnitude

variable {m n : Nat}

theorem ratioLog2_one (hn : n ≠ 0) : ratioLog2 n 1 = n.log2 := by
  have h1 : Nat.log2 1 = 0 := rfl
  have hz : (-(n.log2 : Int)).toNat = 0 := by omega
  have hl : ¬n < 2 ^ n.log2 := Nat.not_lt.mpr (Nat.log2_self_le hn)
  simp [ratioLog2, twoPow, h1, hz, hl]

theorem integerMagnitude_eq (hn : n ≠ 0) :
    integerMagnitude n =
      min infinityMagnitude ((n.log2 + 1022) * exponentPlace + roundedSignificand n) := by
  have hq : max ((n.log2 : Int) - 52) (-1074) = n.log2 - 52 := by omega
  have h₁ : ((n.log2 : Int) - 52 + 1074).toNat = n.log2 + 1022 := by omega
  have h₂ : (-((n.log2 : Int) - 52)).toNat = 52 - n.log2 := by omega
  have h₃ : ((n.log2 : Int) - 52).toNat = n.log2 - 52 := by omega
  simp only [integerMagnitude, if_neg hn, ratioMagnitude, ratioLog2_one hn, hq, h₁, h₂, h₃, twoPow,
    Nat.pow_eq, Nat.one_mul, roundedSignificand]

theorem integerMagnitude_zero : integerMagnitude 0 = 0 :=
  rfl

-- Before it is rounded, a significand has 53 bits in front of its point.
theorem significand_bounds (hn : n ≠ 0) :
    let quotient := n * 2 ^ (52 - n.log2) / 2 ^ (n.log2 - 52)
    exponentPlace ≤ quotient ∧ quotient < 2 * exponentPlace := by
  intro quotient
  have hp : 0 < 2 ^ (n.log2 - 52) := Nat.two_pow_pos _
  have he : exponentPlace = 2 ^ 52 := rfl
  have hs : 52 + (n.log2 - 52) = n.log2 + (52 - n.log2) := by omega
  constructor
  · rw [Nat.le_div_iff_mul_le hp, he, ← Nat.pow_add, hs, Nat.pow_add]
    exact Nat.mul_le_mul_right _ (Nat.log2_self_le hn)
  · rw [Nat.div_lt_iff_lt_mul hp, he, Nat.mul_assoc, ← Nat.pow_add, hs, Nat.pow_add,
      ← Nat.mul_assoc, Nat.mul_comm 2, ← Nat.pow_succ]
    exact Nat.mul_lt_mul_of_pos_right Nat.lt_log2_self (Nat.two_pow_pos _)

theorem le_roundedSignificand (hn : n ≠ 0) : exponentPlace ≤ roundedSignificand n :=
  Nat.le_trans (significand_bounds hn).left (div_le_roundDiv _ _)

theorem roundedSignificand_le (hn : n ≠ 0) : roundedSignificand n ≤ 2 * exponentPlace :=
  Nat.le_trans (roundDiv_le_div_succ _ _) (significand_bounds hn).right

-- Integers of at most 53 bits are exact.
theorem roundedSignificand_eq (h : n.log2 ≤ 52) : roundedSignificand n = n * 2 ^ (52 - n.log2) := by
  have hz : n.log2 - 52 = 0 := by omega
  rw [roundedSignificand, hz, Nat.pow_zero]
  simpa using roundDiv_mul (n * 2 ^ (52 - n.log2)) Nat.one_pos

theorem log2_le_log2 (hm : m ≠ 0) (h : m ≤ n) : m.log2 ≤ n.log2 := by
  have hn : n ≠ 0 := by omega
  exact (Nat.le_log2 hn).mpr (Nat.le_trans (Nat.log2_self_le hm) h)

theorem integerMagnitude_mono (h : m ≤ n) : integerMagnitude m ≤ integerMagnitude n := by
  by_cases hm : m = 0
  case pos => simp [hm, integerMagnitude_zero]
  case neg =>
    have hn : n ≠ 0 := by omega
    have hm₁ := roundedSignificand_le hm
    have hn₁ := le_roundedSignificand hn
    rw [integerMagnitude_eq hm, integerMagnitude_eq hn]
    refine Nat.le_min.mpr ⟨Nat.min_le_left _ _, Nat.le_trans (Nat.min_le_right _ _) ?_⟩
    rcases Nat.lt_or_eq_of_le (log2_le_log2 hm h) with hl | hl
    case inl => unfold exponentPlace at *; omega
    case inr =>
      unfold roundedSignificand
      rw [hl]
      exact Nat.add_le_add_left (roundDiv_mono (Nat.mul_le_mul_right _ h) _) _

theorem log2_le_of_lt (h : n < 2 ^ 53) : n.log2 ≤ 52 := by
  by_cases hn : n = 0
  case pos => simp [hn]
  case neg => exact Nat.le_of_lt_succ ((Nat.log2_lt hn).mpr h)

-- No integer shares its magnitude with one that needs no rounding.
theorem integerMagnitude_lt (hb : m < 2 ^ 53) (h : m < n) :
    integerMagnitude m < integerMagnitude n := by
  have hn : n ≠ 0 := by omega
  have hn₁ := le_roundedSignificand hn
  by_cases hm : m = 0
  case pos =>
    rw [hm, integerMagnitude_zero, integerMagnitude_eq hn]
    exact Nat.lt_min.mpr ⟨by decide, by unfold exponentPlace at *; omega⟩
  case neg =>
    have hl := log2_le_of_lt hb
    have hm₁ : roundedSignificand m < 2 * exponentPlace := by
      have hz : m.log2 - 52 = 0 := by omega
      have := (significand_bounds hm).right
      rwa [hz, Nat.pow_zero, Nat.div_one, ← roundedSignificand_eq hl] at this
    rw [integerMagnitude_eq hm, integerMagnitude_eq hn]
    refine Nat.lt_of_le_of_lt (Nat.min_le_right _ _) (Nat.lt_min.mpr ⟨?_, ?_⟩)
    · unfold exponentPlace infinityMagnitude at *
      omega
    · rcases Nat.lt_or_eq_of_le (log2_le_log2 hm (Nat.le_of_lt h)) with hlt | he
      case inl => unfold exponentPlace at *; omega
      case inr =>
        rw [roundedSignificand_eq hl, roundedSignificand_eq (he ▸ hl), he]
        exact Nat.add_lt_add_left (Nat.mul_lt_mul_of_pos_right h (Nat.two_pow_pos _)) _

theorem integerMagnitude_pos (hn : 0 < n) : 0 < integerMagnitude n :=
  integerMagnitude_lt (by decide) hn

end Magnitude

-- The place of an integer, once it is rounded, on the line of all numbers.
def integerRank (n : Int) : Int :=
  if n < 0 then -integerMagnitude n.natAbs else integerMagnitude n.natAbs

section Rank

variable {a b : Int}

theorem ofInt_eq (n : Int) : ofInt n = ⟨n < 0, integerMagnitude n.natAbs⟩ := by
  simp [ofInt, integerMagnitude, Int.natAbs_eq_zero]

theorem rank?_ofInt (n : Int) : (ofInt n).rank? = some (integerRank n) := by
  have hi : ¬infinityMagnitude < integerMagnitude n.natAbs := by
    by_cases hn : n.natAbs = 0
    case pos => simp [hn, integerMagnitude_zero]
    case neg =>
      rw [integerMagnitude_eq hn, Nat.not_lt]
      exact Nat.min_le_left _ _
  simp [ofInt_eq, rank?, isNaN, integerRank, hi]

-- Rounding never turns the order of two integers round.
theorem integerRank_mono (h : a ≤ b) : integerRank a ≤ integerRank b := by
  have up   : a.natAbs ≤ b.natAbs → _ := integerMagnitude_mono
  have down : b.natAbs ≤ a.natAbs → _ := integerMagnitude_mono
  unfold integerRank
  split_ifs <;> omega

-- It keeps apart what needs no rounding.
theorem integerRank_lt (ha : a.natAbs ≤ 2 ^ 53) (hb : b.natAbs ≤ 2 ^ 53) (h : a < b) :
    integerRank a < integerRank b := by
  have up   : a.natAbs < 2 ^ 53 → a.natAbs < b.natAbs → _ := integerMagnitude_lt
  have down : b.natAbs < 2 ^ 53 → b.natAbs < a.natAbs → _ := integerMagnitude_lt
  have pos  : 0 < a.natAbs → _ := integerMagnitude_pos
  unfold integerRank
  split_ifs <;> omega

theorem integerRank_inj : integerRank a = integerRank b ↔ ofInt a = ofInt b := by
  constructor
  case mp =>
    intro h
    have ha : 0 < a.natAbs → _ := integerMagnitude_pos
    have hb : 0 < b.natAbs → _ := integerMagnitude_pos
    rw [ofInt_eq, ofInt_eq, mk.injEq, decide_eq_decide]
    unfold integerRank at h
    split_ifs at h <;> omega
  case mpr =>
    intro h
    have hr := rank?_ofInt a
    rw [h, rank?_ofInt] at hr
    exact (Option.some.inj hr).symm

theorem order?_ofInt (a b : Int) :
    (ofInt a).order? (ofInt b) = some (compare (integerRank a) (integerRank b)) := by
  simp only [order?, rank?_ofInt]

end Rank

end Binary64
end BindingAlgebra
