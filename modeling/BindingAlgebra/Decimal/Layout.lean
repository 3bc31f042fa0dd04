import BindingAlgebra.Decimal.Shortest

namespace BindingAlgebra

-- The decisions of a number format: between which leading exponents a number is written without an
-- exponent of its own, what follows a whole number there, and how a tie between digits goes.
structure NumberLayout where
  least     : Int
  most      : Int
  wholeMark : List Char
  tie       : Tie

namespace NumberLayout

private def zeros (n : Int) : List Char :=
  .replicate n.toNat '0'

def positional (l : NumberLayout) (d : Decimal) : List Char :=
  let whole := (d.leading + 1).toNat
  if d.leading < 0 then '0' :: '.' :: zeros (-d.leading - 1) ++ d.digits
  else if d.digits.length ≤ whole then
    d.digits ++ zeros (whole - d.digits.length) ++ l.wholeMark
  else d.digits.take whole ++ '.' :: d.digits.drop whole

def scientific (d : Decimal) : List Char :=
  let mark := if d.leading < 0 then '-' else '+'
  let mantissa :=
    match d.digits with
    | first :: second :: rest => first :: '.' :: second :: rest
    | digits => digits
  mantissa ++ 'e' :: mark :: Nat.toDigits 10 d.leading.natAbs

-- The text of a finite number other than zero.
def write (l : NumberLayout) (x : Binary64) : String :=
  let d    := Decimal.shortest l.tie x
  let text := if l.least ≤ d.leading ∧ d.leading ≤ l.most then l.positional d else scientific d
  .ofList <| if x.negative then '-' :: text else text

def isNumeralChar (c : Char) : Bool :=
  c.isDigit || c ∈ ['.', '-', '+', 'e']

section Characters

variable {l : NumberLayout} {d : Decimal}

theorem isNumeralChar_of_isDigit {c : Char} (h : c.isDigit) : isNumeralChar c := by
  simp [isNumeralChar, h]

theorem isNumeralChar_of_mem_positional (hl : ∀ c ∈ l.wholeMark, isNumeralChar c)
    (hd : ∀ c ∈ d.digits, isNumeralChar c) : ∀ c ∈ l.positional d, isNumeralChar c := by
  have hz : ∀ n, ∀ c ∈ zeros n, isNumeralChar c := by
    intro n c hc
    rw [(List.mem_replicate.mp hc).right]
    rfl
  have h0 : isNumeralChar '0' := rfl
  have hp : isNumeralChar '.' := rfl
  simp only [positional]
  split
  case isTrue =>
    simp only [List.forall_mem_append, List.forall_mem_cons]
    exact ⟨⟨h0, hp, hz _⟩, hd⟩
  case isFalse =>
    split
    case isTrue =>
      simp only [List.forall_mem_append]
      exact ⟨⟨hd, hz _⟩, hl⟩
    case isFalse =>
      simp only [List.forall_mem_append, List.forall_mem_cons]
      exact ⟨fun c hc => hd c (List.mem_of_mem_take hc), hp,
        fun c hc => hd c (List.mem_of_mem_drop hc)⟩

theorem isNumeralChar_of_mem_scientific (hd : ∀ c ∈ d.digits, isNumeralChar c) :
    ∀ c ∈ scientific d, isNumeralChar c := by
  simp only [scientific, List.forall_mem_append, List.forall_mem_cons]
  refine ⟨?_, rfl, ?_, fun c hc => isNumeralChar_of_isDigit ?_⟩
  case refine_1 =>
    split
    case h_1 hs =>
      simp only [hs, List.forall_mem_cons] at hd ⊢
      exact ⟨hd.left, rfl, hd.right⟩
    case h_2 => exact hd
  case refine_2 => split <;> rfl
  case refine_3 => exact Nat.isDigit_of_mem_toDigits (by decide) (by decide) hc

theorem isNumeralChar_of_mem_write (hl : ∀ c ∈ l.wholeMark, isNumeralChar c) (x : Binary64) :
    ∀ c ∈ (l.write x).toList, isNumeralChar c := by
  intro c hc
  let d := Decimal.shortest l.tie x
  have hd : ∀ c ∈ d.digits, isNumeralChar c :=
    fun c hc => isNumeralChar_of_isDigit (Decimal.isDigit_of_mem_shortest l.tie x c hc)
  have hm : c = '-' ∨ c ∈ l.positional d ∨ c ∈ scientific d := by
    simp only [write, String.toList_ofList] at hc
    grind
  rcases hm with rfl | hm | hm
  case inl => rfl
  case inr.inl => exact isNumeralChar_of_mem_positional hl hd c hm
  case inr.inr => exact isNumeralChar_of_mem_scientific hd c hm

end Characters

end NumberLayout
end BindingAlgebra
