import BindingAlgebra.Proofs.Choice
import BindingAlgebra.Proofs.Valuation

namespace BindingAlgebra.Expr

open List

namespace Interpretation

variable {ν : Type u} (i : Interpretation ν) {c t f c' t' f' e : Expr}

-- A conditional keeps its value, and not only its truth, through all rules by which it is simplified.

theorem value_selected (v : Value Expr) (t f : Expr) :
    i.value (if v.isTruthy then t else f) =
      if i.truth (constant v) then i.value t else i.value f := by
  rw [i.truth_constant, apply_ite i.value]

theorem value_collapse? (h : collapse? c t f = some e)
    (hb : c.isConstant ∨ (∀ b, t ≠ ofBool b) ∧ ∀ b, f ≠ ofBool b) :
    i.value e = if i.truth c then i.value t else i.value f := by
  rcases hb with hc | ⟨ht, hf⟩
  case inl =>
    obtain ⟨v, rfl⟩ := isConstant_iff.mp hc
    cases h
    exact i.value_selected v t f
  case inr =>
    replace h := collapsed_of_collapse? h
    cases h
    case constant v hc => exact hc ▸ i.value_selected v t f
    case same hs => rw [i.value_same hs, ite_self]
    case falseElse h => exact absurd h (hf false)
    case trueElse h => exact absurd h (hf true)
    case falseThen h => exact absurd h (ht false)
    case trueThen h => exact absurd h (ht true)

-- A conditional has the value of the branch that its condition selects. Only where boolean
-- operators stand for a conditional with a boolean branch may its truth be all that is left.
theorem value_choose (hu : ¬hasUnresolvable [c, t, f]) (hc : ¬c.isComplex) (ht : ¬t.isComplex)
    (hf : ¬f.isComplex) (h : canonical c t f = (c', t', f'))
    (hb : c'.isConstant ∨ (∀ b, t' ≠ ofBool b) ∧ ∀ b, f' ≠ ofBool b) :
    i.value (choose c t f) = if i.truth c then i.value t else i.value f := by
  have hx := canonical_not_complex h hc ht hf
  rw [choose, chooseWith_eq hu h, ← i.value_canonical h]
  cases hs : collapse? c' t' f'
  case some => exact i.value_collapse? hs hb
  case none =>
    simp only [hx, Option.getD_none, Bool.or_self, Bool.false_eq_true, if_false]
    exact i.value_ifElse c' t' f'

-- The values that expressions have once the values of inputs are known, up to equality of values.
def ofValuation (v : Valuation) : Interpretation (Value Expr → Bool) where
  value e            := sameValue (v.eval e)
  truth e            := (v.eval e).isTruthy
  value_same h       := funext (Value.sameValue_congr_left (v.sameValue_eval h))
  truth_same h       := Value.isTruthy_congr (v.sameValue_eval h)
  truth_constant _   := by rw [Valuation.eval]
  truth_not _        := by simp [Valuation.eval, Value.isTruthy]
  value_ifElse c t f := by rw [Valuation.eval]; split <;> rfl

-- Since the condition is negated, it is the true branch of the inner conditional that is inlined.
theorem value_choose_approved :
    let small := comparison .lessThan (pathTo "Amount") (ofInt 10)
    let inner := ifElse small (ofString "B") (ofString "C")
    let i     := ofValuation .approved
    i.truth (not small) = false ∧
      i.value (choose (not small) (pathTo "Status") inner) = i.value inner ∧
      i.value inner = sameValue (.string "B") := by
  intro small inner i
  have hs : small.same small := by decide +kernel
  have hc : canonical (not small) (pathTo "Status") inner =
      (small, ofString "B", pathTo "Status") := by
    change (small, whenTrue small inner, pathTo "Status") = _
    rw [whenTrue, if_pos hs]
  have hb : (∀ b, ofString "B" ≠ ofBool b) ∧ ∀ b, pathTo "Status" ≠ ofBool b := by
    simp [ofString, ofBool, pathTo]
  have ht : i.truth small = true := by decide +kernel
  have hn : i.truth (not small) = false := by rw [i.truth_not, ht, Bool.not_true]
  refine ⟨hn, ?_, ?_⟩
  · rw [i.value_choose (by decide) (by decide) (by decide) (by decide) hc (.inr hb), hn]
    exact if_neg Bool.false_ne_true
  · rw [i.value_ifElse, ht]
    rfl

end Interpretation
end BindingAlgebra.Expr
