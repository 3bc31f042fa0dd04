import BindingAlgebra.Proofs.Operands

namespace BindingAlgebra.Expr

open List

-- What a list of flat operands is folded into, step by step: first its constants count, and then
-- the operands that are left.

variable {neg : Expr → Expr} {op : LogicalOperator} {e : Expr} {es : List Expr}

theorem isConstant_of_absorbs (h : absorbs op e) : e.isConstant := by
  cases e <;> simp_all [absorbs, isConstant, kind]

theorem not_isConstant_of_mem_filter (h : e ∈ es.filter (!·.isConstant)) : ¬e.isConstant := by
  simpa using (mem_filter.mp h).right

theorem foldSet_absorbed (hl : es.length ≠ 1) (ha : ∃ e ∈ es, absorbs op e) :
    foldSet neg op es = ofBool op.absorbing := by
  unfold foldSet
  split
  case h_1 => exact absurd rfl hl
  case h_2 => rw [if_pos (any_eq_true.mpr ha)]

theorem foldSet_pending (hl : 2 ≤ es.length) (hc : ∀ e ∈ es, ¬e.isConstant) :
    foldSet neg op es = if hasOpposite neg es then ofBool op.absorbing else set op es := by
  have hf : es.filter (!·.isConstant) = es := by simpa using hc
  have ha : ¬es.any (absorbs op) := by
    simp only [any_eq_true, not_exists, not_and]
    exact fun e he ha => hc e he (isConstant_of_absorbs ha)
  rcases es with _ | ⟨d, _ | ⟨e, es⟩⟩
  case nil | cons.nil => simp at hl
  case cons.cons => simp only [foldSet, if_neg ha, hf]

theorem foldSet_opposite (hc : ∀ e ∈ es, ¬e.isConstant) (h : hasOpposite neg es) :
    foldSet neg op es = ofBool op.absorbing := by
  rcases es with _ | ⟨d, _ | ⟨e, es⟩⟩
  case nil | cons.nil => simp [hasOpposite] at h
  case cons.cons => rw [foldSet_pending (by simp) hc, if_pos h]

-- Constants that do not decide a set do not matter to it.
theorem foldSet_filter (hl : es.length ≠ 1) (ha : ∀ e ∈ es, ¬absorbs op e) :
    foldSet neg op es = foldSet neg op (es.filter (!·.isConstant)) := by
  have hn : ¬es.any (absorbs op) := by simpa using ha
  have hp : ∀ e ∈ es.filter (!·.isConstant), ¬e.isConstant :=
    fun _ => not_isConstant_of_mem_filter
  generalize hs : es.filter (!·.isConstant) = pending at hp
  rcases pending with _ | ⟨d, _ | ⟨e, pending⟩⟩
  case cons.cons =>
    rw [foldSet_pending (by simp) hp]
    unfold foldSet
    split
    case h_1 => exact absurd rfl hl
    case h_2 => simp only [if_neg hn, hs]
  all_goals
    unfold foldSet
    split
    case h_1 => exact absurd rfl hl
    case h_2 => simp [hn, hs]

end BindingAlgebra.Expr
