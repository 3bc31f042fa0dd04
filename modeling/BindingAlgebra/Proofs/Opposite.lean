import BindingAlgebra.Proofs.Distinct
import BindingAlgebra.Proofs.Negation

namespace BindingAlgebra.Expr

open List

-- Two expressions are opposites if one equals the negation of the other. Among normal expressions
-- that are no constants it does not matter which one is negated.

variable {op : LogicalOperator} {e f : Expr} {es : List Expr}

theorem negateAtom_negateAtom (h : e.isComparison) : negateAtom (negateAtom e) = e := by
  obtain ⟨op, l, r, rfl⟩ := isComparison_iff.mp h
  simp [negateAtom, ComparisonOperator.negate_negate]

theorem negate_negate (h : Normal e) (hc : ¬e.isConstant) : negate (negate e) = e := by
  cases negated e
  case whole hn => rw [negate_of_normalNegation hn h]; rfl
  case constant => exact absurd rfl hc
  case negation d =>
    have hd : NormalNegation d := h.node
    exact negate_of_normalNegation hd (h.child mem_cons_self)
  case comparison => simp [negate, negateAtom, ComparisonOperator.negate_negate]
  case comparisons es op hs =>
    have hm : ∀ f ∈ es.map negateAtom, f.isComparison :=
      forall_mem_map.mpr fun e he => isComparison_negateAtom (hs e he)
    have hi : (es.map negateAtom).map negateAtom = es := by
      rw [map_map]
      exact (map_congr_left fun e he => negateAtom_negateAtom (hs e he)).trans (map_id es)
    rw [negate_comparisons h hs, negate_comparisons (h.map_negateAtom hs) hm, hi, op.dual_dual]

theorem not_isConstant_negate (h : Normal e) (hc : ¬e.isConstant) : ¬(negate e).isConstant := by
  intro hn
  obtain ⟨v, hv⟩ := isConstant_iff.mp hn
  have he := negate_negate h hc
  rw [hv] at he
  exact hc (he ▸ rfl)

theorem not_same_negate (h : Normal e) (hc : ¬e.isConstant) : ¬(negate e).same e := by
  intro hs
  cases negated e
  case whole hn =>
    rw [negate_of_normalNegation hn h] at hs
    have hk := kind_eq_of_same hs
    cases e <;> simp [kind] at hk
    case not d => exact hn.not_negation d rfl
  case constant => exact hc rfl
  case negation d =>
    have hd : NormalNegation d := h.node
    have hk : d.kind = .not := kind_eq_of_same hs
    cases d <;> simp [kind] at hk
    case not d => exact hd.not_negation d rfl
  case comparison op l r =>
    cases op <;> simp [negate, negateAtom, same, ComparisonOperator.negate] at hs
  case comparisons es op hs' =>
    rw [negate_comparisons h hs'] at hs
    cases op <;> simp [same, LogicalOperator.dual] at hs

theorem opposite_symm (he : Normal e) (hc : ¬e.isConstant) (h : (negate e).same f) :
    (negate f).same e := by
  have hn := same_negate h
  rw [negate_negate he hc] at hn
  exact same_symm hn

-- So opposites among operands are found in whichever order the operands come.
theorem hasOpposite_iff (hn : ∀ e ∈ es, Normal e) (hc : ∀ e ∈ es, ¬e.isConstant) :
    hasOpposite negate es ↔ ∃ e ∈ es, ∃ f ∈ es, (negate e).same f := by
  constructor
  case mp => exact exists_of_hasOpposite
  case mpr =>
    rintro ⟨e, he, f, hf, h⟩
    induction es
    case nil => simp at he
    case cons d es ih =>
      have hd := hn d mem_cons_self
      have hdc := hc d mem_cons_self
      rw [hasOpposite, Bool.or_eq_true, any_eq_true]
      rcases mem_cons.mp he with rfl | hes <;> rcases mem_cons.mp hf with rfl | hfs
      case inl.inl => exact absurd h (not_same_negate hd hdc)
      case inl.inr => exact .inl ⟨f, hfs, h⟩
      case inr.inl => exact .inl ⟨e, hes, opposite_symm (hn e he) (hc e he) h⟩
      case inr.inr =>
        have hi := ih fun d hm => hn d (mem_cons_of_mem _ hm)
        exact .inr (hi (fun d hm => hc d (mem_cons_of_mem _ hm)) hes hfs)

theorem hasOpposite_distinct_iff (hn : ∀ e ∈ es, Normal e) (hc : ∀ e ∈ es, ¬e.isConstant) :
    hasOpposite negate (distinct es) ↔ ∃ e ∈ es, ∃ f ∈ es, (negate e).same f := by
  have hd := (distinct_sublist es).subset
  rw [hasOpposite_iff (fun e he => hn e (hd he)) (fun e he => hc e (hd he))]
  constructor
  case mp =>
    rintro ⟨e, he, f, hf, h⟩
    exact ⟨e, hd he, f, hd hf, h⟩
  case mpr =>
    rintro ⟨e, he, f, hf, h⟩
    obtain ⟨e', he', h⟩ : ∃ e' ∈ distinct es, (negate e').same f := by
      rcases mem_distinct_or_same he with he' | ⟨e', he', hs⟩
      case inl => exact ⟨e, he', h⟩
      case inr => exact ⟨e', he', same_trans (same_negate hs) h⟩
    rcases mem_distinct_or_same hf with hf' | ⟨f', hf', hs⟩
    case inl => exact ⟨e', he', f, hf', h⟩
    case inr => exact ⟨e', he', f', hf', same_trans h (same_symm hs)⟩

end BindingAlgebra.Expr
