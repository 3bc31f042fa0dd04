import BindingAlgebra.Proofs.Normal

namespace BindingAlgebra.Expr

open List

-- What a negation meets: an expression that it stands in front of, or one that takes it in.
inductive Negated : Expr → Prop
  | whole : NormalNegation e → Negated e
  | constant (v : Value Expr) : Negated (constant v)
  | negation (e : Expr) : Negated (not e)
  | comparison (op : ComparisonOperator) (l r : Expr) : Negated (comparison op l r)
  | comparisons : (∀ e ∈ es, e.isComparison) → Negated (set op es)

variable {op : LogicalOperator} {e f : Expr} {es : List Expr}

theorem same_negateAtom_iff (he : e.isComparison) (hf : f.isComparison) :
    (negateAtom e).same (negateAtom f) ↔ e.same f := by
  obtain ⟨op, l, r, rfl⟩ := isComparison_iff.mp he
  obtain ⟨op', l', r', rfl⟩ := isComparison_iff.mp hf
  have : op.negate = op'.negate ↔ op = op' := by cases op <;> cases op' <;> decide
  simp [negateAtom, same, this]

theorem pairwise_map_negateAtom (hc : ∀ e ∈ es, e.isComparison) (hd : es.Pairwise (¬same · ·)) :
    (es.map negateAtom).Pairwise (¬same · ·) := by
  refine pairwise_map.mpr <| hd.imp_of_mem fun {e f} he hf hd => ?_
  rwa [same_negateAtom_iff (hc e he) (hc f hf)]

theorem isComparison_negateAtom (h : e.isComparison) : (negateAtom e).isComparison := by
  obtain ⟨op, l, r, rfl⟩ := isComparison_iff.mp h
  rfl

theorem negate_of_isComparison (h : e.isComparison) : negate e = negateAtom e := by
  obtain ⟨op, l, r, rfl⟩ := isComparison_iff.mp h
  rfl

theorem isComparison_not_isConstant (h : e.isComparison) : ¬e.isConstant := by
  obtain ⟨op, l, r, rfl⟩ := isComparison_iff.mp h
  exact nofun

theorem isComparison_ne_set (h : e.isComparison) (es : List Expr) : e ≠ set op es := by
  obtain ⟨op, l, r, rfl⟩ := isComparison_iff.mp h
  exact nofun

theorem NormalSet.map_negateAtom (h : NormalSet op es) (hc : ∀ e ∈ es, e.isComparison) :
    NormalSet op.dual (es.map negateAtom) where
  two_le := by simpa using h.two_le
  not_constant := by
    simp only [mem_map, forall_exists_index, and_imp, forall_apply_eq_imp_iff₂]
    exact fun e he => isComparison_not_isConstant (isComparison_negateAtom (hc e he))
  not_nested := by
    simp only [mem_map, forall_exists_index, and_imp, forall_apply_eq_imp_iff₂]
    exact fun e he => isComparison_ne_set (isComparison_negateAtom (hc e he))
  distinct := pairwise_map_negateAtom hc h.distinct
  no_opposite := by
    refine pairwise_map.mpr <| h.no_opposite.imp_of_mem fun {e f} he hf ho => ?_
    have hn := isComparison_negateAtom (hc e he)
    rwa [negate_of_isComparison hn, same_negateAtom_iff hn (hc f hf),
      ← negate_of_isComparison (hc e he)]

theorem Normal.negateAtom (h : Normal e) (hc : e.isComparison) : Normal (negateAtom e) := by
  obtain ⟨op, l, r, rfl⟩ := isComparison_iff.mp hc
  exact ⟨h.node, fun _ => h.child⟩

theorem Normal.map_negateAtom (h : Normal (set op es)) (hc : ∀ e ∈ es, e.isComparison) :
    Normal (set op.dual (es.map Expr.negateAtom)) := by
  have hs : NormalSet op es := h.node
  refine ⟨hs.map_negateAtom hc, fun d hd => ?_⟩
  obtain ⟨e, he, rfl⟩ := mem_map.mp hd
  exact (h.child he).negateAtom (hc e he)

theorem negate_comparisons (h : Normal (set op es)) (hc : ∀ e ∈ es, e.isComparison) :
    negate (set op es) = set op.dual (es.map negateAtom) := by
  rw [negate_set fun e he => .inr (hc e he), setOf_eq_set (h.map_negateAtom hc)]

theorem negated (e : Expr) : Negated e := by
  by_cases h : NormalNegation e
  case pos => exact .whole h
  case neg =>
    cases e
    case constant v => exact .constant v
    case not d => exact .negation d
    case comparison op l r => exact .comparison op l r
    case set op es =>
      apply Negated.comparisons
      by_contra hc
      simp only [not_forall] at hc
      have ⟨d, hd, hc⟩ := hc
      exact h ⟨nofun, nofun, nofun, by rintro _ _ ⟨⟩; exact ⟨d, hd, hc⟩⟩
    all_goals exact absurd ⟨nofun, nofun, nofun, nofun⟩ h

theorem negate_of_normalNegation (h : NormalNegation e) (he : Normal e) : negate e = not e :=
  negate_eq_not ⟨h, by simpa [children] using he⟩

theorem Normal.negate (h : Normal e) : Normal (negate e) := by
  cases negated e
  case whole hn =>
    rw [negate_of_normalNegation hn h]
    exact ⟨hn, by simpa [children] using h⟩
  case constant v => exact .constant _
  case negation => exact h.child mem_cons_self
  case comparison => exact ⟨h.node, fun _ => h.child⟩
  case comparisons hc =>
    rw [negate_comparisons h hc]
    exact h.map_negateAtom hc

end BindingAlgebra.Expr
