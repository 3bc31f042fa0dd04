import BindingAlgebra.Proofs.Negation
import BindingAlgebra.Proofs.Visited

namespace BindingAlgebra.Expr

open List

section Relabel

variable {all : Bool} {g : Nat → PathBinding Expr} {n : Nat} {e c t f : Expr} {es : List Expr}

theorem isConstant_relabel (e : Expr) : (e.relabel all g n).isConstant = e.isConstant := by
  rw [isConstant, isConstant, kind_relabel]

theorem isComparison_relabel (e : Expr) : (e.relabel all g n).isComparison = e.isComparison := by
  rw [isComparison, isComparison, kind_relabel]

theorem relabel_eq_constant {v : Value Expr} (h : e.relabel all g n = constant v) :
    e = constant v := by
  have hc : e.isConstant := by rw [← isConstant_relabel, h]; rfl
  obtain ⟨w, rfl⟩ := isConstant_iff.mp hc
  exact h

theorem exists_of_relabel_eq_not {d : Expr} (h : e.relabel all g n = not d) :
    ∃ d', e = not d' := by
  have hk := h ▸ kind_relabel e
  cases e <;> simp [kind] at hk
  exact ⟨_, rfl⟩

theorem exists_of_relabel_eq_set {op : LogicalOperator} (h : e.relabel true g n = set op es) :
    ∃ fs, e = set op fs ∧ es = relabelAll true g n fs := by
  have hk := h ▸ kind_relabel e
  cases e <;> simp [kind] at hk
  case set =>
    cases h
    exact ⟨_, rfl, rfl⟩

theorem exists_of_relabel_eq_ifElse {c' t' f' : Expr} (h : e.relabel true g n = ifElse c' t' f') :
    ∃ c t f, e = ifElse c t f ∧ c' = c.relabel true g n := by
  have hk := h ▸ kind_relabel e
  cases e <;> simp [kind] at hk
  case ifElse =>
    cases h
    exact ⟨_, _, _, rfl, rfl⟩

theorem exists_mem_relabelAll (all : Bool) (g : Nat → PathBinding Expr) (n : Nat) (h : e ∈ es) :
    ∃ m, e.relabel all g m ∈ relabelAll all g n es := by
  induction es generalizing n
  case nil => cases h
  case cons d es ih =>
    cases h
    case head => exact ⟨n, mem_cons_self⟩
    case tail h =>
      have ⟨m, hm⟩ := ih (n + (d.visitedPaths all).length) h
      exact ⟨m, mem_cons_of_mem _ hm⟩

theorem NormalNegation.relabel (h : NormalNegation e) : NormalNegation (e.relabel true g n) where
  not_constant := by simpa only [isConstant_relabel] using h.not_constant
  not_negation d hd := by
    have ⟨d', he⟩ := exists_of_relabel_eq_not hd
    exact h.not_negation d' he
  not_comparison := by simpa only [isComparison_relabel] using h.not_comparison
  not_comparisons op es he := by
    have ⟨fs, he, hes⟩ := exists_of_relabel_eq_set he
    have ⟨d, hd, hc⟩ := h.not_comparisons op fs he
    have ⟨m, hm⟩ := exists_mem_relabelAll true g n hd
    exact ⟨d.relabel true g m, hes ▸ hm, by simpa only [isComparison_relabel] using hc⟩

theorem visitedPaths_negateAtom (h : e.isComparison) :
    (negateAtom e).visitedPaths all = e.visitedPaths all := by
  obtain ⟨op, l, r, rfl⟩ := isComparison_iff.mp h
  rfl

theorem relabel_negateAtom (h : e.isComparison) :
    (negateAtom e).relabel all g n = negateAtom (e.relabel all g n) := by
  obtain ⟨op, l, r, rfl⟩ := isComparison_iff.mp h
  cases all <;> rfl

theorem relabelAll_negateAtom (h : ∀ e ∈ es, e.isComparison) :
    relabelAll all g n (es.map negateAtom) = (relabelAll all g n es).map negateAtom := by
  induction es generalizing n
  case nil => rfl
  case cons e es ih =>
    have he := h e mem_cons_self
    simp only [map_cons, relabelAll, relabel_negateAtom he, visitedPaths_negateAtom he,
      ih fun f hf => h f (mem_cons_of_mem _ hf)]

theorem visitedPathsAll_negateAtom (h : ∀ e ∈ es, e.isComparison) :
    visitedPathsAll all (es.map negateAtom) = visitedPathsAll all es := by
  induction es
  case nil => rfl
  case cons e es ih =>
    simp only [map_cons, visitedPathsAll, visitedPaths_negateAtom (h e mem_cons_self),
      ih fun f hf => h f (mem_cons_of_mem _ hf)]

theorem visitedPaths_negate (h : Normal e) :
    (negate e).visitedPaths true = e.visitedPaths true := by
  cases negated e
  case whole hn =>
    rw [negate_of_normalNegation hn h]
    rfl
  case constant | negation | comparison => rfl
  case comparisons hc =>
    rw [negate_comparisons h hc]
    exact visitedPathsAll_negateAtom hc

-- Negation does not look at paths.
theorem negate_relabel (h : Normal e) (hr : Normal (e.relabel true g n)) :
    negate (e.relabel true g n) = (negate e).relabel true g n := by
  cases negated e
  case whole hn =>
    rw [negate_of_normalNegation hn h, negate_of_normalNegation hn.relabel hr]
    rfl
  case constant | negation | comparison => rfl
  case comparisons es op hc =>
    have hc' : ∀ e ∈ relabelAll true g n es, e.isComparison := by
      intro e he
      have ⟨d, hd, m, _, he⟩ := mem_relabelAll he
      rw [he, isComparison_relabel]
      exact hc d hd
    rw [negate_comparisons h hc]
    exact (negate_comparisons hr hc').trans (congrArg _ (relabelAll_negateAtom hc).symm)

section Normal

variable (hg : ∀ i j, samePath (g i) (g j) → i = j)

include hg

theorem NormalSet.relabelAll {op : LogicalOperator} (h : NormalSet op es)
    (hn : ∀ e ∈ es, Normal e) (hr : ∀ e ∈ es, ∀ n, Normal (e.relabel true g n)) :
    NormalSet op (relabelAll true g n es) where
  two_le := by simpa only [length_relabelAll] using h.two_le
  not_constant e he := by
    have ⟨d, hd, m, _, he⟩ := mem_relabelAll he
    rw [he, isConstant_relabel]
    exact h.not_constant d hd
  not_nested e he fs hs := by
    have ⟨d, hd, m, _, he⟩ := mem_relabelAll he
    have ⟨gs, hd', _⟩ := exists_of_relabel_eq_set (he ▸ hs)
    exact h.not_nested d hd gs hd'
  distinct := pairwise_relabelAll h.distinct fun _ _ _ _ _ _ hm hd hs =>
    hd (same_of_same_relabel hg hm hs)
  no_opposite := pairwise_relabelAll h.no_opposite fun e he _ _ n _ hm ho hs => by
    rw [negate_relabel (hn e he) (hr e he n)] at hs
    rw [← visitedPaths_negate (hn e he)] at hm
    exact ho (same_of_same_relabel hg hm hs)

theorem NormalChoice.relabel (h : NormalChoice c t f) {n' n'' : Nat}
    (hn : n' = n + (c.visitedPaths true).length) (hn' : n'' = n' + (t.visitedPaths true).length) :
    NormalChoice (c.relabel true g n) (t.relabel true g n') (f.relabel true g n'') where
  not_constant := by simpa only [isConstant_relabel] using h.not_constant
  not_negation d hd := by
    have ⟨d', hc⟩ := exists_of_relabel_eq_not hd
    exact h.not_negation d' hc
  then_asks c' t' f' ht hs := by
    have ⟨d, t₀, f₀, ht, hc⟩ := exists_of_relabel_eq_ifElse ht
    rw [hc] at hs
    have := same_of_same_relabel hg (by omega) (same_symm hs)
    exact h.then_asks d t₀ f₀ ht (same_symm this)
  else_asks c' t' f' hf hs := by
    have ⟨d, t₀, f₀, hf, hc⟩ := exists_of_relabel_eq_ifElse hf
    rw [hc] at hs
    have := same_of_same_relabel hg (by omega) (same_symm hs)
    exact h.else_asks d t₀ f₀ hf (same_symm this)
  distinct hs := h.distinct (same_of_same_relabel hg (by omega) hs)
  then_boolean b hb := h.then_boolean b (relabel_eq_constant hb)
  else_boolean b hb := h.else_boolean b (relabel_eq_constant hb)
  not_complex := by simpa only [isComplex_relabel] using h.not_complex

end Normal

theorem NormalConcat.relabelAll (h : NormalConcat es) : NormalConcat (relabelAll all g n es) where
  pending := by
    have ⟨e, he, hc⟩ := h.pending
    have ⟨m, hm⟩ := exists_mem_relabelAll all g n he
    exact ⟨e.relabel all g m, hm, by simpa only [isConstant_relabel] using hc⟩
  not_complex e he := by
    have ⟨d, hd, m, _, he⟩ := mem_relabelAll he
    rw [he, isComplex_relabel]
    exact h.not_complex d hd

theorem normalNode_relabel (hg : ∀ i j, samePath (g i) (g j) → i = j) (h : Normal e)
    (hr : ∀ c ∈ e.children, ∀ n, Normal (c.relabel all g n)) : NormalNode (e.relabel all g n) := by
  have hn := h.node
  cases e
  case unresolvable => exact hn
  case set op es =>
    cases all
    case false => exact hn
    case true  => exact NormalSet.relabelAll hg hn (fun _ => h.child) hr
  case not e =>
    cases all
    case false => exact hn
    case true  => exact NormalNegation.relabel hn
  case truthy e =>
    cases all
    case false => exact hn
    case true  => simpa only [relabel, NormalNode, isConstant_relabel, if_true] using hn
  case comparison op l r =>
    cases all
    case false => exact hn
    case true  => simpa only [relabel, NormalNode, isConstant_relabel, if_true] using hn
  case ifElse c t f =>
    cases all
    case false => exact hn
    case true  => exact NormalChoice.relabel hg hn rfl rfl
  case concat es => exact NormalConcat.relabelAll hn
  case length e => exact hn
  case call receiver _ _ => cases receiver <;> trivial
  all_goals trivial

-- Trees stay normal when their paths are labelled anew, each with a label of its own.
theorem Normal.relabel (hg : ∀ i j, samePath (g i) (g j) → i = j) (h : Normal e) :
    Normal (e.relabel all g n) := by
  induction h generalizing n
  case intro e hn hc ih =>
    refine ⟨normalNode_relabel hg ⟨hn, hc⟩ fun c hc _ => ih c hc, ?_⟩
    intro c hm
    cases meeting all e
    case path b => cases hm
    case enter he =>
      rw [children_relabel he] at hm
      have ⟨d, hd, m, _, hc⟩ := mem_relabelAll hm
      rw [hc]
      exact ih d hd
    case leave hp he =>
      rw [relabel_of_not_entered hp he] at hm
      exact hc c hm

end Relabel
end BindingAlgebra.Expr
