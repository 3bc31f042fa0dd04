import BindingAlgebra.Proofs.Completion
import BindingAlgebra.Proofs.Equality
import BindingAlgebra.Proofs.Hoisting

namespace BindingAlgebra.Expr

open List

-- What operations make of what operations have made: nothing, or a normal tree.
def Simplified (e : Expr) : Prop :=
  e = unresolvable ∨ Normal e

namespace Normal

variable {e : Expr} {es : List Expr} {op : LogicalOperator}

-- What sets are folded from: operands that are no sets of the same operator, and all different.
theorem foldSet (hn : ∀ e ∈ es, Normal e) (hs : ∀ e ∈ es, ∀ fs, e ≠ set op fs)
    (hd : es.Pairwise (¬same · ·)) : Normal (foldSet Expr.negate op es) := by
  have hf := folded_foldSet Expr.negate op es
  generalize Expr.foldSet Expr.negate op es = folded at hf
  cases hf
  case single he => exact hn _ (by simp [he])
  case absorbed | none | opposite => exact .constant _
  case last he => exact hn _ (filter_sublist.subset (he ▸ mem_singleton_self _))
  case set ha hl ho =>
    have hp := filter_sublist (l := es) (p := fun e => !e.isConstant)
    refine ⟨?_, fun e he => hn e (hp.subset he)⟩
    exact {
      two_le       := hl
      not_constant := fun e he => by simpa using (mem_filter.mp he).right
      not_nested   := fun e he => hs e (hp.subset he)
      distinct     := hd.sublist hp
      no_opposite  := hasOpposite_eq_false_iff.mp ho
    }

end Normal

section Parameters

-- What is added to the parameters of a call are paths.

variable {p : Expr → Prop} {es : List Expr}

theorem forall_mem_withKeys (keys : Option (List String)) (hp : ∀ b, p (path b))
    (h : ∀ e ∈ es, p e) : ∀ e ∈ withKeys keys es, p e := by
  obtain ⟨keyed, hk⟩ := exists_keyed es keys
  rw [hk.withKeys_eq]
  refine forall_mem_append.mpr ⟨h, fun e he => ?_⟩
  obtain ⟨b, rfl⟩ := hk.exists_path e he
  exact hp b

theorem forall_mem_withLookup (typeName : String) (hp : ∀ b, p (path b)) (h : ∀ e ∈ es, p e) :
    ∀ e ∈ withLookup typeName es, p e := by
  obtain ⟨looked, hl⟩ := exists_lookedUp typeName es
  rw [hl.withLookup_eq]
  refine forall_mem_append.mpr ⟨h, fun e he => ?_⟩
  obtain ⟨b, rfl⟩ := hl.exists_path e he
  exact hp b

end Parameters

namespace Simplified

variable {e c t f l r : Expr} {es : List Expr} {op : LogicalOperator}

theorem normal (h : Simplified e) (hu : e ≠ unresolvable) : Normal e :=
  h.resolve_left hu

theorem all_normal (h : ∀ e ∈ es, Simplified e) (hu : ¬hasUnresolvable es) :
    ∀ e ∈ es, Normal e := by
  intro e he
  apply (h e he).normal
  rintro rfl
  exact hu (hasUnresolvable_iff.mpr he)

theorem ofBool (b : Bool) : Simplified (ofBool b) :=
  .inr (.constant _)

theorem ofString (s : String) : Simplified (ofString s) :=
  .inr (.constant _)

theorem negate (h : Simplified e) : Simplified (negate e) := by
  rcases h with rfl | h
  case inl => exact .inl rfl
  case inr => exact .inr h.negate

theorem truthOf (h : Simplified e) : Simplified (truthOf e) := by
  unfold Expr.truthOf
  split
  case h_1 => exact .inl rfl
  case h_2 => exact ofBool _
  case h_3 hu hc =>
    have hn := h.normal hu
    have hc : ¬e.isConstant := fun he => (isConstant_iff.mp he).elim hc
    exact .inr ⟨hc, by simpa [children] using hn⟩

theorem operandsIn (h : Simplified e) :
    ∀ f ∈ operandsIn op e, Simplified f ∧ ∀ fs, f ≠ set op fs := by
  intro f hf
  rcases mem_operandsIn hf with ⟨rfl, hs⟩ | ⟨fs, rfl, hfs⟩
  case inl => exact ⟨h, hs⟩
  case inr =>
    have hn := h.normal (by simp)
    exact ⟨.inr (hn.child hfs), NormalSet.not_nested hn.node f hfs⟩

theorem flatMap_operandsIn (op : LogicalOperator) (h : ∀ e ∈ es, Simplified e) :
    ∀ f ∈ es.flatMap (Expr.operandsIn op), Simplified f ∧ ∀ fs, f ≠ set op fs := by
  intro f hf
  have ⟨e, he, hfe⟩ := mem_flatMap.mp hf
  exact (h e he).operandsIn f hfe

theorem setOf (op : LogicalOperator) (h : ∀ e ∈ es, Simplified e) : Simplified (setOf op es) := by
  rw [Expr.setOf, setWith]
  split
  case isTrue => exact .inl rfl
  case isFalse hu =>
    have hm : ∀ f ∈ flatten op es, Simplified f ∧ ∀ fs, f ≠ set op fs :=
      fun f hf => flatMap_operandsIn op h f ((distinct_sublist _).subset hf)
    have hn := all_normal (fun f hf => (hm f hf).left) hu
    exact .inr <| .foldSet hn (fun f hf => (hm f hf).right) (distinct_pairwise _)

theorem allOf (h : ∀ e ∈ es, Simplified e) : Simplified (allOf es) :=
  setOf .and h

theorem anyOf (h : ∀ e ∈ es, Simplified e) : Simplified (anyOf es) :=
  setOf .or h

theorem pair (hl : Simplified l) (hr : Simplified r) : ∀ e ∈ [l, r], Simplified e := by
  simp [hl, hr]

theorem relate (op : ComparisonOperator) (hl : Simplified l) (hr : Simplified r) :
    Simplified (relate op l r) := by
  unfold Expr.relate
  split
  case isTrue => exact .inl rfl
  case isFalse hu =>
    split
    case h_1 => exact ofBool _
    case h_2 hc =>
      refine .inr ⟨?_, all_normal (pair hl hr) hu⟩
      rintro ⟨hl, hr⟩
      have ⟨v, hv⟩ := isConstant_iff.mp hl
      have ⟨w, hw⟩ := isConstant_iff.mp hr
      exact hc v w hv hw

theorem equated (h : Equated l r e) (hl : Simplified l) (hr : Simplified r) : Simplified e := by
  induction h
  case unresolvable => exact .inl rfl
  case same | excluded => exact ofBool _
  case holds => exact hl
  case fails => exact hl.negate
  case related => exact hl.relate .equal hr
  case symm ih => exact ih hr hl
  case whenTrue ih =>
    have ⟨hc, _, hf⟩ := (hl.normal (by simp)).branches
    exact anyOf (pair (.inr hc) (ih (.inr hf) hr))
  case whenFalse ih =>
    have ⟨hc, ht, _⟩ := (hl.normal (by simp)).branches
    exact anyOf (pair (.inr hc.negate) (ih (.inr ht) hr))

theorem equal (hl : Simplified l) (hr : Simplified r) : Simplified (equal l r) :=
  equated (equated_equal l r) hl hr

theorem isEmpty (h : Simplified e) : Simplified (isEmpty e) := by
  have hc : ∀ v, Simplified (Expr.equal e (constant v)) := fun v => h.equal (.inr (.constant v))
  exact anyOf (by simpa using ⟨hc _, hc _, hc _⟩)

theorem outline (all : Bool) (h : Simplified e) : Simplified (outline e all) := by
  rw [outline_eq all h]
  refine .inr ⟨trivial, fun c hc => ?_⟩
  simp only [children, mem_cons, mem_map] at hc
  rcases hc with rfl | rfl | ⟨b, _, rfl⟩
  case inr.inr => exact .path b
  all_goals exact .constant _

theorem formatCall (name : String) (h : ∀ e ∈ es, Simplified e) :
    Simplified (formatCall name es) := by
  rw [Expr.formatCall]
  split
  case isTrue => exact .inl rfl
  case isFalse hu =>
    have hn := all_normal h hu
    refine .inr ⟨trivial, fun c hc => ?_⟩
    simp only [children] at hc
    split at hc
    case isTrue => exact hn c hc
    case isFalse =>
      rcases mem_cons.mp hc with rfl | hc
      case inl => exact .constant _
      case inr => exact hn c hc

section Choose

theorem whenTrue_asks (h : Normal e) :
    ∀ c' t f, whenTrue c e = ifElse c' t f → ¬c'.same c := by
  intro c' t f he hc
  rcases whenTrue_cases c e with ⟨d, t', f', rfl, hd, hw⟩ | ⟨hn, hw⟩ <;> rw [hw] at he
  case inl =>
    have hn : NormalChoice d t' f' := h.node
    exact hn.then_asks c' t f he (same_trans hc (same_symm hd))
  case inr => exact hn c' t f he hc

theorem whenFalse_asks (h : Normal e) :
    ∀ c' t f, whenFalse c e = ifElse c' t f → ¬c'.same c := by
  intro c' t f he hc
  rcases whenFalse_cases c e with ⟨d, t', f', rfl, hd, hw⟩ | ⟨hn, hw⟩ <;> rw [hw] at he
  case inl =>
    have hn : NormalChoice d t' f' := h.node
    exact hn.else_asks c' t f he (same_trans hc (same_symm hd))
  case inr => exact hn c' t f he hc

theorem all_normal_three (hu : ¬hasUnresolvable [c, t, f]) (hc : Simplified c)
    (ht : Simplified t) (hf : Simplified f) : Normal c ∧ Normal t ∧ Normal f := by
  have hn : ∀ e ∈ [c, t, f], Normal e := all_normal (by simp [hc, ht, hf]) hu
  simpa using hn

theorem canonical_normal {c' t' f' : Expr} (h : canonical c t f = (c', t', f'))
    (hc : Normal c) (ht : Normal t) (hf : Normal f) : Normal c' ∧ Normal t' ∧ Normal f' := by
  refine canonical_closed ?_ ?_ h hc ht hf
  · exact fun e h => h.child mem_cons_self
  · exact fun _ _ _ h => h.branches.right

theorem canonical_parts {c' t' f' : Expr} (h : canonical c t f = (c', t', f'))
    (hc : Normal c) (ht : Normal t) (hf : Normal f) :
    (∀ d, c' ≠ not d) ∧ (∀ d x y, t' = ifElse d x y → ¬d.same c') ∧
      ∀ d x y, f' = ifElse d x y → ¬d.same c' := by
  rcases canonical_cases c t f with ⟨d, rfl, hd⟩ | ⟨hn, hd⟩ <;> cases hd.symm.trans h
  case inl => exact ⟨NormalNegation.not_negation hc.node, whenTrue_asks hf, whenFalse_asks ht⟩
  case inr => exact ⟨hn, whenTrue_asks ht, whenFalse_asks hf⟩

theorem collapsed (h : Collapsed c t f e) (hc : Simplified c) (ht : Simplified t)
    (hf : Simplified f) : Simplified e := by
  cases h
  case constant v _ => cases v.isTruthy <;> assumption
  case same => exact ht
  case falseElse => exact allOf (pair hc ht)
  case trueElse => exact anyOf (pair hc.negate ht)
  case falseThen => exact allOf (pair hc.negate hf)
  case trueThen => exact anyOf (pair hc hf)

theorem choose (hc : Simplified c) (ht : Simplified t) (hf : Simplified f) :
    Simplified (choose c t f) := by
  by_cases hu : hasUnresolvable [c, t, f]
  case pos => exact .inl (if_pos hu)
  case neg =>
    obtain ⟨c', t', f', h⟩ : ∃ c' t' f', canonical c t f = (c', t', f') := ⟨_, _, _, rfl⟩
    have ⟨hc, ht, hf⟩ := all_normal_three hu hc ht hf
    have ⟨hc', ht', hf'⟩ := canonical_normal h hc ht hf
    have ⟨hd, hta, hfa⟩ := canonical_parts h hc ht hf
    rw [Expr.choose, chooseWith_eq hu h]
    cases hs : collapse? c' t' f'
    case some e => exact collapsed (collapsed_of_collapse? hs) (.inr hc') (.inr ht') (.inr hf')
    case none =>
      have ⟨hcc, hsame, htb, hfb⟩ := collapse?_eq_none_iff.mp hs
      simp only [Option.getD_none]
      split
      case isTrue => exact outline _ (formatCall _ (by simp [Simplified, hc', ht', hf']))
      case isFalse hx =>
        refine .inr ⟨?_, by simp [children, hc', ht', hf']⟩
        exact {
          not_constant := hcc
          not_negation := hd
          then_asks    := hta
          else_asks    := hfa
          distinct     := hsame
          then_boolean := htb
          else_boolean := hfb
          not_complex  := by simpa [not_or, and_assoc] using hx
        }

end Choose

theorem join (h : ∀ e ∈ es, Simplified e) : Simplified (join es) := by
  rw [Expr.join, joinWith]
  split
  case isTrue => exact .inl rfl
  case isFalse hu =>
    split
    case h_1 => exact ofString _
    case h_2 hj =>
      split
      case isTrue => exact outline _ (formatCall _ h)
      case isFalse hx =>
        refine .inr ⟨?_, all_normal h hu⟩
        exact ⟨joinConstants?_eq_none_iff.mp hj, by simpa using hx⟩

theorem format (name : String) (keys : Option (List String)) (ignoreComplex : Bool)
    (h : ∀ e ∈ es, Simplified e) : Simplified (format name es keys ignoreComplex) := by
  rw [Expr.format, formatWith]
  split
  case isTrue => exact .inl rfl
  case isFalse =>
    have hc := formatCall name (forall_mem_withKeys keys (fun b => .inr (.path b)) h)
    simp only
    split
    case isTrue  => exact outline _ hc
    case isFalse => exact hc

theorem composite (name : String) (keys : Option (List String))
    (options : Option (ObjectLiteral Expr)) (h : ∀ e ∈ es, Simplified e) :
    Simplified (composite name es keys options) := by
  rw [Expr.composite]
  split
  case isTrue => exact .inl rfl
  case isFalse hu =>
    have hk := forall_mem_withKeys keys .path (all_normal h hu)
    exact .inr ⟨trivial, forall_mem_withLookup name .path hk⟩

theorem invoke (function : String) {receiver : Option Expr} (h : ∀ e ∈ es, Simplified e)
    (hr : ∀ e ∈ receiver, Simplified e) : Simplified (invoke function es receiver) := by
  rw [Expr.invoke]
  split
  case isTrue => exact .inl rfl
  case isFalse hu =>
    have hs : ∀ e ∈ es ++ receiver.toList, Simplified e :=
      forall_mem_append.mpr ⟨h, by simpa using hr⟩
    have hn := all_normal hs hu
    refine .inr ⟨trivial, fun e he => hn e ?_⟩
    simpa [children, or_comm] using he

theorem lengthOf (e : Expr) : Simplified (lengthOf e) := by
  unfold Expr.lengthOf
  split
  case h_1 => exact .inr ⟨rfl, by simpa [children] using .path _⟩
  case h_2 | h_3 => exact .inr (.constant _)
  case h_4 => exact .inl rfl

theorem ofBindingText (text : String) (targetType : Option String) :
    Simplified (ofBindingText text targetType) := by
  simp only [Expr.ofBindingText]
  split_ifs <;> exact .inr ⟨trivial, nofun⟩

theorem resolvePath (source model : Option String) (navigation : List String)
    (visitor : Option (String → Option String)) :
    Simplified (resolvePath source model navigation visitor) := by
  unfold Expr.resolvePath
  split
  case h_1 => exact .inl rfl
  case h_2 =>
    split
    case h_1 => exact .inr (.path _)
    case h_2 =>
      split
      case h_1 => exact .inl rfl
      case h_2 => exact .inr (.path _)

theorem annotate (change : PathBinding Expr → PathBinding Expr) (h : Simplified e) :
    Simplified (annotate change e) := by
  unfold Expr.annotate
  split
  case h_1 => exact .inr (.path _)
  case h_2 => exact h

end Simplified
end BindingAlgebra.Expr
