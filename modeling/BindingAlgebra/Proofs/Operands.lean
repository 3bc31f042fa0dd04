import BindingAlgebra.Expr.Logic
import BindingAlgebra.Proofs.Same

namespace BindingAlgebra

-- The kinds of conditionals and of what boolean operators make.
def Kind.isLogical : Kind → Bool
  | not | truthy | set | comparison | ifElse => true
  | _                                        => false

namespace Expr

open List

theorem isConstant_iff {e : Expr} : e.isConstant ↔ ∃ v, e = constant v := by
  cases e <;> simp [isConstant, kind]

theorem isComparison_iff {e : Expr} : e.isComparison ↔ ∃ op l r, e = comparison op l r := by
  cases e <;> simp [isComparison, kind]

theorem isBoolean_iff {e : Expr} {b : Bool} : e.isBoolean b ↔ e = ofBool b := by
  unfold isBoolean
  split
  case h_1 =>
    simp only [beq_iff_eq, ofBool, constant.injEq, Value.boolean.injEq]
    exact eq_comm
  case h_2 h =>
    simp only [Bool.false_eq_true, false_iff]
    exact h b

theorem distinct_sublist (es : List Expr) : (distinct es).Sublist es := by
  induction es
  case nil => exact .slnil
  case cons e es ih => exact (filter_sublist.trans ih).cons_cons e

theorem distinct_pairwise (es : List Expr) : (distinct es).Pairwise (¬same · ·) := by
  induction es
  case nil => exact .nil
  case cons e es ih =>
    refine pairwise_cons.mpr ⟨fun f hf => ?_, ih.sublist filter_sublist⟩
    simpa using (mem_filter.mp hf).2

-- Whatever is dropped equals something that stays.
theorem mem_distinct_or_same {e : Expr} {es : List Expr} (h : e ∈ es) :
    e ∈ distinct es ∨ ∃ f ∈ distinct es, f.same e := by
  induction es
  case nil => simp at h
  case cons d es ih =>
    simp only [distinct, mem_cons, mem_filter, Bool.not_eq_true', exists_eq_or_imp] at h ⊢
    by_cases hd : d.same e
    case pos => exact .inr (.inl hd)
    case neg =>
      rcases h with rfl | h
      case inl => exact .inl (.inl rfl)
      case inr =>
        rcases ih h with hm | ⟨f, hm, hf⟩
        case inl => exact .inl (.inr ⟨hm, by simpa using hd⟩)
        case inr =>
          refine .inr (.inr ⟨f, ⟨hm, ?_⟩, hf⟩)
          by_contra hdf
          exact hd (same_trans (by simpa using hdf) hf)

theorem distinct_eq_self {es : List Expr} (h : es.Pairwise (¬same · ·)) : distinct es = es := by
  induction es
  case nil => rfl
  case cons e es ih =>
    have ⟨he, hs⟩ := pairwise_cons.mp h
    simp only [distinct, ih hs, cons.injEq, true_and, filter_eq_self]
    simpa using he

theorem hasOpposite_eq_false_iff {neg : Expr → Expr} {es : List Expr} :
    hasOpposite neg es = false ↔ es.Pairwise fun e f => ¬(neg e).same f := by
  induction es <;> simp_all [hasOpposite]

theorem exists_of_hasOpposite {neg : Expr → Expr} {es : List Expr} (h : hasOpposite neg es) :
    ∃ e ∈ es, ∃ f ∈ es, (neg e).same f := by
  induction es
  case nil => simp [hasOpposite] at h
  case cons e es ih =>
    simp only [hasOpposite, Bool.or_eq_true, any_eq_true] at h
    rcases h with ⟨f, hf, h⟩ | h
    case inl => exact ⟨e, mem_cons_self, f, mem_cons_of_mem _ hf, h⟩
    case inr =>
      have ⟨e', he, f, hf, h⟩ := ih h
      exact ⟨e', mem_cons_of_mem _ he, f, mem_cons_of_mem _ hf, h⟩

theorem operandsIn_eq_singleton {op : LogicalOperator} {e : Expr} (h : ∀ es, e ≠ set op es) :
    operandsIn op e = [e] := by
  cases e <;> simp_all [operandsIn]

theorem mem_operandsIn {op : LogicalOperator} {e f : Expr} (h : f ∈ operandsIn op e) :
    (f = e ∧ ∀ es, e ≠ set op es) ∨ ∃ es, e = set op es ∧ f ∈ es := by
  by_cases hs : ∃ es, e = set op es
  case pos =>
    obtain ⟨es, rfl⟩ := hs
    exact .inr ⟨es, rfl, by simpa [operandsIn] using h⟩
  case neg =>
    push Not at hs
    rw [operandsIn_eq_singleton hs, mem_singleton] at h
    exact .inl ⟨h, hs⟩

theorem mem_flatten {op : LogicalOperator} {f : Expr} {es : List Expr} (h : f ∈ flatten op es) :
    ∃ e ∈ es, f ∈ operandsIn op e :=
  mem_flatMap.mp ((distinct_sublist _).subset h)

theorem flatMap_operandsIn_eq_self {op : LogicalOperator} {es : List Expr}
    (h : ∀ e ∈ es, ∀ fs, e ≠ set op fs) : es.flatMap (operandsIn op) = es := by
  rw [flatMap_congr fun e he => operandsIn_eq_singleton (h e he)]
  simp

theorem flatten_eq_self {op : LogicalOperator} {es : List Expr} (hn : ∀ e ∈ es, ∀ fs, e ≠ set op fs)
    (hd : es.Pairwise (¬same · ·)) : flatten op es = es := by
  rw [flatten, flatMap_operandsIn_eq_self hn, distinct_eq_self hd]

-- What a list of flat operands is folded into.
inductive Folded (neg : Expr → Expr) (op : LogicalOperator) (es : List Expr) : Expr → Prop
  | single : es = [e] → Folded neg op es e
  | absorbed : e ∈ es → absorbs op e → Folded neg op es (ofBool op.absorbing)
  | none : (∀ e ∈ es, ¬absorbs op e) → es.filter (!·.isConstant) = [] →
      Folded neg op es (ofBool !op.absorbing)
  | last : (∀ e ∈ es, ¬absorbs op e) → es.filter (!·.isConstant) = [e] → Folded neg op es e
  | opposite : hasOpposite neg (es.filter (!·.isConstant)) →
      Folded neg op es (ofBool op.absorbing)
  | set : (∀ e ∈ es, ¬absorbs op e) → 2 ≤ (es.filter (!·.isConstant)).length →
      hasOpposite neg (es.filter (!·.isConstant)) = false →
      Folded neg op es (set op (es.filter (!·.isConstant)))

theorem folded_foldSet (neg : Expr → Expr) (op : LogicalOperator) (es : List Expr) :
    Folded neg op es (foldSet neg op es) := by
  unfold foldSet
  split
  case h_1 => exact .single rfl
  case h_2 =>
    split
    case isTrue h =>
      have ⟨_, hm, ha⟩ := any_eq_true.mp h
      exact .absorbed hm ha
    case isFalse h =>
      have hn : ∀ e ∈ es, ¬absorbs op e := by simpa using h
      split
      case h_1 hf => exact .none hn hf
      case h_2 hf => exact .last hn hf
      case h_3 pending h₀ h₁ =>
        have hl : 2 ≤ (es.filter (!·.isConstant)).length := by
          rcases hf : es.filter (!·.isConstant) with _ | ⟨e, _ | ⟨f, fs⟩⟩ <;> simp_all
        split
        case isTrue ho => exact .opposite ho
        case isFalse ho => exact .set hn hl (by simpa using ho)

theorem hasOpposite_congr {neg neg' : Expr → Expr} {es : List Expr}
    (h : ∀ e ∈ es, neg e = neg' e) : hasOpposite neg es = hasOpposite neg' es := by
  induction es
  case nil => rfl
  case cons e es ih =>
    rw [hasOpposite, hasOpposite, h e mem_cons_self, ih fun f hf => h f (mem_cons_of_mem _ hf)]

theorem setWith_congr {neg neg' : Expr → Expr} {op : LogicalOperator} {es : List Expr}
    (h : ∀ e ∈ flatten op es, neg e = neg' e) : setWith neg op es = setWith neg' op es := by
  have ho := hasOpposite_congr fun e he =>
    h e ((filter_sublist (p := fun e => !e.isConstant)).subset he)
  simp only [setWith, foldSet]
  split
  case isTrue => rfl
  case isFalse =>
    split
    case h_1 => rfl
    case h_2 =>
      split
      case isTrue => rfl
      case isFalse =>
        split
        case h_1 | h_2 => rfl
        case h_3 => rw [ho]

-- Properties of trees that logic shares with what is below it, and that it hands on.
structure Inherited (p : Expr → Prop) : Prop where
  child  : ∀ {e}, p e → e.kind.isLogical → ∀ c ∈ e.children, p c
  scalar : ∀ {v}, v.parts = [] → p (constant v)
  not    : ∀ {e}, p e → p (not e)
  set    : ∀ {op es}, (∀ e ∈ es, p e) → p (set op es)
  negate : ∀ {op l r}, p (comparison op l r) → p (comparison op.negate l r)

-- A property of all nodes is handed on if the nodes that logic adds have it.
theorem AllNodes.inherited {q : Expr → Prop} (hc : ∀ v, v.parts = [] → q (constant v))
    (hn : ∀ e, q (not e)) (hs : ∀ op es, q (set op es))
    (ho : ∀ op l r, q (comparison op l r) → q (comparison op.negate l r)) :
    Inherited (AllNodes q) where
  child h _ _ := h.child
  scalar h := allNodes_iff.mpr ⟨hc _ h, nofun⟩
  not h := allNodes_iff.mpr ⟨hn _, by simpa [children] using h⟩
  set h := allNodes_iff.mpr ⟨hs _ _, h⟩
  negate h := allNodes_iff.mpr ⟨ho _ _ _ h.node, fun _ => h.child⟩

namespace Inherited

variable {p : Expr → Prop} (hp : Inherited p) {e : Expr} {es : List Expr}

include hp

theorem ofBool (b : Bool) : p (ofBool b) :=
  hp.scalar rfl

theorem branches {c t f : Expr} (h : p (ifElse c t f)) : p c ∧ p t ∧ p f := by
  simpa [children] using hp.child h rfl

theorem flatten (op : LogicalOperator) (h : ∀ e ∈ es, p e) : ∀ f ∈ flatten op es, p f := by
  intro f hf
  have ⟨e, he, hfe⟩ := mem_flatten hf
  rcases mem_operandsIn hfe with ⟨rfl, _⟩ | ⟨fs, rfl, hfs⟩
  case inl => exact h f he
  case inr => exact hp.child (h _ he) rfl f hfs

theorem setWith (neg : Expr → Expr) (op : LogicalOperator) (h : ∀ e ∈ es, p e) :
    p (setWith neg op es) := by
  have hf := hp.flatten op h
  rw [Expr.setWith]
  split
  case isTrue hu => exact hf _ (hasUnresolvable_iff.mp hu)
  case isFalse =>
    have hs := folded_foldSet neg op (Expr.flatten op es)
    generalize foldSet neg op (Expr.flatten op es) = folded at hs
    cases hs
    case single he => exact hf _ (by simp [he])
    case absorbed | none | opposite => exact hp.ofBool _
    case last he => exact hf _ (filter_sublist.subset (he ▸ mem_singleton_self _))
    case set => exact hp.set fun e he => hf e (filter_sublist.subset he)

theorem allOf (h : ∀ e ∈ es, p e) : p (allOf es) :=
  hp.setWith _ _ h

theorem anyOf (h : ∀ e ∈ es, p e) : p (anyOf es) :=
  hp.setWith _ _ h

theorem negateAtom (h : p e) : p (negateAtom e) := by
  unfold Expr.negateAtom
  split
  case h_1 => exact h
  case h_2 => exact hp.ofBool _
  case h_3 => exact hp.negate h
  case h_4 => exact hp.child h rfl _ mem_cons_self
  case h_5 => exact hp.not h

theorem map_negateAtom (h : ∀ e ∈ es, p e) : ∀ f ∈ es.map Expr.negateAtom, p f :=
  forall_mem_map.mpr fun e he => hp.negateAtom (h e he)

theorem negated (h : p e) : p (Expr.negate e) := by
  unfold Expr.negate
  split
  case h_2 => exact hp.negateAtom h
  case h_1 =>
    split
    case isTrue  => exact hp.setWith _ _ (hp.map_negateAtom (hp.child h rfl))
    case isFalse => exact hp.not h

end Inherited

namespace Resolvable

variable {e : Expr} {es : List Expr}

theorem inherited : Inherited Resolvable where
  child h _ c := h.child
  scalar _ := iff_children.mpr ⟨nofun, nofun⟩
  not h := iff_children.mpr ⟨nofun, by simpa [children] using h⟩
  set h := iff_children.mpr ⟨nofun, h⟩
  negate h := iff_children.mpr ⟨nofun, fun _ => h.child⟩

theorem not_hasUnresolvable (h : ∀ e ∈ es, e.Resolvable) : ¬hasUnresolvable es :=
  fun hu => (h _ (hasUnresolvable_iff.mp hu)).ne rfl

theorem negate (h : e.Resolvable) : (negate e).Resolvable :=
  inherited.negated h

end Resolvable
end Expr
end BindingAlgebra
