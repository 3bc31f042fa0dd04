import BindingAlgebra.Expr.Outline
import BindingAlgebra.Proofs.Choice

namespace BindingAlgebra.Expr

open List

structure NormalSet (op : LogicalOperator) (es : List Expr) : Prop where
  two_le       : 2 ≤ es.length
  not_constant : ∀ e ∈ es, ¬e.isConstant
  not_nested   : ∀ e ∈ es, ∀ fs, e ≠ set op fs
  distinct     : es.Pairwise (¬same · ·)
  no_opposite  : es.Pairwise fun e f => ¬(negate e).same f

-- What a negation stands in front of. A set of comparisons takes the negation into its operands.
structure NormalNegation (e : Expr) : Prop where
  not_constant    : ¬e.isConstant
  not_negation    : ∀ d, e ≠ not d
  not_comparison  : ¬e.isComparison
  not_comparisons : ∀ op es, e = set op es → ∃ d ∈ es, ¬d.isComparison

structure NormalChoice (c t f : Expr) : Prop where
  not_constant : ¬c.isConstant
  not_negation : ∀ d, c ≠ not d
  then_asks    : ∀ c' t' f', t = ifElse c' t' f' → ¬c'.same c
  else_asks    : ∀ c' t' f', f = ifElse c' t' f' → ¬c'.same c
  distinct     : ¬t.same f
  then_boolean : ∀ b, t ≠ ofBool b
  else_boolean : ∀ b, f ≠ ofBool b
  not_complex  : ¬c.isComplex ∧ ¬t.isComplex ∧ ¬f.isComplex

structure NormalConcat (es : List Expr) : Prop where
  pending     : ∃ e ∈ es, ¬e.isConstant
  not_complex : ∀ e ∈ es, ¬e.isComplex

def NormalNode : Expr → Prop
  | unresolvable     => False
  | set op es        => NormalSet op es
  | not e            => NormalNegation e
  | truthy e         => ¬e.isConstant
  | comparison _ l r => ¬(l.isConstant ∧ r.isConstant)
  | ifElse c t f     => NormalChoice c t f
  | concat es        => NormalConcat es
  | length e         => e.isPath
  | _                => True

-- Trees in which no operation would change anything. What their constants and object literals hold
-- does not matter.
inductive Normal : Expr → Prop
  | intro : NormalNode e → (∀ c ∈ e.children, Normal c) → Normal e

namespace Normal

variable {e c : Expr} {es : List Expr}

theorem node : Normal e → NormalNode e
  | ⟨h, _⟩ => h

theorem child : Normal e → c ∈ e.children → Normal c
  | ⟨_, h⟩, hc => h c hc

theorem branches {c t f : Expr} (h : Normal (ifElse c t f)) : Normal c ∧ Normal t ∧ Normal f := by
  have hc : ∀ d ∈ [c, t, f], Normal d := fun _ => h.child
  simpa using hc

theorem ne_unresolvable (h : Normal e) : e ≠ unresolvable := by
  rintro rfl
  exact h.node

theorem not_hasUnresolvable (h : ∀ e ∈ es, Normal e) : ¬hasUnresolvable es :=
  fun hu => (h _ (hasUnresolvable_iff.mp hu)).ne_unresolvable rfl

theorem of_mem_nodes (h : Normal e) : ∀ n ∈ e.nodes, Normal n := by
  induction h
  case intro e hn hc ih =>
    intro n hm
    rcases mem_nodes_iff.mp hm with rfl | ⟨c, hc, hm⟩
    case inl => exact ⟨hn, hc⟩
    case inr => exact ih c hc n hm

theorem node_of_mem_nodes (h : Normal e) : ∀ n ∈ e.nodes, NormalNode n :=
  fun n hm => (h.of_mem_nodes n hm).node

theorem constant (v : Value Expr) : Normal (constant v) :=
  ⟨trivial, nofun⟩

theorem path (b : PathBinding Expr) : Normal (path b) :=
  ⟨trivial, nofun⟩

end Normal

section Rebuilding

-- A node of a normal tree is what the operations make of its children.

variable {op : LogicalOperator} {e c t f l r : Expr} {es : List Expr} {outline : Outlining}

theorem setOf_eq_set (h : Normal (set op es)) : setOf op es = set op es := by
  have hs : NormalSet op es := h.node
  have hc : es.filter (!·.isConstant) = es := by simpa using hs.not_constant
  have ha : ¬es.any (absorbs op) := by
    simp only [any_eq_true, not_exists, not_and]
    rintro e he ha
    cases e <;> simp [absorbs] at ha
    exact hs.not_constant _ he rfl
  have ho := hasOpposite_eq_false_iff.mpr hs.no_opposite
  have hu : ¬hasUnresolvable es := Normal.not_hasUnresolvable fun _ => h.child
  have hl := hs.two_le
  rw [setOf, setWith, flatten_eq_self hs.not_nested hs.distinct, if_neg hu]
  rcases es with _ | ⟨d, _ | ⟨e, es⟩⟩ <;> simp only [length_nil, length_cons] at hl
  case nil | cons.nil => omega
  case cons.cons => simp [foldSet, ha, hc, ho]

theorem negate_of_ne_set (h : ∀ op es, e ≠ set op es) : negate e = negateAtom e := by
  unfold negate
  split
  case h_1 => exact absurd rfl (h _ _)
  case h_2 => rfl

-- A set of comparisons is negated operand by operand.
theorem negate_set (h : ∀ e ∈ es, e.isConstant ∨ e.isComparison) :
    negate (set op es) = setOf op.dual (es.map negateAtom) := by
  have ha : es.all fun e => e.isConstant || e.isComparison := by simpa using h
  rw [negate, if_pos ha, setOf]
  refine setWith_congr fun f hf => ?_
  have ⟨g, hg, hf⟩ := mem_flatten hf
  obtain ⟨e, he, rfl⟩ := mem_map.mp hg
  have hn : ∀ op es, negateAtom e ≠ set op es := by
    cases h e he
    case inl hc => obtain ⟨v, rfl⟩ := isConstant_iff.mp hc; exact nofun
    case inr hc => obtain ⟨op, l, r, rfl⟩ := isComparison_iff.mp hc; exact nofun
  rw [operandsIn_eq_singleton (hn _), mem_singleton] at hf
  exact hf ▸ (negate_of_ne_set hn).symm

theorem negate_eq_not (h : Normal (not e)) : negate e = not e := by
  have hn : NormalNegation e := h.node
  have he : Normal e := h.child mem_cons_self
  unfold negate
  split
  case h_1 op es =>
    have ⟨d, hd, hc⟩ := hn.not_comparisons op es rfl
    have hs : NormalSet op es := he.node
    rw [if_neg]
    simp only [all_eq_true, Bool.or_eq_true, not_forall]
    exact ⟨d, hd, by simp [hc, hs.not_constant d hd]⟩
  case h_2 =>
    unfold negateAtom
    split
    case h_1 => exact absurd rfl he.ne_unresolvable
    case h_2 => exact absurd rfl hn.not_constant
    case h_3 => exact absurd rfl hn.not_comparison
    case h_4 => exact absurd rfl (hn.not_negation _)
    case h_5 => rfl

theorem truthOf_eq_truthy (h : Normal (truthy e)) : truthOf e = truthy e := by
  have hc : ¬e.isConstant := h.node
  have he : Normal e := h.child mem_cons_self
  unfold truthOf
  split
  case h_1 => exact absurd rfl he.ne_unresolvable
  case h_2 => exact absurd rfl hc
  case h_3 => rfl

theorem relate_eq_comparison {op : ComparisonOperator} (h : Normal (comparison op l r)) :
    relate op l r = comparison op l r := by
  have hc : ¬(l.isConstant ∧ r.isConstant) := h.node
  have hu : ¬hasUnresolvable [l, r] := Normal.not_hasUnresolvable fun _ => h.child
  unfold relate
  rw [if_neg hu]
  split
  case h_1 => exact absurd ⟨rfl, rfl⟩ hc
  case h_2 => rfl

theorem whenTrue_eq_self (h : ∀ c' t f, e = ifElse c' t f → ¬c'.same c) : whenTrue c e = e := by
  rcases whenTrue_cases c e with ⟨c', t, f, he, hc, _⟩ | ⟨_, h⟩
  case inl => exact absurd hc (h c' t f he)
  case inr => exact h

theorem whenFalse_eq_self (h : ∀ c' t f, e = ifElse c' t f → ¬c'.same c) : whenFalse c e = e := by
  rcases whenFalse_cases c e with ⟨c', t, f, he, hc, _⟩ | ⟨_, h⟩
  case inl => exact absurd hc (h c' t f he)
  case inr => exact h

theorem chooseWith_eq_ifElse (h : Normal (ifElse c t f)) :
    chooseWith outline c t f = ifElse c t f := by
  have hn : NormalChoice c t f := h.node
  have hc : canonical c t f = (c, t, f) := by
    rw [canonical_of_ne_not hn.not_negation, whenTrue_eq_self hn.then_asks,
      whenFalse_eq_self hn.else_asks]
  have hs : collapse? c t f = none :=
    collapse?_eq_none_iff.mpr ⟨hn.not_constant, hn.distinct, hn.then_boolean, hn.else_boolean⟩
  rw [chooseWith_eq (Normal.not_hasUnresolvable fun _ => h.child) hc, hs]
  simp [hn.not_complex]

theorem joinConstants?_eq_none_iff : joinConstants? es = none ↔ ∃ e ∈ es, ¬e.isConstant := by
  induction es
  case nil => simp [joinConstants?]
  case cons e es ih => cases e <;> simp [joinConstants?, ih, isConstant, kind]

theorem joinWith_eq_concat (h : Normal (concat es)) : joinWith outline es = concat es := by
  have hn : NormalConcat es := h.node
  have hx : ¬es.any isComplex := by simpa using hn.not_complex
  have hu : ¬hasUnresolvable es := Normal.not_hasUnresolvable fun _ => h.child
  rw [joinWith, if_neg hu, joinConstants?_eq_none_iff.mpr hn.pending]
  simp [hx]

theorem invoke_eq_call {receiver : Option Expr} {n : String} (h : Normal (call receiver n es)) :
    invoke n es receiver = call receiver n es := by
  refine if_neg (Normal.not_hasUnresolvable fun c hc => h.child ?_)
  simpa [children, or_comm] using hc

end Rebuilding
end BindingAlgebra.Expr
