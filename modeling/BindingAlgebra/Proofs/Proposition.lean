import BindingAlgebra.Proofs.Built
import BindingAlgebra.Proofs.Distinct
import BindingAlgebra.Proofs.Valuation

namespace BindingAlgebra.Expr

open List

-- Expressions that have boolean values, whatever is bound.
inductive Proposition : Expr → Prop
  | ofBool (b : Bool) : Proposition (ofBool b)
  | not (e : Expr) : Proposition (not e)
  | truthy (e : Expr) : Proposition (truthy e)
  | set (op : LogicalOperator) : (∀ e ∈ es, Proposition e) → Proposition (set op es)
  | comparison (op : ComparisonOperator) (l r : Expr) : Proposition (comparison op l r)
  | ifElse (c : Expr) : Proposition t → Proposition f → Proposition (ifElse c t f)

-- The conditions of those conditionals that are compared with one of their own branches. Instead of
-- such a branch the condition is asked, and the comparison goes on with the other branch.
inductive DecidedBy : Expr → Expr → Expr → Prop
  | here : t.same r → DecidedBy (ifElse c t f) r c
  | onFalse : t.same r → DecidedBy f r d → DecidedBy (ifElse c t f) r d
  | onTrue : f.same r → DecidedBy t r d → DecidedBy (ifElse c t f) r d
  | symm : DecidedBy l r d → DecidedBy r l d

variable {op : LogicalOperator} {c d e l r o : Expr} {es : List Expr}

section Operands

-- What a set that has been simplified has for operands comes from those it is made of.
theorem forall_mem_operandsIn_setOf {p : Expr → Prop} (hs : ∀ e ∈ es, Simplified e)
    (hb : ∀ b, p (ofBool b)) (h : ∀ e ∈ es, ∀ o ∈ operandsIn op e, p o) :
    ∀ o ∈ operandsIn op (setOf op es), p o := by
  have hs := Simplified.flatMap_operandsIn op hs
  have hp : ∀ o ∈ es.flatMap (operandsIn op), p o := by
    intro o ho
    obtain ⟨e, he, ho⟩ := mem_flatMap.mp ho
    exact h e he o ho
  intro o ho
  rw [setOf_eq] at ho
  generalize es.flatMap (operandsIn op) = flat at hs hp ho
  have hd : distinct flat ⊆ flat := (distinct_sublist flat).subset
  split at ho
  case isTrue hu =>
    rw [mem_singleton.mp ho]
    exact hp _ (hasUnresolvable_iff.mp hu)
  case isFalse =>
    have hf := folded_foldSet negate op (distinct flat)
    generalize foldSet negate op (distinct flat) = folded at hf ho
    have of_mem : folded ∈ distinct flat → p o := by
      intro hm
      rw [operandsIn_eq_singleton (hs _ (hd hm)).right, mem_singleton] at ho
      exact ho ▸ hp _ (hd hm)
    cases hf
    case single h => exact of_mem (h ▸ mem_singleton_self _)
    case last h => exact of_mem (filter_sublist.subset (h ▸ mem_singleton_self _))
    case absorbed | none | opposite => exact mem_singleton.mp ho ▸ hb _
    case set =>
      rw [operandsIn, if_pos rfl] at ho
      exact hp o (hd (filter_sublist.subset ho))

namespace Proposition

theorem operandsIn (h : Proposition e) : ∀ o ∈ operandsIn op e, Proposition o := by
  intro o ho
  rcases mem_operandsIn ho with ⟨rfl, _⟩ | ⟨es, rfl, hm⟩
  case inl => exact h
  case inr =>
    cases h
    case set h => exact h o hm

theorem of_isComparison (h : e.isComparison) : Proposition e := by
  obtain ⟨op, l, r, rfl⟩ := isComparison_iff.mp h
  exact .comparison op l r

-- What is no negation is negated to a proposition.
theorem negate (h : Normal c) (hn : ∀ d, c ≠ .not d) : Proposition (negate c) := by
  cases negated c
  case whole hc =>
    rw [negate_of_normalNegation hc h]
    exact .not c
  case constant => exact .ofBool _
  case negation d => exact absurd rfl (hn d)
  case comparison => exact .comparison _ _ _
  case comparisons hc =>
    rw [negate_comparisons h hc]
    refine .set _ fun d hd => ?_
    obtain ⟨e, he, rfl⟩ := mem_map.mp hd
    exact of_isComparison (isComparison_negateAtom (hc e he))

theorem relate (op : ComparisonOperator) (h : ¬hasUnresolvable [l, r]) :
    Proposition (relate op l r) := by
  unfold Expr.relate
  rw [if_neg h]
  split
  case h_1 => exact .ofBool _
  case h_2 => exact .comparison _ _ _

end Proposition

-- What an equality has for operands are propositions, or else operands of a condition that decides
-- it.
theorem operands_of_equated (h : Equated l r e) (hl : Normal l) (hr : Normal r) :
    ∀ o ∈ operandsIn .or e, Proposition o ∨ ∃ c, DecidedBy l r c ∧ o ∈ operandsIn .or c := by
  induction h
  case unresolvable l r hu =>
    exact absurd hu (Normal.not_hasUnresolvable (by simp [hl, hr]))
  case same | excluded => exact fun o ho => .inl ((Proposition.ofBool _).operandsIn o ho)
  case holds | fails => exact fun o ho => .inl ((Proposition.comparison _ _ _).operandsIn o ho)
  case related l r =>
    have hu : ¬hasUnresolvable [l, r] := Normal.not_hasUnresolvable (by simp [hl, hr])
    exact fun o ho => .inl ((Proposition.relate _ hu).operandsIn o ho)
  case symm ih =>
    exact fun o ho => (ih hr hl o ho).imp_right fun ⟨c, hc, ho⟩ => ⟨c, hc.symm, ho⟩
  case whenTrue f r e c t hs he ih =>
    have ⟨hc, _, hf⟩ := hl.branches
    apply forall_mem_operandsIn_setOf
    · exact Simplified.pair (.inr hc) (Simplified.equated he (.inr hf) (.inr hr))
    · exact fun b => .inl (.ofBool b)
    · simp only [mem_cons, not_mem_nil, or_false, forall_eq_or_imp, forall_eq]
      refine ⟨fun o ho => .inr ⟨c, .here hs, ho⟩, fun o ho => ?_⟩
      exact (ih hf hr o ho).imp_right fun ⟨d, hd, ho⟩ => ⟨d, .onFalse hs hd, ho⟩
  case whenFalse t r e c f hs he ih =>
    have hn : NormalChoice c t f := hl.node
    have ⟨hc, ht, _⟩ := hl.branches
    apply forall_mem_operandsIn_setOf
    · exact Simplified.pair (.inr hc.negate) (Simplified.equated he (.inr ht) (.inr hr))
    · exact fun b => .inl (.ofBool b)
    · simp only [mem_cons, not_mem_nil, or_false, forall_eq_or_imp, forall_eq]
      refine ⟨fun o ho => .inl ((Proposition.negate hc hn.not_negation).operandsIn o ho), ?_⟩
      intro o ho
      exact (ih ht hr o ho).imp_right fun ⟨d, hd, ho⟩ => ⟨d, .onTrue hs hd, ho⟩

end Operands

theorem Resolvable.of_normal (h : Normal e) : e.Resolvable :=
  Normal.not_hasUnresolvable h.of_mem_nodes

theorem Resolvable.equality (hl : l.Resolvable) (hr : r.Resolvable) :
    (Expr.comparison .equal l r).Resolvable :=
  iff_children.mpr ⟨nofun, by simp [children, hl, hr]⟩

theorem Normal.equal (hl : Normal l) (hr : Normal r) : Normal (equal l r) := by
  apply (Simplified.equal (.inr hl) (.inr hr)).normal
  have hr := Resolvable.inherited.equal Resolvable.equality (.of_normal hl) (.of_normal hr)
  exact hr.ne

-- What a host may make of expressions: any values for its inputs, and for all else what follows
-- from the values of the parts.
structure Evaluation where
  value            : Expr → Value Expr
  value_constant   : ∀ w, value (constant w) = w
  value_not        : ∀ e, value (not e) = .boolean !(value e).isTruthy
  value_truthy     : ∀ e, value (truthy e) = .boolean (value e).isTruthy
  value_set        : ∀ op es, value (set op es) = op.shortCircuit (es.map value)
  value_comparison : ∀ op l r,
    value (comparison op l r) = .boolean (op.evaluate (value l) (value r))
  value_ifElse     : ∀ c t f,
    value (ifElse c t f) = if (value c).isTruthy then value t else value f

namespace Evaluation

def ofValuation (v : Valuation) : Evaluation where
  value                   := v.eval
  value_constant _        := by rw [Valuation.eval]
  value_not _             := by rw [Valuation.eval]
  value_truthy _          := by rw [Valuation.eval]
  value_set _ _           := by rw [Valuation.eval, Valuation.evalAll_eq_map]
  value_comparison _ _ _  := by rw [Valuation.eval]
  value_ifElse _ _ _      := by rw [Valuation.eval]

variable (v : Evaluation)

theorem value_ofBool (b : Bool) : v.value (ofBool b) = .boolean b :=
  v.value_constant _

theorem value_proposition (h : Proposition e) : ∃ b, v.value e = .boolean b := by
  induction h
  case ofBool b => exact ⟨b, v.value_ofBool b⟩
  case not e => exact ⟨_, v.value_not e⟩
  case truthy e => exact ⟨_, v.value_truthy e⟩
  case comparison op l r => exact ⟨_, v.value_comparison op l r⟩
  case ifElse c _ _ iht ihf =>
    rw [v.value_ifElse]
    split
    case isTrue  => exact iht
    case isFalse => exact ihf
  case set es op _ ih =>
    rw [v.value_set]
    by_cases hes : es = []
    case pos => exact ⟨_, by rw [hes]; rfl⟩
    case neg =>
      have hm : op.shortCircuit (es.map v.value) ∈ es.map v.value :=
        op.shortCircuit_mem (by simpa using hes)
      obtain ⟨e, he, hv⟩ := mem_map.mp hm
      exact hv ▸ ih e he

-- The value of an expression is that of one of the operands that it contributes to a set.
theorem exists_operandsIn (op : LogicalOperator) (h : Normal e) :
    ∃ o ∈ operandsIn op e, v.value e = v.value o := by
  by_cases hs : ∃ es, e = set op es
  case neg =>
    push Not at hs
    rw [operandsIn_eq_singleton hs]
    exact ⟨e, mem_singleton_self e, rfl⟩
  case pos =>
    obtain ⟨es, rfl⟩ := hs
    have hn : NormalSet op es := h.node
    have hl : 0 < (es.map v.value).length := by
      rw [length_map]
      exact Nat.lt_of_lt_of_le Nat.two_pos hn.two_le
    obtain ⟨o, ho, hv⟩ := mem_map.mp (op.shortCircuit_mem (ne_nil_of_length_pos hl))
    rw [operandsIn, if_pos rfl, v.value_set]
    exact ⟨o, ho, hv.symm⟩

-- Whether all comparisons tell something about the values of their sides, as those for equality
-- always do.
def DecidedNode : Expr → Prop
  | .comparison op l r => op.Decides (v.value l) (v.value r)
  | _                  => True

abbrev Decided (e : Expr) : Prop :=
  AllNodes v.DecidedNode e

theorem decided_of_not_isOrder (h : ∀ op l r, .comparison op l r ∈ e.nodes → ¬op.isOrder) :
    v.Decided e := by
  intro n hn
  cases n
  case comparison op l r => exact fun ho => absurd ho (h op l r hn)
  all_goals trivial

theorem inherited_decided : Inherited v.Decided :=
  AllNodes.inherited (fun _ _ => trivial) (fun _ => trivial) (fun _ _ => trivial)
    fun _ _ _ => ComparisonOperator.decides_negate_iff.mpr

theorem decided_equal (hl : v.Decided l) (hr : v.Decided r) :
    v.Decided (.comparison .equal l r) :=
  allNodes_iff.mpr ⟨fun ho => absurd ho Bool.false_ne_true, by simp [children, hl, hr]⟩

section Equality

theorem isTruthy_relate_equal (hu : ¬hasUnresolvable [l, r]) :
    (v.value (relate .equal l r)).isTruthy = (v.value l).strictEquals (v.value r) := by
  unfold relate
  rw [if_neg hu]
  split
  case h_1 x y => simp [value_ofBool, value_constant, ComparisonOperator.evaluate, Value.isTruthy]
  case h_2 => simp [value_comparison, ComparisonOperator.evaluate, Value.isTruthy]

-- To compare with a boolean is to ask whether the value is just that boolean. This takes no
-- conditional apart, as none has a boolean for a branch.
theorem isTruthy_equated {b : Bool} (h : Equated l r e) (hl : Normal l) (hr : Normal r)
    (hdl : v.Decided l) (hdr : v.Decided r) (hb : l = ofBool b ∨ r = ofBool b) :
    (v.value e).isTruthy = (v.value l).strictEquals (v.value r) := by
  induction h
  case unresolvable l r hu =>
    exact absurd hu (Normal.not_hasUnresolvable (by simp [hl, hr]))
  case same l r hs =>
    have he : l = ofBool b ∧ r = ofBool b := by
      rcases hb with rfl | rfl
      case inl => exact ⟨rfl, eq_ofBool_of_same (same_symm hs)⟩
      case inr => exact ⟨eq_ofBool_of_same hs, rfl⟩
    rw [he.left, he.right, value_ofBool, value_ofBool, Value.strictEquals_boolean, beq_self_eq_true]
    rfl
  case holds op x y =>
    rw [value_comparison, value_ofBool, Value.strictEquals_boolean, beq_true]
    rfl
  case fails op x y =>
    have hn : negate (.comparison op x y) = .comparison op.negate x y := rfl
    rw [hn, value_comparison, value_comparison, value_ofBool, Value.strictEquals_boolean, beq_false,
      ComparisonOperator.evaluate_negate_of_decides hdl.node]
    rfl
  case whenTrue hs _ _ =>
    have hn : NormalChoice _ _ _ := hl.node
    rcases hb with hb | rfl
    case inl => cases hb
    case inr => exact absurd (eq_ofBool_of_same hs) (hn.then_boolean b)
  case whenFalse hs _ _ =>
    have hn : NormalChoice _ _ _ := hl.node
    rcases hb with hb | rfl
    case inl => cases hb
    case inr => exact absurd (eq_ofBool_of_same hs) (hn.else_boolean b)
  case excluded t f r c hx =>
    obtain ⟨x, y, z, rfl, rfl, rfl, hx, hy⟩ := excludes_iff.mp hx
    rw [value_ofBool, value_ifElse]
    split <;> simp [value_constant, hx, hy, Value.isTruthy]
  case related l r =>
    exact v.isTruthy_relate_equal (Normal.not_hasUnresolvable (by simp [hl, hr]))
  case symm ih => rw [ih hr hl hdr hdl hb.symm, Value.strictEquals_comm]

theorem isTruthy_equal_ofBool_iff {b : Bool} (h : Normal e) (hd : v.Decided e) :
    (v.value (equal e (ofBool b))).isTruthy ↔ v.value e = .boolean b := by
  have hb : v.Decided (ofBool b) := v.inherited_decided.ofBool b
  have he := equated_equal e (ofBool b)
  rw [v.isTruthy_equated he h (.constant _) hd hb (.inr rfl), value_ofBool,
    Value.strictEquals_boolean_iff]

-- Comparing with true keeps the truth and comparing with false turns it around, if there is nothing
-- but a boolean to compare.
theorem compared_again_iff (h : Normal e) (hd : v.Decided e) :
    (((v.value (equal e (ofBool true))).isTruthy ↔ (v.value e).isTruthy) ∧
      ((v.value (equal e (ofBool false))).isTruthy ↔ ¬(v.value e).isTruthy)) ↔
      ∃ b, v.value e = .boolean b := by
  rw [v.isTruthy_equal_ofBool_iff h hd, v.isTruthy_equal_ofBool_iff h hd]
  constructor
  case mp =>
    rintro ⟨ht, hf⟩
    by_cases hv : (v.value e).isTruthy
    case pos => exact ⟨true, ht.mpr hv⟩
    case neg => exact ⟨false, hf.mpr hv⟩
  case mpr =>
    rintro ⟨b, hb⟩
    cases b <;> simp [hb, Value.isTruthy]

theorem boolean_or_decided (hl : Normal l) (hr : Normal r) :
    (∃ b, v.value (equal l r) = .boolean b) ∨
      ∃ c, DecidedBy l r c ∧ ∃ o ∈ operandsIn .or c,
        ¬Proposition o ∧ v.value (equal l r) = v.value o := by
  obtain ⟨o, ho, hv⟩ := v.exists_operandsIn .or (hl.equal hr)
  by_cases hp : Proposition o
  case pos => exact .inl (hv ▸ v.value_proposition hp)
  case neg =>
    have h := operands_of_equated (equated_equal l r) hl hr o ho
    obtain ⟨c, hc, ho⟩ := h.resolve_left hp
    exact .inr ⟨c, hc, o, ho, hp, hv⟩

end Equality

-- An equality can be compared with booleans again just if its value is a boolean. It is one, unless
-- a conditional is compared with one of its own branches and the value is that of its condition.
theorem equality_compared_again (hl : Built l) (hr : Built r) (hlu : l ≠ unresolvable)
    (hru : r ≠ unresolvable) (hdl : v.Decided l) (hdr : v.Decided r) :
    let e := equal l r
    ((((v.value (equal e (ofBool true))).isTruthy ↔ (v.value e).isTruthy) ∧
      ((v.value (equal e (ofBool false))).isTruthy ↔ ¬(v.value e).isTruthy)) ↔
        ∃ b, v.value e = .boolean b) ∧
    ((∃ b, v.value e = .boolean b) ∨
      ∃ c, DecidedBy l r c ∧ ∃ o ∈ operandsIn .or c, ¬Proposition o ∧ v.value e = v.value o) := by
  have hl : Normal l := hl.simplified.normal hlu
  have hr : Normal r := hr.simplified.normal hru
  have hd : v.Decided (equal l r) := v.inherited_decided.equal v.decided_equal hdl hdr
  exact ⟨v.compared_again_iff (hl.equal hr) hd, v.boolean_or_decided hl hr⟩

theorem equality_compared_again_approved :
    let v := ofValuation .approved
    let c := comparison .equal (pathTo "Status") (ofString "A")
    let l := ifElse c (ofString "Yes") (ofString "No")
    let e := equal l (ofString "Yes")
    Built l ∧ v.Decided l ∧ (v.value e).isTruthy ∧ (v.value (equal e (ofBool true))).isTruthy ∧
      ¬(v.value (equal e (ofBool false))).isTruthy := by
  intro v c l e
  have hc : Built c := .relate .equal (.pathTo "Status" none) (.ofString "A")
  have hl : Built l := .choose hc (.ofString "Yes") (.ofString "No")
  have hdl : v.Decided l := by
    apply v.decided_of_not_isOrder
    intro op x y hm
    have ho : op = .equal := by simp_all [l, c, nodes, pathTo, ofString]
    simp [ho, ComparisonOperator.isOrder]
  have hdr : v.Decided (ofString "Yes") := v.inherited_decided.scalar rfl
  have he : v.value e = .boolean true := Value.strictEquals_boolean_iff.mp (by decide +kernel)
  have ht : (v.value e).isTruthy := by rw [he]; rfl
  have h := v.equality_compared_again hl (.ofString "Yes") Expr.noConfusion Expr.noConfusion hdl hdr
  obtain ⟨htrue, hfalse⟩ := h.left.mpr ⟨true, he⟩
  exact ⟨hl, hdl, ht, htrue.mpr ht, fun hf => hfalse.mp hf ht⟩

-- A condition that is truthy, but no boolean.
theorem not_compared_again :
    let v := ofValuation .approved
    let l := ifElse (pathTo "Active") (ofString "A") (ofString "B")
    let e := equal l (ofString "A")
    Built l ∧ Built (ofString "A") ∧ (∀ n ∈ l.nodes, ¬n.isUnresolvable ∧ ¬n.isComparison) ∧
      (v.value e).isTruthy ∧ ¬(v.value (equal e (ofBool true))).isTruthy := by
  intro v l e
  have hl : Built l := .choose (.pathTo "Active" none) (.ofString "A") (.ofString "B")
  exact ⟨hl, .ofString "A", by decide +kernel, by decide +kernel, by decide +kernel⟩

end Evaluation
end BindingAlgebra.Expr
