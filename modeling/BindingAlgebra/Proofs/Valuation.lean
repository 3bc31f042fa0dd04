import BindingAlgebra.Proofs.Alike
import BindingAlgebra.Proofs.Complement
import BindingAlgebra.Proofs.Equality
import BindingAlgebra.Proofs.Truth

namespace BindingAlgebra

open List

-- Values that are no collections, and that equal themselves.
def Value.isScalar : Value ε → Bool
  | array _ | object _ => false
  | decimal x          => !x.isNaN
  | _                  => true

theorem Value.sameValue_self {w : Value Expr} (h : w.isScalar) : Expr.sameValue w w := by
  cases w <;> simp_all [isScalar, Expr.sameValue, Binary64.equals_self_iff]

-- What a set evaluates to: the value of the first operand that decides it, or else that of the last
-- one. Without operands it is the truth that no operand has decided against.
def LogicalOperator.shortCircuit (op : LogicalOperator) : List (Value ε) → Value ε
  | []           => .boolean !op.absorbing
  | [v]          => v
  | v :: w :: vs => if v.isTruthy = op.absorbing then v else op.shortCircuit (w :: vs)

theorem LogicalOperator.isTruthy_shortCircuit (op : LogicalOperator) (vs : List (Value ε)) :
    (op.shortCircuit vs).isTruthy = op.join (vs.map Value.isTruthy) := by
  fun_induction shortCircuit op vs
  case case1 => cases op <;> rfl
  case case2 => cases op <;> simp [join]
  case case3 h => cases op <;> simp_all [join, absorbing]
  case case4 h ih => cases op <;> simp_all [join, absorbing]

theorem LogicalOperator.shortCircuit_mem (op : LogicalOperator) {vs : List (Value ε)}
    (h : vs ≠ []) : op.shortCircuit vs ∈ vs := by
  fun_induction shortCircuit op vs
  case case1 => exact absurd rfl h
  case case2 => exact mem_singleton_self _
  case case3 => exact mem_cons_self
  case case4 ih => exact mem_cons_of_mem _ (ih (cons_ne_nil _ _))

namespace Expr

-- Expressions whose value does not follow from those of their parts.
def isInput (e : Expr) : Bool :=
  e.isAtom && !e.isComparison

-- Values of inputs, the same for equal ones.
structure Valuation where
  input        : Expr → Value Expr
  input_scalar : ∀ {e}, e.isInput → (input e).isScalar
  input_same   : ∀ {e f : Expr}, e.isInput → e.same f → input e = input f

namespace Valuation

variable (v : Valuation) {e f c t l r : Expr} {es : List Expr} {op : ComparisonOperator}

mutual

def eval : Expr → Value Expr
  | .constant w        => w
  | .not e             => .boolean !(eval e).isTruthy
  | .truthy e          => .boolean (eval e).isTruthy
  | .set op es         => op.shortCircuit (evalAll es)
  | .comparison op l r => .boolean (op.evaluate (eval l) (eval r))
  | .ifElse c t f      => if (eval c).isTruthy then eval t else eval f
  | e                  => v.input e
termination_by structural e => e

def evalAll : List Expr → List (Value Expr)
  | []      => []
  | e :: es => eval e :: evalAll es
termination_by structural es => es

end

theorem evalAll_eq_map (es : List Expr) : v.evalAll es = es.map v.eval := by
  induction es <;> simp_all [evalAll]

section Same

theorem sameValue_shortCircuit (op : LogicalOperator) {vs ws : List (Value Expr)}
    (h : Forall₂ (sameValue · ·) vs ws) :
    sameValue (op.shortCircuit vs) (op.shortCircuit ws) := by
  induction h
  case nil => simp [LogicalOperator.shortCircuit, sameValue]
  case cons hv hs ih =>
    cases hs
    case nil => exact hv
    case cons =>
      simp only [LogicalOperator.shortCircuit, Value.isTruthy_congr hv]
      split
      case isTrue => exact hv
      case isFalse => exact ih

-- Equal expressions have equal values.
theorem sameValue_eval (h : e.same f) : sameValue (v.eval e) (v.eval f) := by
  induction e using children_induction generalizing f
  case step e ih =>
    by_cases hi : e.isInput
    case pos =>
      have hs := v.input_same hi h
      have hv := Value.sameValue_self (v.input_scalar hi)
      fun_cases same e f <;> simp_all [isInput, isAtom, isComparison, kind, same, eval]
    case neg =>
      fun_cases same e f <;>
        simp only [same, Bool.and_eq_true, beq_iff_eq, children, Bool.false_eq_true] at h ih <;>
        simp [isInput, isAtom, isComparison, kind] at hi
      case case1 => simpa [eval] using h
      case case6 | case7 =>
        simp [eval, sameValue, Value.isTruthy_congr (ih _ mem_cons_self h)]
      case case8 =>
        rw [eval, eval, h.left, evalAll_eq_map, evalAll_eq_map]
        exact sameValue_shortCircuit _ (forall₂_map_of_same ih (sameAll_iff.mp h.right))
      case case9 op l r op' l' r' =>
        obtain ⟨⟨rfl, hl⟩, hr⟩ := h
        have he := op.evaluate_congr (ih l (by simp) hl) (ih r (by simp) hr)
        simp [eval, sameValue, he]
      case case10 c t f c' t' f' =>
        obtain ⟨⟨hc, ht⟩, hf⟩ := h
        rw [eval, eval, Value.isTruthy_congr (ih c (by simp) hc)]
        split
        case isTrue  => exact ih t (by simp) ht
        case isFalse => exact ih f (by simp) hf

end Same

-- Whether a node has a value, and one that is more than a comparison which tells nothing.
def DefiniteNode : Expr → Prop
  | .unresolvable      => False
  | .comparison op l r => op.Decides (v.eval l) (v.eval r)
  | _                  => True

abbrev Definite (e : Expr) : Prop :=
  AllNodes v.DefiniteNode e

theorem inherited_definite : Inherited v.Definite :=
  AllNodes.inherited (fun _ _ => trivial) (fun _ => trivial) (fun _ _ => trivial)
    fun _ _ _ => ComparisonOperator.decides_negate_iff.mpr

-- The truth of values. Of two opposite comparisons only one is evaluated, and the other one is
-- taken for its opposite, which it is unless neither tells anything.
def truth : Assignment where
  atom
    | .comparison op l r =>
      if op ∈ [.equal, .lessThan, .greaterThan] then op.evaluate (v.eval l) (v.eval r)
      else !op.negate.evaluate (v.eval l) (v.eval r)
    | e => (v.input e).isTruthy
  atom_same {e f} ha h := by
    by_cases hc : e.isComparison
    case neg =>
      have hi := v.input_same (by simp [isInput, ha, hc]) h
      fun_cases same e f <;> simp_all [same, isComparison, kind]
    case pos =>
      have hc' : f.isComparison := by simpa only [isComparison, kind_eq_of_same h] using hc
      obtain ⟨op, l, r, rfl⟩ := isComparison_iff.mp hc
      obtain ⟨op', l', r', rfl⟩ := isComparison_iff.mp hc'
      simp only [same, Bool.and_eq_true, beq_iff_eq] at h
      obtain ⟨⟨rfl, hl⟩, hr⟩ := h
      simp only [ComparisonOperator.evaluate_congr _ (v.sameValue_eval hl) (v.sameValue_eval hr)]
  atom_negate op l r := by cases op <;> simp [ComparisonOperator.negate]

theorem truth_comparison (h : op.Decides (v.eval l) (v.eval r)) :
    v.truth.holds (.comparison op l r) = op.evaluate (v.eval l) (v.eval r) := by
  simp [Assignment.holds, truth, ComparisonOperator.evaluate_negate_of_decides h]

-- The truth of an expression is that of its value.
theorem holds_eq_isTruthy (h : v.Definite e) : v.truth.holds e = (v.eval e).isTruthy := by
  induction e using children_induction
  case step e ih =>
    replace ih : ∀ c ∈ e.children, v.truth.holds c = (v.eval c).isTruthy :=
      fun c hc => ih c hc (h.child hc)
    cases e
    case not e | truthy e => simp [Assignment.holds, eval, Value.isTruthy, ih e mem_cons_self]
    case set op es =>
      have : es.map v.truth.holds = es.map (Value.isTruthy ∘ v.eval) := map_congr_left ih
      simp [Assignment.holds, Assignment.truths_eq_map, eval, evalAll_eq_map,
        LogicalOperator.isTruthy_shortCircuit, this]
    case comparison op l r => simp [v.truth_comparison h.node, eval, Value.isTruthy]
    case ifElse c t f =>
      have hc := ih c (by simp [children])
      have ht := ih t (by simp [children])
      have hf := ih f (by simp [children])
      simp [Assignment.holds, eval, hc, ht, hf, apply_ite Value.isTruthy]
    case unresolvable => exact h.node.elim
    all_goals rfl

section Equality

variable {v}

theorem Definite.resolvable (h : v.Definite e) : e.Resolvable :=
  fun hu => h _ (hasUnresolvable_iff.mp hu)

theorem Definite.not_hasUnresolvable (hl : v.Definite l) (hr : v.Definite r) :
    ¬hasUnresolvable [l, r] :=
  Resolvable.not_hasUnresolvable (by simp [hl.resolvable, hr.resolvable])

theorem Definite.equality (hl : v.Definite l) (hr : v.Definite r) :
    v.Definite (.comparison .equal l r) :=
  allNodes_iff.mpr ⟨fun ho => absurd ho Bool.false_ne_true, by simp [children, hl, hr]⟩

theorem holds_relate_equal (hl : v.Definite l) (hr : v.Definite r) :
    v.truth.holds (relate .equal l r) = (v.eval l).strictEquals (v.eval r) := by
  by_cases hc : l.isConstant ∧ r.isConstant
  case pos =>
    obtain ⟨x, rfl⟩ := isConstant_iff.mp hc.left
    obtain ⟨y, rfl⟩ := isConstant_iff.mp hc.right
    rw [relate_constant, Assignment.holds_ofBool]
    rfl
  case neg =>
    rw [relate_of_not_constant (hl.not_hasUnresolvable hr) hc,
      v.truth_comparison (hl.equality hr).node]
    rfl

theorem eval_ifElse_of_holds (hd : v.Definite (.ifElse c t f)) :
    v.eval (.ifElse c t f) = if v.truth.holds c then v.eval t else v.eval f := by
  rw [eval, v.holds_eq_isTruthy hd.branches.left]

-- What an equality is reduced to holds if the values of both sides are equal.
theorem holds_equated (h : Equated l r e) (hl : v.Definite l) (hr : v.Definite r) :
    v.truth.holds e = (v.eval l).strictEquals (v.eval r) := by
  have hp := v.inherited_definite
  induction h
  case unresolvable hu => exact absurd hu (hl.not_hasUnresolvable hr)
  case same hs =>
    rw [Assignment.holds_ofBool, Value.strictEquals_of_sameValue (v.sameValue_eval hs)]
  case holds =>
    rw [v.truth_comparison hl.node]
    simp [eval, ofBool, Value.strictEquals, sameValue]
  case fails =>
    rw [v.truth.holds_negate hl.resolvable, v.truth_comparison hl.node]
    simp [eval, ofBool, Value.strictEquals, sameValue]
  case whenTrue f r e c t hs he ih =>
    obtain ⟨hc, _, hf⟩ := hp.branches hl
    have hd : v.Definite e := hp.equated Definite.equality he hf hr
    have hv := Value.strictEquals_of_sameValue (v.sameValue_eval hs)
    rw [v.truth.holds_anyOf (by simp [hc.resolvable, hd.resolvable]), eval_ifElse_of_holds hl]
    cases h : v.truth.holds c <;> simp [h, ih hf hr, hv]
  case whenFalse t r e c f hs he ih =>
    obtain ⟨hc, ht, _⟩ := hp.branches hl
    have hd : v.Definite e := hp.equated Definite.equality he ht hr
    have hv := Value.strictEquals_of_sameValue (v.sameValue_eval hs)
    rw [v.truth.holds_anyOf (by simp [hc.resolvable.negate, hd.resolvable]),
      eval_ifElse_of_holds hl]
    cases h : v.truth.holds c <;> simp [h, ih ht hr, hv, v.truth.holds_negate hc.resolvable]
  case excluded t f r c hx =>
    obtain ⟨x, y, z, rfl, rfl, rfl, hx, hy⟩ := excludes_iff.mp hx
    rw [Assignment.holds_ofBool, eval_ifElse_of_holds hl]
    cases v.truth.holds c <;> simp [eval, hx, hy]
  case related => exact holds_relate_equal hl hr
  case symm ih => rw [ih hr hl, Value.strictEquals_comm]

theorem Definite.equal (hl : v.Definite l) (hr : v.Definite r) : v.Definite (equal l r) :=
  v.inherited_definite.equal equality hl hr

theorem holds_equal (hl : v.Definite l) (hr : v.Definite r) :
    v.truth.holds (equal l r) = (v.eval l).strictEquals (v.eval r) :=
  holds_equated (equated_equal l r) hl hr

theorem holds_isEmpty_iff (h : v.Definite e) :
    v.truth.holds (isEmpty e) ↔
      v.eval e = .string "" ∨ v.eval e = .undefined ∨ v.eval e = .null := by
  have hd : ∀ w : Value Expr, w.parts = [] → v.Definite (.constant w) :=
    fun _ => v.inherited_definite.scalar
  have hs : v.Definite (ofString "") := hd _ rfl
  have hu : v.Definite (.constant .undefined) := hd _ rfl
  have hn : v.Definite (.constant .null) := hd _ rfl
  rw [isEmpty, v.truth.holds_anyOf (by simp [(h.equal hs).resolvable, (h.equal hu).resolvable,
    (h.equal hn).resolvable])]
  simp only [any_cons, any_nil, Bool.or_false, Bool.or_eq_true, holds_equal h hs, holds_equal h hu,
    holds_equal h hn]
  cases v.eval e <;> simp [eval, ofString, Value.strictEquals, sameValue]

end Equality

-- Equality asks for strict equality of the values, and emptiness for one of three values, whatever
-- the expressions are simplified to.
theorem equalities_evaluate :
    (∀ l r, v.Definite l → v.Definite r →
      (v.eval (equal l r)).isTruthy = (v.eval l).strictEquals (v.eval r) ∧
      (v.eval (notEqual l r)).isTruthy = !(v.eval l).strictEquals (v.eval r)) ∧
    ∀ e, v.Definite e → ((v.eval (isEmpty e)).isTruthy ↔
      v.eval e = .string "" ∨ v.eval e = .undefined ∨ v.eval e = .null) := by
  have hp := v.inherited_definite
  constructor
  case left =>
    intro l r hl hr
    have he := hl.equal hr
    rw [notEqual, ← v.holds_eq_isTruthy he, ← v.holds_eq_isTruthy (hp.negated he),
      v.truth.holds_negate he.resolvable, holds_equal hl hr]
    exact ⟨rfl, rfl⟩
  case right =>
    intro e h
    rw [← v.holds_eq_isTruthy (hp.isEmpty Definite.equality h), holds_isEmpty_iff h]

-- A small amount whose status is approved.
def approved : Valuation where
  input
    | path b => if b.path = "Amount" then .integer 5 else .string "A"
    | _      => .undefined
  input_scalar {e} h := by
    cases e
    case path b => cases decEq b.path "Amount" <;> simp_all [Value.isScalar]
    all_goals rfl
  input_same {e f} _ h := by
    fun_cases same e f <;> simp_all [same]
    case case2 => rw [path_eq_of_samePath h]

theorem equalities_evaluate_approved :
    let small  := comparison .lessThan (pathTo "Amount") (ofInt 10)
    let status := ifElse small (ofString "A") (pathTo "Status")
    approved.Definite status ∧ approved.Definite (ofString "A") ∧
      (approved.eval (equal status (ofString "A"))).isTruthy = true ∧
      (approved.eval (notEqual status (ofString "A"))).isTruthy = false ∧
      ¬(approved.eval (isEmpty status)).isTruthy := by
  intro small status
  have hd : approved.DefiniteNode small := fun _ => by decide +kernel
  have hs : approved.Definite status := by
    have hn : status.nodes =
        [status, small, pathTo "Amount", ofInt 10, ofString "A", pathTo "Status"] := rfl
    simp only [Definite, AllNodes, hn, forall_mem_cons]
    exact ⟨trivial, hd, trivial, trivial, trivial, trivial, forall_mem_nil _⟩
  have ha : approved.Definite (ofString "A") := approved.inherited_definite.scalar rfl
  have hv : approved.eval status = .string "A" := by
    have : (approved.eval small).isTruthy := by decide +kernel
    rw [eval, if_pos this]
    rfl
  obtain ⟨heq, hempty⟩ := approved.equalities_evaluate
  obtain ⟨he, hn⟩ := heq status (ofString "A") hs ha
  refine ⟨hs, ha, ?_, ?_, ?_⟩
  · rw [he, hv]; rfl
  · rw [hn, hv]; rfl
  · rw [hempty status hs, hv]
    simp

end Valuation
end Expr
end BindingAlgebra
