import BindingAlgebra.Expr.Outline
import BindingAlgebra.Proofs.Alike
import BindingAlgebra.Proofs.Choice
import BindingAlgebra.Proofs.Operands

namespace BindingAlgebra

-- The truth of a set, given that of its operands.
def LogicalOperator.join : LogicalOperator → List Bool → Bool
  | and, bs => bs.all id
  | or, bs  => bs.any id

theorem LogicalOperator.join_eq_absorbing_iff {op : LogicalOperator} {bs : List Bool} :
    op.join bs = op.absorbing ↔ op.absorbing ∈ bs := by
  cases op <;> simp [join, absorbing]

namespace Expr

open List

-- Expressions whose truth does not follow from that of their parts.
def isAtom : Expr → Bool
  | constant _ | not _ | truthy _ | set _ _ | ifElse _ _ _ => false
  | _                                                      => true

-- Truth of atoms, as far as it is bound to agree: equal atoms are equally true, and of two opposite
-- comparisons one is true.
structure Assignment where
  atom        : Expr → Bool
  atom_same   : ∀ {e f : Expr}, e.isAtom → e.same f → atom e = atom f
  atom_negate : ∀ op l r, atom (comparison op.negate l r) = !atom (comparison op l r)

namespace Assignment

variable (a : Assignment) {e f : Expr} {es : List Expr} {op : LogicalOperator}

mutual

def holds : Expr → Bool
  | .constant v   => v.isTruthy
  | .not e        => !holds e
  | .truthy e     => holds e
  | .set op es    => op.join (truths es)
  | .ifElse c t f => if holds c then holds t else holds f
  | e             => a.atom e
termination_by structural e => e

def truths : List Expr → List Bool
  | []      => []
  | e :: es => holds e :: truths es
termination_by structural es => es

end

theorem truths_eq_map (es : List Expr) : a.truths es = es.map a.holds := by
  induction es <;> simp_all [truths]

theorem holds_set_iff :
    a.holds (set op es) = op.absorbing ↔ ∃ e ∈ es, a.holds e = op.absorbing := by
  rw [holds, LogicalOperator.join_eq_absorbing_iff, truths_eq_map, mem_map]

theorem holds_ofBool (b : Bool) : a.holds (ofBool b) = b := by
  simp [ofBool, holds, Value.isTruthy]

theorem truths_eq_of_sameAll {fs : List Expr}
    (ih : ∀ e ∈ es, ∀ {f}, e.same f → a.holds e = a.holds f) (h : sameAll es fs) :
    a.truths es = a.truths fs := by
  rw [truths_eq_map, truths_eq_map, map_eq_of_same ih (sameAll_iff.mp h)]

-- Equal expressions are equally true.
theorem holds_eq_of_same (h : e.same f) : a.holds e = a.holds f := by
  induction e using children_induction generalizing f
  case step e ih =>
    by_cases ha : e.isAtom
    case pos =>
      have := a.atom_same ha h
      fun_cases same e f <;> simp_all [holds, isAtom, same]
    case neg =>
      fun_cases same e f <;>
        simp only [same, Bool.and_eq_true, beq_iff_eq, children, Bool.false_eq_true] at h ih <;>
        simp only [isAtom, not_true_eq_false] at ha
      case case1 => simpa [holds] using Value.isTruthy_congr h
      case case6 => simp [holds, ih _ mem_cons_self h]
      case case7 => simp [holds, ih _ mem_cons_self h]
      case case8 => simp [holds, h.1, a.truths_eq_of_sameAll ih h.2]
      case case10 =>
        simp [holds, ih _ (by simp) h.1.1, ih _ (by simp) h.1.2, ih _ (by simp) h.2]

-- Truth is a value like any other.
def interpretation : Interpretation Bool where
  value              := a.holds
  truth              := a.holds
  value_same         := a.holds_eq_of_same
  truth_same         := a.holds_eq_of_same
  truth_constant _   := by rw [holds]
  truth_not _        := by rw [holds]
  value_ifElse _ _ _ := by rw [holds]

theorem exists_operandsIn_iff :
    (∃ f ∈ operandsIn op e, a.holds f = op.absorbing) ↔ a.holds e = op.absorbing := by
  by_cases h : ∃ es, e = .set op es
  case pos =>
    obtain ⟨es, rfl⟩ := h
    simp [operandsIn, holds_set_iff]
  case neg =>
    push Not at h
    simp [operandsIn_eq_singleton h]

-- Flattening changes nothing in whether some operand decides the set.
theorem exists_flatten_iff :
    (∃ e ∈ flatten op es, a.holds e = op.absorbing) ↔ ∃ e ∈ es, a.holds e = op.absorbing := by
  constructor
  case mp =>
    rintro ⟨f, hm, hf⟩
    have ⟨e, he, hfe⟩ := mem_flatten hm
    exact ⟨e, he, a.exists_operandsIn_iff.mp ⟨f, hfe, hf⟩⟩
  case mpr =>
    rintro ⟨e, hm, he⟩
    have ⟨f, hfe, hf⟩ := a.exists_operandsIn_iff.mpr he
    rcases mem_distinct_or_same (mem_flatMap.mpr ⟨e, hm, hfe⟩) with hd | ⟨g, hd, hg⟩
    case inl => exact ⟨f, hd, hf⟩
    case inr => exact ⟨g, hd, (a.holds_eq_of_same hg).trans hf⟩

theorem holds_of_absorbs (h : absorbs op e) : a.holds e = op.absorbing := by
  cases e <;> simp_all [absorbs, holds]

theorem isConstant_of_not_absorbs (h : ¬absorbs op e) (hc : e.isConstant) :
    a.holds e ≠ op.absorbing := by
  obtain ⟨v, rfl⟩ := isConstant_iff.mp hc
  simpa [absorbs, holds] using h

-- Once no constant decides a set, only what is pending can.
theorem exists_pending_iff (h : ∀ e ∈ es, ¬absorbs op e) :
    (∃ e ∈ es.filter (!·.isConstant), a.holds e = op.absorbing) ↔
      ∃ e ∈ es, a.holds e = op.absorbing := by
  constructor
  case mp =>
    rintro ⟨e, hm, he⟩
    exact ⟨e, filter_sublist.subset hm, he⟩
  case mpr =>
    rintro ⟨e, hm, he⟩
    refine ⟨e, mem_filter.mpr ⟨hm, ?_⟩, he⟩
    by_contra hc
    exact a.isConstant_of_not_absorbs (h e hm) (by simpa using hc) he

theorem holds_foldSet_iff {neg : Expr → Expr}
    (hn : ∀ e ∈ es, a.holds (neg e) = !a.holds e) :
    a.holds (foldSet neg op es) = op.absorbing ↔ ∃ e ∈ es, a.holds e = op.absorbing := by
  have h := folded_foldSet neg op es
  generalize foldSet neg op es = folded at h
  cases h
  case single h => simp [h]
  case absorbed e hm ha =>
    simp only [holds_ofBool, true_iff]
    exact ⟨e, hm, a.holds_of_absorbs ha⟩
  case none ha h => simp [← a.exists_pending_iff ha, h, holds_ofBool]
  case last ha h => simp [← a.exists_pending_iff ha, h]
  case opposite h =>
    have ⟨e, he, f, hf, hs⟩ := exists_of_hasOpposite h
    have hef := a.holds_eq_of_same hs
    rw [hn e (filter_sublist.subset he)] at hef
    simp only [holds_ofBool, true_iff]
    -- One of the two opposites has the truth that decides the set.
    by_cases hd : a.holds e = op.absorbing
    case pos => exact ⟨e, filter_sublist.subset he, hd⟩
    case neg =>
      refine ⟨f, filter_sublist.subset hf, ?_⟩
      rw [← hef, Bool.not_eq_eq_eq_not]
      exact Bool.eq_not.mpr hd
  case set ha _ _ => rw [holds_set_iff, a.exists_pending_iff ha]

theorem holds_setWith_iff {neg : Expr → Expr} (op : LogicalOperator)
    (hn : ∀ e, e.Resolvable → a.holds (neg e) = !a.holds e) (hr : ∀ e ∈ es, e.Resolvable) :
    a.holds (setWith neg op es) = op.absorbing ↔ ∃ e ∈ es, a.holds e = op.absorbing := by
  have hf := Resolvable.inherited.flatten op hr
  rw [setWith, if_neg (Resolvable.not_hasUnresolvable hf),
    a.holds_foldSet_iff fun e he => hn e (hf e he), a.exists_flatten_iff]

theorem holds_negateAtom (h : e ≠ unresolvable) : a.holds (negateAtom e) = !a.holds e := by
  cases e <;> simp_all [negateAtom, holds, holds_ofBool, a.atom_negate]

-- Negation turns truth around. Where it reaches the operands of a set, this is De Morgan's law.
theorem holds_negate (h : e.Resolvable) : a.holds (negate e) = !a.holds e := by
  unfold negate
  split
  case h_2 => exact a.holds_negateAtom h.ne
  case h_1 op es =>
    split
    case isFalse => simp [holds]
    case isTrue =>
      have hr : ∀ f ∈ es.map negateAtom, f.Resolvable :=
        Resolvable.inherited.map_negateAtom fun _ => h.child
      have hd := a.holds_setWith_iff op.dual (fun e he => a.holds_negateAtom he.ne) hr
      have hm : (∃ f ∈ es.map negateAtom, a.holds f = op.dual.absorbing) ↔
          ∃ e ∈ es, a.holds e = op.absorbing := by
        simp only [mem_map, exists_exists_and_eq_and]
        refine exists_congr fun e => and_congr_right fun he => ?_
        rw [a.holds_negateAtom (h.child he).ne]
        cases op <;> simp [LogicalOperator.dual, LogicalOperator.absorbing]
      rw [hm, ← a.holds_set_iff] at hd
      cases op <;> simp_all [LogicalOperator.dual, LogicalOperator.absorbing]

theorem holds_setOf (op : LogicalOperator) (h : ∀ e ∈ es, e.Resolvable) :
    a.holds (setOf op es) = op.join (es.map a.holds) := by
  have := a.holds_setWith_iff op (fun _ he => a.holds_negate he) h
  rw [← a.holds_set_iff, holds, truths_eq_map] at this
  cases op <;> simp_all [LogicalOperator.absorbing, setOf]

theorem holds_allOf (h : ∀ e ∈ es, e.Resolvable) : a.holds (allOf es) = es.all a.holds := by
  simp [allOf, a.holds_setOf .and h, LogicalOperator.join]

theorem holds_anyOf (h : ∀ e ∈ es, e.Resolvable) : a.holds (anyOf es) = es.any a.holds := by
  simp [anyOf, a.holds_setOf .or h, LogicalOperator.join]

theorem holds_truthOf (e : Expr) : a.holds (truthOf e) = a.holds e := by
  cases e <;> simp [truthOf, holds, holds_ofBool]

theorem holds_canonical {c t f c' t' f' : Expr} (h : canonical c t f = (c', t', f')) :
    a.holds (ifElse c' t' f') = a.holds (ifElse c t f) := by
  rw [holds, holds]
  exact a.interpretation.value_canonical h

theorem holds_collapsed {c t f : Expr} (h : Collapsed c t f e) (hc : c.Resolvable)
    (ht : t.Resolvable) (hf : f.Resolvable) : a.holds e = a.holds (ifElse c t f) := by
  cases h
  case constant v hv => cases h : v.isTruthy <;> simp [holds, hv, h]
  case same hs => simp [holds, a.holds_eq_of_same hs]
  case falseElse h =>
    rw [a.holds_allOf (by simp [hc, ht])]
    simp [holds, h, holds_ofBool]
  case trueElse h =>
    rw [a.holds_anyOf (by simp [hc.negate, ht])]
    simp [holds, h, holds_ofBool, a.holds_negate hc]
  case falseThen h =>
    rw [a.holds_allOf (by simp [hc.negate, hf])]
    simp [holds, h, holds_ofBool, a.holds_negate hc]
  case trueThen h =>
    rw [a.holds_anyOf (by simp [hc, hf])]
    simp [holds, h, holds_ofBool]

theorem holds_choose {c t f : Expr} (hc : c.Resolvable) (ht : t.Resolvable) (hf : f.Resolvable)
    (hc' : ¬c.isComplex) (ht' : ¬t.isComplex) (hf' : ¬f.isComplex) :
    a.holds (choose c t f) = if a.holds c then a.holds t else a.holds f := by
  have hu : ¬hasUnresolvable [c, t, f] := Resolvable.not_hasUnresolvable (by simp [hc, ht, hf])
  rcases h : canonical c t f with ⟨d, u, g⟩
  have hr := Resolvable.inherited.canonical h hc ht hf
  have hx := canonical_not_complex h hc' ht' hf'
  have hd : a.holds (ifElse d u g) = if a.holds c then a.holds t else a.holds f := by
    rw [a.holds_canonical h, holds]
  rw [choose, chooseWith_eq hu h, ← hd]
  cases hs : collapse? d u g
  case some => exact a.holds_collapsed (collapsed_of_collapse? hs) hr.1 hr.2.1 hr.2.2
  case none => simp [hx]

-- No rule by which sets, negations and conditionals are simplified turns truth around.
theorem operations_preserve_truth :
    (∀ es, (∀ e ∈ es, e.Resolvable) → a.holds (allOf es) = es.all a.holds) ∧
    (∀ es, (∀ e ∈ es, e.Resolvable) → a.holds (anyOf es) = es.any a.holds) ∧
    (∀ e, e.Resolvable → a.holds (negate e) = !a.holds e) ∧
    (∀ e, e.Resolvable → a.holds (truthOf e) = a.holds e) ∧
    (∀ c t f, c.Resolvable → t.Resolvable → f.Resolvable →
      ¬c.isComplex → ¬t.isComplex → ¬f.isComplex →
        a.holds (choose c t f) = if a.holds c then a.holds t else a.holds f) := by
  refine ⟨?_, ?_, ?_, ?_, ?_⟩
  · exact fun _ => a.holds_allOf
  · exact fun _ => a.holds_anyOf
  · exact fun _ => a.holds_negate
  · exact fun e _ => a.holds_truthOf e
  · exact fun _ _ _ => a.holds_choose

-- Of the paths one holds, and of two opposite comparisons the one that asks for equality or for
-- less.
def onlyVisible : Assignment where
  atom
    | path b            => b.path = "Visible"
    | comparison op _ _ => op ∈ [.equal, .lessThan, .lessOrEqual]
    | _                 => true
  atom_same {e f} _ h := by
    fun_cases same e f <;> simp_all [same]
    case case2 => rw [path_eq_of_samePath h]
  atom_negate op _ _ := by cases op <;> rfl

theorem onlyVisible_operations :
    let visible := pathTo "Visible"
    let draft   := comparison .notEqual (pathTo "Status") (ofString "D")
    let shown   := set .or [visible, not draft, ofString ""]
    (∀ e ∈ [visible, draft, shown], e.Resolvable ∧ ¬e.isComplex) ∧
      onlyVisible.holds (allOf [shown, draft, visible]) = false ∧
      onlyVisible.holds (anyOf [draft, shown]) = true ∧
      onlyVisible.holds (negate shown) = false ∧
      onlyVisible.holds (truthOf draft) = false ∧
      onlyVisible.holds (choose (not draft) shown (ofBool false)) = true := by
  have ⟨hall, hany, hnot, htruth, hchoose⟩ := onlyVisible.operations_preserve_truth
  refine ⟨by decide, ?_, ?_, ?_, ?_, ?_⟩
  · exact (hall _ (by decide)).trans (by decide)
  · exact (hany _ (by decide)).trans (by decide)
  · exact (hnot _ (by decide)).trans (by decide)
  · exact (htruth _ (by decide)).trans (by decide)
  · have h := hchoose (not (comparison .notEqual (pathTo "Status") (ofString "D")))
    exact (h _ _ (by decide) (by decide) (by decide) (by decide) (by decide) (by decide)).trans
      (by decide)

end Assignment
end Expr
end BindingAlgebra
