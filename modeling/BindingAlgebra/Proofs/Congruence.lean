import BindingAlgebra.Proofs.Alike
import BindingAlgebra.Proofs.Folding

namespace BindingAlgebra.Expr

open List

-- Simplification cannot tell equal expressions apart: what it makes of them is equal, too.

variable {op : LogicalOperator} {e e' f f' : Expr} {es fs : List Expr} {neg : Expr → Expr}

theorem same_congr_left (h : e.same e') (f : Expr) : e.same f = e'.same f :=
  Bool.eq_iff_iff.mpr ⟨same_trans (same_symm h), same_trans h⟩

theorem same_congr_right (e : Expr) (h : f.same f') : e.same f = e.same f' :=
  Bool.eq_iff_iff.mpr ⟨(same_trans · h), (same_trans · (same_symm h))⟩

theorem same_congr (he : e.same e') (hf : f.same f') : e.same f = e'.same f' :=
  (same_congr_left he f).trans (same_congr_right e' hf)

theorem isConstant_congr (h : e.same f) : e.isConstant = f.isConstant := by
  rw [isConstant, isConstant, kind_eq_of_same h]

theorem isComparison_congr (h : e.same f) : e.isComparison = f.isComparison := by
  rw [isComparison, isComparison, kind_eq_of_same h]

theorem absorbs_congr (h : e.same f) : absorbs op e = absorbs op f := by
  fun_cases same e f <;> simp only [same, Bool.false_eq_true] at h
  case case1 => simp only [absorbs, Value.isTruthy_congr h]
  all_goals rfl

-- What equals a boolean is that boolean.
theorem eq_ofBool_of_same {b : Bool} (h : e.same (ofBool b)) : e = ofBool b := by
  cases e <;> simp only [ofBool, same, Bool.false_eq_true] at h
  case constant v =>
    cases v <;> simp only [sameValue, Bool.false_eq_true] at h
    case boolean => rw [ofBool, eq_of_beq h]

theorem isBoolean_congr (b : Bool) (h : e.same f) : e.isBoolean b = f.isBoolean b := by
  refine Bool.eq_iff_iff.mpr ?_
  rw [isBoolean_iff, isBoolean_iff]
  constructor
  case mp =>
    rintro rfl
    exact eq_ofBool_of_same (same_symm h)
  case mpr =>
    rintro rfl
    exact eq_ofBool_of_same h

theorem exists_constant_of_same {v : Value Expr} (h : (constant v).same e) :
    ∃ w, e = constant w ∧ sameValue v w := by
  cases e <;> simp only [same, Bool.false_eq_true] at h
  case constant w => exact ⟨w, rfl, h⟩

theorem same_ofBool (b : Bool) : (ofBool b).same (ofBool b) := by
  simp [ofBool, same, sameValue]

theorem not_unresolvable_same : ¬unresolvable.same f := by
  cases f <;> exact Bool.false_ne_true

section Lists

variable {p q : Expr → Bool}

theorem not_hasUnresolvable_of_same (h : Forall₂ (same · ·) es fs) : ¬hasUnresolvable es := by
  rw [hasUnresolvable_iff]
  induction h
  case nil => exact not_mem_nil
  case cons he _ ih =>
    intro hm
    rcases mem_cons.mp hm with rfl | hm
    case inl => exact not_unresolvable_same he
    case inr => exact ih hm

theorem forall₂_same_comm (h : Forall₂ (same · ·) es fs) : Forall₂ (same · ·) fs es :=
  forall₂_same_symm (fun _ _ _ => same_symm) h

theorem forall₂_filter (hpq : ∀ {e f}, e.same f → p e = q f) (h : Forall₂ (same · ·) es fs) :
    Forall₂ (same · ·) (es.filter p) (fs.filter q) :=
  rel_filter (fun _ _ hs => Bool.eq_iff_iff.mp (hpq hs)) h

theorem any_congr_of_same (hpq : ∀ {e f}, e.same f → p e = q f) (h : Forall₂ (same · ·) es fs) :
    es.any p = fs.any q := by
  induction h
  case nil => rfl
  case cons he _ ih => rw [any_cons, any_cons, hpq he, ih]

theorem forall₂_distinct (h : Forall₂ (same · ·) es fs) :
    Forall₂ (same · ·) (distinct es) (distinct fs) := by
  induction h
  case nil => exact .nil
  case cons he _ ih => exact .cons he (forall₂_filter (fun hs => by rw [same_congr he hs]) ih)

theorem forall₂_operandsIn (h : e.same f) :
    Forall₂ (same · ·) (operandsIn op e) (operandsIn op f) := by
  have hw : Forall₂ (same · ·) [e] [f] := .cons h .nil
  fun_cases same e f <;> simp only [same, Bool.false_eq_true] at h
  case case8 o es p fs =>
    obtain ⟨rfl, hs⟩ : o = p ∧ sameAll es fs := by simpa using h
    by_cases ho : o = op
    case pos => simpa [operandsIn, ho] using sameAll_iff.mp hs
    case neg => simpa [operandsIn, ho] using hw
  all_goals exact hw

theorem forall₂_flatten (h : Forall₂ (same · ·) es fs) :
    Forall₂ (same · ·) (flatten op es) (flatten op fs) :=
  forall₂_distinct (rel_flatMap h fun _ _ => forall₂_operandsIn)

end Lists

section Negation

-- Sets are folded alike if their negations are.

variable (hn : ∀ {e f}, e.same f → (neg e).same (neg f))

include hn

theorem hasOpposite_eq_of_same (h : Forall₂ (same · ·) es fs) :
    hasOpposite neg es = hasOpposite neg fs := by
  induction h
  case nil => rfl
  case cons he hs ih =>
    have ha := any_congr_of_same (fun hd => same_congr (hn he) hd) hs
    rw [hasOpposite, hasOpposite, ha, ih]

theorem same_foldSet_pending (h : Forall₂ (same · ·) es fs) (he : ∀ e ∈ es, ¬e.isConstant)
    (hf : ∀ f ∈ fs, ¬f.isConstant) : (foldSet neg op es).same (foldSet neg op fs) := by
  have hl := h.length_eq
  by_cases h₂ : 2 ≤ es.length
  case pos =>
    rw [foldSet_pending h₂ he, foldSet_pending (hl ▸ h₂) hf, hasOpposite_eq_of_same hn h]
    split
    case isTrue  => exact same_ofBool _
    case isFalse => simpa [same] using sameAll_iff.mpr h
  case neg =>
    cases h
    case nil => exact same_ofBool _
    case cons hd hs =>
      cases hs
      case nil  => exact hd
      case cons => simp at h₂

theorem same_foldSet (h : Forall₂ (same · ·) es fs) :
    (foldSet neg op es).same (foldSet neg op fs) := by
  have hl := h.length_eq
  by_cases h₁ : es.length = 1
  case pos =>
    cases h
    case nil => simp at h₁
    case cons hd hs =>
      cases hs
      case nil  => exact hd
      case cons => simp at h₁
  case neg =>
    have ha : es.any (absorbs op) = fs.any (absorbs op) := any_congr_of_same absorbs_congr h
    by_cases hes : es.any (absorbs op)
    case pos =>
      rw [foldSet_absorbed h₁ (any_eq_true.mp hes),
        foldSet_absorbed (hl ▸ h₁) (any_eq_true.mp (ha ▸ hes))]
      exact same_ofBool _
    case neg =>
      have hfs : ¬fs.any (absorbs op) := ha ▸ hes
      have h₁' : fs.length ≠ 1 := hl ▸ h₁
      rw [foldSet_filter h₁ (by simpa using hes), foldSet_filter h₁' (by simpa using hfs)]
      have hc := forall₂_filter (fun hs => congrArg Bool.not (isConstant_congr hs)) h
      exact same_foldSet_pending hn hc (fun _ => not_isConstant_of_mem_filter)
        fun _ => not_isConstant_of_mem_filter

theorem same_setWith (h : Forall₂ (same · ·) es fs) :
    (setWith neg op es).same (setWith neg op fs) := by
  have hf : Forall₂ (same · ·) (flatten op es) (flatten op fs) := forall₂_flatten h
  rw [setWith, setWith, if_neg (not_hasUnresolvable_of_same hf),
    if_neg (not_hasUnresolvable_of_same (forall₂_same_comm hf))]
  exact same_foldSet hn hf

end Negation

theorem same_negateAtom (h : e.same f) : (negateAtom e).same (negateAtom f) := by
  have hw : (not e).same (not f) := by simpa [same] using h
  fun_cases same e f <;> simp only [same, Bool.and_eq_true, beq_iff_eq, Bool.false_eq_true] at h
  case case1 =>
    rw [negateAtom, negateAtom, Value.isTruthy_congr h]
    exact same_ofBool _
  case case6 => exact h
  case case9 => simp [negateAtom, same, h]
  all_goals exact hw

-- Equal expressions have equal negations.
theorem same_negate (h : e.same f) : (negate e).same (negate f) := by
  have ha := same_negateAtom h
  fun_cases same e f <;> simp only [same, Bool.false_eq_true] at h
  case case8 o es p fs =>
    obtain ⟨rfl, hs⟩ : o = p ∧ sameAll es fs := by simpa using h
    have hs₂ : Forall₂ (same · ·) es fs := sameAll_iff.mp hs
    have hm : Forall₂ (same · ·) (es.map negateAtom) (fs.map negateAtom) :=
      forall₂_map_left_iff.mpr (forall₂_map_right_iff.mpr (hs₂.imp fun _ _ => same_negateAtom))
    have hc := any_congr_of_same (fun hs => congrArg Bool.not
      (congrArg₂ or (isConstant_congr hs) (isComparison_congr hs))) hs₂
    rw [negate, negate, all_eq_not_any_not, all_eq_not_any_not, hc]
    split
    case isTrue  => exact same_setWith same_negateAtom hm
    case isFalse => simpa [same] using hs
  all_goals exact ha

theorem same_setOf (h : Forall₂ (same · ·) es fs) : (setOf op es).same (setOf op fs) :=
  same_setWith same_negate h

theorem same_truthOf (h : e.same f) : (truthOf e).same (truthOf f) := by
  have hw : (truthy e).same (truthy f) := by simpa [same] using h
  fun_cases same e f <;> simp only [same, Bool.false_eq_true] at h
  case case1 =>
    rw [truthOf, truthOf, Value.isTruthy_congr h]
    exact same_ofBool _
  all_goals exact hw

end BindingAlgebra.Expr
