import BindingAlgebra.Proofs.Built
import BindingAlgebra.Proofs.Opposite

namespace BindingAlgebra.Expr

open List

-- Negation undoes itself, and it turns a set of constants and comparisons into the dual set of
-- their negations, whenever the operands are simplified.

variable {op : LogicalOperator} {e : Expr} {es : List Expr}

theorem negate_ofBool (b : Bool) : negate (ofBool b) = ofBool !b :=
  rfl

theorem absorbing_dual (op : LogicalOperator) : op.dual.absorbing = !op.absorbing := by
  cases op <;> rfl

section Literals

-- In the following operands are constants or comparisons.

theorem ne_set_of_literal (h : e.isConstant ∨ e.isComparison) : ∀ fs, e ≠ set op fs := by
  rcases h with hc | hc
  case inl => obtain ⟨v, rfl⟩ := isConstant_iff.mp hc; exact nofun
  case inr => exact isComparison_ne_set hc

theorem literal_negateAtom (h : e.isConstant ∨ e.isComparison) :
    (negateAtom e).isConstant ∨ (negateAtom e).isComparison := by
  rcases h with hc | hc
  case inl => obtain ⟨v, rfl⟩ := isConstant_iff.mp hc; exact .inl rfl
  case inr => exact .inr (isComparison_negateAtom hc)

theorem isConstant_negateAtom (h : e.isConstant ∨ e.isComparison) :
    (negateAtom e).isConstant = e.isConstant := by
  rcases h with hc | hc
  case inl => obtain ⟨v, rfl⟩ := isConstant_iff.mp hc; rfl
  case inr => obtain ⟨op, l, r, rfl⟩ := isComparison_iff.mp hc; rfl

theorem absorbs_negateAtom (op : LogicalOperator) (h : e.isConstant ∨ e.isComparison) :
    absorbs op.dual (negateAtom e) = absorbs op e := by
  rcases h with hc | hc
  case inl =>
    obtain ⟨v, rfl⟩ := isConstant_iff.mp hc
    rw [negateAtom, absorbs, ofBool, absorbs, absorbing_dual, Value.isTruthy]
    cases v.isTruthy <;> cases op <;> rfl
  case inr => obtain ⟨op, l, r, rfl⟩ := isComparison_iff.mp hc; rfl

theorem judged_map_negateAtom (h : ∀ e ∈ es, e.isConstant ∨ e.isComparison) :
    Judged (es.map negateAtom) := by
  intro v hv
  have hm : constant v ∈ es.map negateAtom := (distinct_sublist _).subset (by simp [hv])
  obtain ⟨e, he, hn⟩ := mem_map.mp hm
  rcases h e he with hc | hc
  case inl => obtain ⟨w, rfl⟩ := isConstant_iff.mp hc; exact ⟨_, hn.symm⟩
  case inr => obtain ⟨op, l, r, rfl⟩ := isComparison_iff.mp hc; contradiction

theorem hasOpposite_map_negateAtom (h : ∀ e ∈ es, e.isComparison) :
    hasOpposite negate (es.map negateAtom) = hasOpposite negate es := by
  rw [← Bool.not_inj_iff, Bool.eq_iff_iff, Bool.not_eq_true', Bool.not_eq_true',
    hasOpposite_eq_false_iff, hasOpposite_eq_false_iff, pairwise_map]
  refine Pairwise.iff_of_mem fun {e f} he hf => ?_
  have hn := isComparison_negateAtom (h e he)
  rw [negate_of_isComparison hn, same_negateAtom_iff hn (h f hf), negate_of_isComparison (h e he)]

theorem negate_foldSet_comparisons (hc : ∀ e ∈ es, e.isComparison)
    (hd : es.Pairwise (¬same · ·)) :
    negate (foldSet negate op es) = foldSet negate op.dual (es.map negateAtom) := by
  have hm : ∀ e ∈ es.map negateAtom, e.isComparison :=
    forall_mem_map.mpr fun e he => isComparison_negateAtom (hc e he)
  have hce := fun e he => isComparison_not_isConstant (hc e he)
  have hcm := fun e he => isComparison_not_isConstant (hm e he)
  by_cases ho : hasOpposite negate es
  case pos =>
    rw [foldSet_opposite hce ho, foldSet_opposite hcm (hasOpposite_map_negateAtom hc ▸ ho),
      negate_ofBool, absorbing_dual]
  case neg =>
    rcases es with _ | ⟨e, _ | ⟨f, es⟩⟩
    case nil => cases op <;> rfl
    case cons.nil => exact negate_of_isComparison (hc e mem_cons_self)
    case cons.cons =>
      have hdm := pairwise_map_negateAtom hc hd
      have hu : unresolvable ∉ (e :: f :: es).map negateAtom :=
        fun hu => Bool.false_ne_true (hm _ hu)
      calc
        negate (foldSet negate op (e :: f :: es)) = negate (set op (e :: f :: es)) := by
          rw [foldSet_pending (by simp) hce, if_neg ho]
        _ = setOf op.dual ((e :: f :: es).map negateAtom) := negate_set fun d h => .inr (hc d h)
        _ = foldSet negate op.dual ((e :: f :: es).map negateAtom) := by
          rw [setOf_of_flat (fun d h => isComparison_ne_set (hm d h)) hu, distinct_eq_self hdm]

theorem negate_foldSet_literals (h : ∀ e ∈ es, e.isConstant ∨ e.isComparison)
    (hd : es.Pairwise (¬same · ·)) :
    negate (foldSet negate op es) = foldSet negate op.dual (distinct (es.map negateAtom)) := by
  have hj := judged_map_negateAtom h
  by_cases hl : es.length = 1
  case pos =>
    obtain ⟨e, rfl⟩ := length_eq_one_iff.mp hl
    exact negate_of_ne_set fun op => ne_set_of_literal (h e mem_cons_self)
  case neg =>
    by_cases ha : ∃ e ∈ es, absorbs op e
    case pos =>
      have ham : ∃ e ∈ es.map negateAtom, absorbs op.dual e := by
        obtain ⟨e, he, ha⟩ := ha
        exact ⟨negateAtom e, mem_map_of_mem he, by rwa [absorbs_negateAtom op (h e he)]⟩
      rw [foldSet_absorbed hl ha, foldSet_of_absorbs hj ham, negate_ofBool, absorbing_dual]
    case neg =>
      push Not at ha
      have ham : ∀ e ∈ es.map negateAtom, ¬absorbs op.dual e := by
        refine forall_mem_map.mpr fun e he => ?_
        rw [absorbs_negateAtom op (h e he)]
        exact ha e he
      have hf : (es.map negateAtom).filter (!·.isConstant) =
          (es.filter (!·.isConstant)).map negateAtom := by
        rw [filter_map]
        refine congrArg _ (filter_congr fun e he => ?_)
        rw [Function.comp, isConstant_negateAtom (h e he)]
      have hc : ∀ e ∈ es.filter (!·.isConstant), e.isComparison := by
        intro e he
        exact (h e (filter_sublist.subset he)).resolve_left (not_isConstant_of_mem_filter he)
      have hs := hd.sublist (filter_sublist (p := fun e => !e.isConstant))
      rw [foldSet_filter hl (by simpa using ha), foldSet_of_not_absorbs hj ham, hf,
        negate_foldSet_comparisons hc hs, distinct_eq_self (pairwise_map_negateAtom hc hs)]

end Literals

-- Operands that cannot be told apart are negated alike, so it does not matter whether they are
-- dropped before or afterwards.
theorem negate_setOf_literals (h : ∀ e ∈ es, e.isConstant ∨ e.isComparison ∨ e = unresolvable) :
    negate (setOf op es) = setOf op.dual (es.map negate) := by
  by_cases hu : unresolvable ∈ es
  case pos =>
    have hum : unresolvable ∈ es.map negate := mem_map.mpr ⟨_, hu, rfl⟩
    rw [setOf_unresolvable hu, setOf_unresolvable hum]
    rfl
  case neg =>
    have hl : ∀ e ∈ es, e.isConstant ∨ e.isComparison := by
      intro e he
      rcases h e he with hc | hc | rfl
      case inl => exact .inl hc
      case inr.inl => exact .inr hc
      case inr.inr => exact absurd he hu
    have hm : es.map negate = es.map negateAtom :=
      map_congr_left fun e he => negate_of_ne_set fun op => ne_set_of_literal (hl e he)
    have hlm : ∀ e ∈ es.map negateAtom, e.isConstant ∨ e.isComparison :=
      forall_mem_map.mpr fun e he => literal_negateAtom (hl e he)
    have hum : unresolvable ∉ es.map negateAtom := by
      intro hu
      simpa [isConstant, isComparison, kind] using hlm _ hu
    have hd : ∀ e ∈ distinct es, e.isConstant ∨ e.isComparison :=
      fun e he => hl e ((distinct_sublist es).subset he)
    rw [hm, setOf_of_flat (fun e he => ne_set_of_literal (hl e he)) hu,
      setOf_of_flat (fun e he => ne_set_of_literal (hlm e he)) hum, distinct_map same_negateAtom,
      negate_foldSet_literals hd (distinct_pairwise es)]

-- What is negated operand by operand: constants of any kind, comparisons of any operands, and what
-- has no value.
theorem de_morgan_literals (h : ∀ e ∈ es, e.isConstant ∨ e.isComparison ∨ e = unresolvable) :
    negate (allOf es) = anyOf (es.map negate) ∧ negate (anyOf es) = allOf (es.map negate) :=
  ⟨negate_setOf_literals h, negate_setOf_literals h⟩

-- Truthy constants are dropped from a conjunction as they are, and from the disjunction as negated
-- ones, and of the repeated comparison one is left on either side.
theorem de_morgan_literals_mixed :
    let few := comparison .lessThan (pathTo "Quantity") (ofInt 5)
    let new := comparison .equal (pathTo "Status") (ofString "New")
    let es  := [ofString "x", few, new, constant (.array []), few]
    (∀ e ∈ es, e.isConstant ∨ e.isComparison ∨ e = unresolvable) ∧
      (anyOf (es.map negate)).children.length = 2 ∧
      negate (allOf es) = anyOf (es.map negate) ∧ negate (anyOf es) = allOf (es.map negate) := by
  intro few new es
  have h : ∀ e ∈ es, e.isConstant ∨ e.isComparison ∨ e = unresolvable := by
    simp [es, few, new, ofString, isConstant, isComparison, kind]
  exact ⟨h, by decide +kernel, de_morgan_literals h⟩

namespace Built

-- Truth is all that two negations leave of a constant. Of anything else they leave everything.
theorem negated_twice (h : Built e) :
    (¬e.isConstant → Expr.negate (Expr.negate e) = e) ∧
      ∀ v, e = constant v → Expr.negate (Expr.negate e) = ofBool v.isTruthy := by
  refine ⟨fun hc => ?_, ?_⟩
  · rcases h.simplified with rfl | hn
    case inl => rfl
    case inr => exact negate_negate hn hc
  · rintro v rfl
    rw [← Bool.not_not v.isTruthy]
    rfl

-- The operators of all operands and of the set itself are turned round, and back.
theorem negated_twice_comparisons :
    let few := Expr.relate .lessThan (.pathTo "Quantity") (ofInt 5)
    let new := Expr.equal (.pathTo "Status") (.ofString "New")
    let e   := Expr.anyOf [few, new]
    Built e ∧ ¬e.isConstant ∧ e.kind = (Expr.negate e).kind ∧ ¬(Expr.negate e).same e ∧
      Expr.negate (Expr.negate e) = e := by
  intro few new e
  have hf : Built few := .relate _ (.pathTo "Quantity" none) (.ofValue (v := .integer 5) nofun)
  have hn : Built new := .equal (.pathTo "Status" none) (.ofString "New")
  have he : Built e := .anyOf (by simp [hf, hn])
  have hc : ¬e.isConstant := by decide +kernel
  exact ⟨he, hc, by decide +kernel, by decide +kernel, he.negated_twice.left hc⟩

end Built

end BindingAlgebra.Expr
