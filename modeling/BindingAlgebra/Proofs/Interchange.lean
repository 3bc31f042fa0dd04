import BindingAlgebra.Expr.Outline
import BindingAlgebra.Proofs.Choice
import BindingAlgebra.Proofs.Complement
import BindingAlgebra.Proofs.Congruence
import BindingAlgebra.Proofs.Equality
import BindingAlgebra.Proofs.Visited

namespace BindingAlgebra.Expr

open List

-- Of equal expressions one can stand for the other in whatever is put together.

variable {c t f c' t' f' e e' l l' r r' : Expr} {es es' : List Expr} {op : LogicalOperator}

theorem isComplex_eq_of_same (h : e.same e') : e.isComplex = e'.isComplex := by
  induction e using children_induction generalizing e'
  case step e ih =>
    exact isComplex_congr (kind_eq_of_same h) (map_eq_of_same ih (forall₂_children_of_same h))

theorem forall₂_pair (hl : l.same l') (hr : r.same r') : Forall₂ (same · ·) [l, r] [l', r'] :=
  .cons hl (.cons hr .nil)

theorem not_hasUnresolvable_pair (hl : l.same l') (hr : r.same r') : ¬hasUnresolvable [l, r] :=
  not_hasUnresolvable_of_same (forall₂_pair hl hr)

section Equality

theorem same_relate (op : ComparisonOperator) (hl : l.same l') (hr : r.same r') :
    (relate op l r).same (relate op l' r') := by
  by_cases hc : l.isConstant ∧ r.isConstant
  case pos =>
    obtain ⟨v, rfl⟩ := isConstant_iff.mp hc.left
    obtain ⟨w, rfl⟩ := isConstant_iff.mp hc.right
    obtain ⟨v', rfl, hv⟩ := exists_constant_of_same hl
    obtain ⟨w', rfl, hw⟩ := exists_constant_of_same hr
    rw [relate_constant, relate_constant, op.evaluate_congr hv hw]
    exact same_ofBool _
  case neg =>
    have hc' : ¬(l'.isConstant ∧ r'.isConstant) := by
      rwa [← isConstant_congr hl, ← isConstant_congr hr]
    have hu : ¬hasUnresolvable [l, r] := not_hasUnresolvable_pair hl hr
    have hu' : ¬hasUnresolvable [l', r'] :=
      not_hasUnresolvable_pair (same_symm hl) (same_symm hr)
    rw [relate_of_not_constant hu hc, relate_of_not_constant hu' hc']
    simp [same, hl, hr]

theorem excludes_of_same (ht : t.same t') (hf : f.same f') (hr : r.same r') (h : excludes t f r) :
    excludes t' f' r' := by
  obtain ⟨v, w, u, rfl, rfl, rfl, hv, hw⟩ := excludes_iff.mp h
  obtain ⟨v', rfl, hv'⟩ := exists_constant_of_same ht
  obtain ⟨w', rfl, hw'⟩ := exists_constant_of_same hf
  obtain ⟨u', rfl, hu'⟩ := exists_constant_of_same hr
  rw [Value.strictEquals_congr hv' hu'] at hv
  rw [Value.strictEquals_congr hw' hu'] at hw
  exact excludes_iff.mpr ⟨v', w', u', rfl, rfl, rfl, hv, hw⟩

theorem excludes_congr (ht : t.same t') (hf : f.same f') (hr : r.same r') :
    excludes t f r = excludes t' f' r' :=
  Bool.eq_iff_iff.mpr
    ⟨excludes_of_same ht hf hr, excludes_of_same (same_symm ht) (same_symm hf) (same_symm hr)⟩

-- One side of an equality is reduced alike if the equalities with its branches are.
theorem rel_reduceEqual?
    (ih : ∀ {b b'}, sizeOf b < sizeOf l → b.same b' → (equal b r).same (equal b' r'))
    (hl : l.same l') (hr : r.same r') :
    Option.Rel (same · ·) (reduceEqual? l r) (reduceEqual? l' r') := by
  have hb : ∀ b, r.isBoolean b = r'.isBoolean b := fun b => isBoolean_congr b hr
  have hn := same_negate hl
  have hs := hl
  fun_cases same l l' <;>
    simp only [same, Bool.and_eq_true, beq_iff_eq, Bool.false_eq_true] at hs
  case case9 =>
    simp only [reduceEqual?, hb]
    split_ifs
    · exact .some hl
    · exact .some hn
    · exact .none
  case case10 c t f c' t' f' =>
    obtain ⟨⟨hc, ht⟩, hf⟩ := hs
    have hsz := ifElse.sizeOf_spec c t f
    rw [reduceEqual?, reduceEqual?, same_congr ht hr, same_congr hf hr, excludes_congr ht hf hr]
    split_ifs
    · exact .some (same_setOf (forall₂_pair hc (ih (by omega) hf)))
    · exact .some (same_setOf (forall₂_pair (same_negate hc) (ih (by omega) ht)))
    · exact .some (same_ofBool false)
    · exact .none
  all_goals
    simp only [reduceEqual?]
    exact .none

theorem same_equal {l l' r r' : Expr} (hl : l.same l') (hr : r.same r') :
    (equal l r).same (equal l' r') := by
  have hu : ¬hasUnresolvable [l, r] := not_hasUnresolvable_pair hl hr
  have hu' : ¬hasUnresolvable [l', r'] := not_hasUnresolvable_pair (same_symm hl) (same_symm hr)
  have hlr := rel_reduceEqual? (fun _ hb => same_equal hb hr) hl hr
  have hrl := rel_reduceEqual? (fun _ hb => same_equal hb hl) hr hl
  rw [equal, equal, if_neg hu, if_neg hu', same_congr hl hr]
  split
  case isTrue => exact same_ofBool true
  case isFalse =>
    generalize reduceEqual? l r = a, reduceEqual? l' r' = a' at hlr
    generalize reduceEqual? r l = b, reduceEqual? r' l' = b' at hrl
    cases hlr
    case some h => exact h
    case none =>
      cases hrl
      case some h => exact h
      case none => exact same_relate .equal hl hr
termination_by sizeOf l + sizeOf r

end Equality

section Choice

theorem same_whenTrue (hc : c.same c') (he : e.same e') :
    (whenTrue c e).same (whenTrue c' e') := by
  have hs := he
  fun_cases same e e' <;> simp only [same, Bool.and_eq_true, Bool.false_eq_true] at hs
  case case10 =>
    obtain ⟨⟨hd, ht⟩, hf⟩ := hs
    rw [whenTrue, whenTrue, same_congr hd hc]
    split
    · exact ht
    · exact he
  all_goals exact he

theorem same_whenFalse (hc : c.same c') (he : e.same e') :
    (whenFalse c e).same (whenFalse c' e') := by
  have hs := he
  fun_cases same e e' <;> simp only [same, Bool.and_eq_true, Bool.false_eq_true] at hs
  case case10 =>
    obtain ⟨⟨hd, ht⟩, hf⟩ := hs
    rw [whenFalse, whenFalse, same_congr hd hc]
    split
    · exact hf
    · exact he
  all_goals exact he

theorem same_canonical (hc : c.same c') (ht : t.same t') (hf : f.same f') :
    (canonical c t f).1.same (canonical c' t' f').1 ∧
      (canonical c t f).2.1.same (canonical c' t' f').2.1 ∧
      (canonical c t f).2.2.same (canonical c' t' f').2.2 := by
  have hs := hc
  fun_cases same c c' <;> simp only [same, Bool.false_eq_true] at hs
  case case6 => exact ⟨hs, same_whenTrue hs hf, same_whenFalse hs ht⟩
  all_goals exact ⟨hc, same_whenTrue hc ht, same_whenFalse hc hf⟩

theorem collapse?_of_not_isConstant (h : ¬c.isConstant) (t f : Expr) :
    collapse? c t f =
      if t.same f then some t
      else if f.isBoolean false then some (allOf [c, t])
      else if f.isBoolean true then some (anyOf [negate c, t])
      else if t.isBoolean false then some (allOf [negate c, f])
      else if t.isBoolean true then some (anyOf [c, f])
      else none := by
  unfold collapse?
  split
  case h_1 => exact absurd rfl h
  case h_2 => rfl

theorem rel_collapse? (hc : c.same c') (ht : t.same t') (hf : f.same f') :
    Option.Rel (same · ·) (collapse? c t f) (collapse? c' t' f') := by
  by_cases hk : c.isConstant
  case pos =>
    obtain ⟨v, rfl⟩ := isConstant_iff.mp hk
    obtain ⟨w, rfl, hv⟩ := exists_constant_of_same hc
    rw [collapse?, collapse?, Value.isTruthy_congr hv]
    split
    · exact .some ht
    · exact .some hf
  case neg =>
    have hk' : ¬c'.isConstant := isConstant_congr hc ▸ hk
    have hn := same_negate hc
    rw [collapse?_of_not_isConstant hk, collapse?_of_not_isConstant hk', same_congr ht hf]
    simp only [fun b => isBoolean_congr b ht, fun b => isBoolean_congr b hf]
    split_ifs
    · exact .some ht
    · exact .some (same_setOf (forall₂_pair hc ht))
    · exact .some (same_setOf (forall₂_pair hn ht))
    · exact .some (same_setOf (forall₂_pair hn hf))
    · exact .some (same_setOf (forall₂_pair hc hf))
    · exact .none

-- What is outlined has its text written into it, and this text can tell equal expressions apart. So
-- complex values are left out here.
theorem same_choose (hc : c.same c') (ht : t.same t') (hf : f.same f') (hcx : ¬c.isComplex)
    (htx : ¬t.isComplex) (hfx : ¬f.isComplex) : (choose c t f).same (choose c' t' f') := by
  have hs : Forall₂ (same · ·) [c, t, f] [c', t', f'] := .cons hc (forall₂_pair ht hf)
  have hcx' : ¬c'.isComplex := isComplex_eq_of_same hc ▸ hcx
  have htx' : ¬t'.isComplex := isComplex_eq_of_same ht ▸ htx
  have hfx' : ¬f'.isComplex := isComplex_eq_of_same hf ▸ hfx
  have hp := same_canonical hc ht hf
  rcases h : canonical c t f with ⟨d, u, g⟩
  rcases h' : canonical c' t' f' with ⟨d', u', g'⟩
  rw [h, h'] at hp
  obtain ⟨hd, hu, hg⟩ := hp
  have hx := canonical_not_complex h hcx htx hfx
  have hx' := canonical_not_complex h' hcx' htx' hfx'
  have hr := rel_collapse? hd hu hg
  rw [choose, choose, chooseWith_eq (not_hasUnresolvable_of_same hs) h,
    chooseWith_eq (not_hasUnresolvable_of_same (forall₂_same_comm hs)) h']
  generalize collapse? d u g = a, collapse? d' u' g' = a' at hr
  cases hr
  case some hs => exact hs
  case none => simp [hx, hx', same, hd, hu, hg]

end Choice

-- Simplification cannot tell equal expressions apart, not even when it has them compared, ordered
-- or judged for their truth: what it makes of them is equal again. In particular it does not matter
-- which one of several equal operands is kept.
theorem simplification_respects_same :
    (∀ e e', e.same e' → (negate e).same (negate e') ∧ (truthOf e).same (truthOf e')) ∧
    (∀ es es', Forall₂ (same · ·) es es' →
      (allOf es).same (allOf es') ∧ (anyOf es).same (anyOf es')) ∧
    (∀ l l' r r', l.same l' → r.same r' →
      (∀ op, (relate op l r).same (relate op l' r')) ∧ (equal l r).same (equal l' r') ∧
        (notEqual l r).same (notEqual l' r')) ∧
    (∀ c c' t t' f f', c.same c' → t.same t' → f.same f' →
      ¬c.isComplex → ¬t.isComplex → ¬f.isComplex → (choose c t f).same (choose c' t' f')) ∧
    ∀ op es kept, Forall₂ (same · ·) (flatten op es) kept →
      (setOf op es).same (foldSet negate op kept) := by
  refine ⟨?_, ?_, ?_, ?_, ?_⟩
  · exact fun e e' h => ⟨same_negate h, same_truthOf h⟩
  · exact fun es es' h => ⟨same_setOf h, same_setOf h⟩
  · exact fun l l' r r' hl hr =>
      ⟨fun op => same_relate op hl hr, same_equal hl hr, same_negate (same_equal hl hr)⟩
  · exact fun c c' t t' f f' => same_choose
  · intro op es kept h
    rw [setOf, setWith, if_neg (not_hasUnresolvable_of_same h)]
    exact same_foldSet same_negate h

-- The two zeros, and the same attributes in another order.
theorem simplification_respects_same_zeros :
    let zero     := fun negative => constant (.decimal ⟨negative, 0⟩)
    let spent    := fun negative => comparison .greaterThan (pathTo "Amount") (zero negative)
    let listed   := constant (.object ⟨[("a", ofInt 1), ("b", ofInt 2)]⟩)
    let relisted := constant (.object ⟨[("b", ofInt 2), ("a", ofInt 1)]⟩)
    let e        := spent false
    let e'       := spent true
    let p        := pathTo "Visible"
    e.same e' ∧ listed.same relisted ∧
      (negate (set .or [e, listed])).same (negate (set .or [e', relisted])) ∧
      (anyOf [e, not p, negate e]).same (anyOf [e', not p, negate e']) ∧
      (relate .lessOrEqual (zero false) (ofInt 0)).same
        (relate .lessOrEqual (zero true) (ofInt 0)) ∧
      (equal (ifElse e (zero false) p) (zero true)).same
        (equal (ifElse e' (zero true) p) (zero false)) ∧
      (choose (not e) (ifElse e' p listed) (zero false)).same
        (choose (not e') (ifElse e p relisted) (zero true)) ∧
      (allOf [e, p, e']).same (foldSet negate .and [e', p]) := by
  intro zero spent listed relisted e e' p
  have hz : ∀ a b, (zero a).same (zero b) := by decide +kernel
  have he : e.same e' := by decide +kernel
  have hl : listed.same relisted := by decide +kernel
  have hp : p.same p := by decide +kernel
  have ⟨hone, hmany, htwo, hthree, hkept⟩ := simplification_respects_same
  refine ⟨he, hl, ?_, ?_, ?_, ?_, ?_, ?_⟩
  · exact (hone _ _ (by decide +kernel)).left
  · refine (hmany _ _ ?_).right
    exact .cons he (.cons (by simpa [same] using hp) (.cons (hone _ _ he).left .nil))
  · exact (htwo _ _ _ _ (hz _ _) (by decide +kernel)).left _
  · exact (htwo _ _ _ _ (by decide +kernel) (hz _ _)).right.left
  · refine hthree _ _ _ _ _ _ ?_ ?_ (hz _ _) ?_ ?_ ?_ <;> decide +kernel
  · have hf : flatten .and [e, p, e'] = [e, p] := rfl
    exact hkept _ _ _ (hf ▸ .cons he (.cons hp .nil))

end BindingAlgebra.Expr
