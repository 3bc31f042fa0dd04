import BindingAlgebra.Expr.Equality
import BindingAlgebra.Proofs.Operands

namespace BindingAlgebra.Expr

-- What the equality of two expressions is reduced to. Either side can be the one that is reduced.
inductive Equated : Expr → Expr → Expr → Prop
  | unresolvable : hasUnresolvable [l, r] → Equated l r unresolvable
  | same : l.same r → Equated l r (ofBool true)
  | holds : Equated (comparison op x y) (ofBool true) (comparison op x y)
  | fails : Equated (comparison op x y) (ofBool false) (negate (comparison op x y))
  | whenTrue : t.same r → Equated f r e → Equated (ifElse c t f) r (anyOf [c, e])
  | whenFalse : f.same r → Equated t r e → Equated (ifElse c t f) r (anyOf [negate c, e])
  | excluded : excludes t f r → Equated (ifElse c t f) r (ofBool false)
  | related : Equated l r (relate .equal l r)
  | symm : Equated l r e → Equated r l e

theorem excludes_iff {t f r : Expr} :
    excludes t f r ↔ ∃ v w u, t = constant v ∧ f = constant w ∧ r = constant u ∧
      v.strictEquals u = false ∧ w.strictEquals u = false := by
  unfold excludes
  split
  case h_1 => simp
  case h_2 h =>
    simp only [Bool.false_eq_true, false_iff]
    rintro ⟨v, w, u, rfl, rfl, rfl, _⟩
    exact h v w u rfl rfl rfl

variable {l r e : Expr}

theorem equated_of_reduceEqual?
    (ih : ∀ l' r', sizeOf l' + sizeOf r' < sizeOf l + sizeOf r → Equated l' r' (equal l' r'))
    (h : reduceEqual? l r = some e) : Equated l r e := by
  unfold reduceEqual? at h
  split at h
  case h_1 op x y =>
    split_ifs at h with ht hf <;> cases h
    case pos => exact isBoolean_iff.mp ht ▸ .holds
    case pos => exact isBoolean_iff.mp hf ▸ .fails
  case h_2 c t f =>
    have hs := ifElse.sizeOf_spec c t f
    split_ifs at h with ht hf hx <;> cases h
    case pos => exact .whenTrue ht (ih f r (by omega))
    case pos => exact .whenFalse hf (ih t r (by omega))
    case pos => exact .excluded hx
  case h_3 => cases h

theorem equated_equal (l r : Expr) : Equated l r (equal l r) := by
  rw [equal]
  split
  case isTrue hu => exact .unresolvable hu
  case isFalse =>
    split
    case isTrue hs => exact .same hs
    case isFalse =>
      split
      case h_1 h =>
        apply equated_of_reduceEqual? _ h
        exact fun l' r' _ => equated_equal l' r'
      case h_2 =>
        split
        case h_1 h =>
          apply Equated.symm
          apply equated_of_reduceEqual? _ h
          exact fun l' r' _ => equated_equal l' r'
        case h_2 => exact .related
termination_by sizeOf l + sizeOf r

namespace Inherited

variable {p : Expr → Prop} (hp : Inherited p)

include hp

theorem relate {op : ComparisonOperator} (hl : p l) (hr : p r) (hc : p (comparison op l r)) :
    p (relate op l r) := by
  have hs : ∀ e ∈ [l, r], p e := by simp [hl, hr]
  unfold Expr.relate
  split
  case isTrue hu => exact hs _ (hasUnresolvable_iff.mp hu)
  case isFalse =>
    split
    case h_1 => exact hp.ofBool _
    case h_2 => exact hc

variable (hc : ∀ {l r}, p l → p r → p (comparison .equal l r))

include hc

theorem equated (h : Equated l r e) (hl : p l) (hr : p r) : p e := by
  induction h
  case unresolvable l r hu =>
    have hs : ∀ e ∈ [l, r], p e := by simp [hl, hr]
    exact hs _ (hasUnresolvable_iff.mp hu)
  case same | excluded => exact hp.ofBool _
  case holds => exact hl
  case fails => exact hp.negated hl
  case related => exact hp.relate hl hr (hc hl hr)
  case symm ih => exact ih hr hl
  case whenTrue ih =>
    have ⟨ha, _, hf⟩ := hp.branches hl
    exact hp.anyOf (by simp [ha, ih hf hr])
  case whenFalse ih =>
    have ⟨ha, ht, _⟩ := hp.branches hl
    exact hp.anyOf (by simp [hp.negated ha, ih ht hr])

theorem equal (hl : p l) (hr : p r) : p (equal l r) :=
  hp.equated hc (equated_equal l r) hl hr

theorem isEmpty (h : p e) : p (isEmpty e) := by
  have hs : p (Expr.equal e (ofString "")) := hp.equal hc h (hp.scalar rfl)
  have hu : p (Expr.equal e (constant .undefined)) := hp.equal hc h (hp.scalar rfl)
  have hn : p (Expr.equal e (constant .null)) := hp.equal hc h (hp.scalar rfl)
  exact hp.anyOf (by simp [hs, hu, hn])

end Inherited
end BindingAlgebra.Expr
