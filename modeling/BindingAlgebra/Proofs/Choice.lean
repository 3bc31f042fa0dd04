import BindingAlgebra.Expr.Conditional
import BindingAlgebra.Proofs.Operands

namespace BindingAlgebra.Expr

variable {c t f e : Expr}

theorem whenTrue_cases (c e : Expr) :
    (∃ c' t f, e = ifElse c' t f ∧ c'.same c ∧ whenTrue c e = t) ∨
      (∀ c' t f, e = ifElse c' t f → ¬c'.same c) ∧ whenTrue c e = e := by
  unfold whenTrue
  split
  case h_2 h => exact .inr ⟨fun _ _ _ he => absurd he (h _ _ _), rfl⟩
  case h_1 c' t f =>
    split
    case isTrue h  => exact .inl ⟨c', t, f, rfl, h, rfl⟩
    case isFalse h => exact .inr ⟨by rintro _ _ _ ⟨⟩; exact h, rfl⟩

theorem whenFalse_cases (c e : Expr) :
    (∃ c' t f, e = ifElse c' t f ∧ c'.same c ∧ whenFalse c e = f) ∨
      (∀ c' t f, e = ifElse c' t f → ¬c'.same c) ∧ whenFalse c e = e := by
  unfold whenFalse
  split
  case h_2 h => exact .inr ⟨fun _ _ _ he => absurd he (h _ _ _), rfl⟩
  case h_1 c' t f =>
    split
    case isTrue h  => exact .inl ⟨c', t, f, rfl, h, rfl⟩
    case isFalse h => exact .inr ⟨by rintro _ _ _ ⟨⟩; exact h, rfl⟩

theorem canonical_cases (c t f : Expr) :
    (∃ d, c = not d ∧ canonical c t f = (d, whenTrue d f, whenFalse d t)) ∨
      (∀ d, c ≠ not d) ∧ canonical c t f = (c, whenTrue c t, whenFalse c f) := by
  unfold canonical
  split
  case h_1 d => exact .inl ⟨d, rfl, rfl⟩
  case h_2 h => exact .inr ⟨h, rfl⟩

theorem canonical_of_ne_not (h : ∀ d, c ≠ not d) (t f : Expr) :
    canonical c t f = (c, whenTrue c t, whenFalse c f) := by
  rcases canonical_cases c t f with ⟨d, hd, _⟩ | ⟨_, hc⟩
  case inl => exact absurd hd (h d)
  case inr => exact hc

-- The parts of the canonical form are the given ones, or taken out of them.
theorem canonical_closed {p : Expr → Prop} {c' t' f' : Expr} (hn : ∀ e, p (not e) → p e)
    (hi : ∀ c t f, p (ifElse c t f) → p t ∧ p f) (h : canonical c t f = (c', t', f'))
    (hc : p c) (ht : p t) (hf : p f) : p c' ∧ p t' ∧ p f' := by
  have hw : ∀ {c e}, p e → p (whenTrue c e) := by
    intro c e he
    rcases whenTrue_cases c e with ⟨_, _, _, rfl, _, h⟩ | ⟨_, h⟩
    case inl => exact h.symm ▸ (hi _ _ _ he).left
    case inr => exact h.symm ▸ he
  have hw' : ∀ {c e}, p e → p (whenFalse c e) := by
    intro c e he
    rcases whenFalse_cases c e with ⟨_, _, _, rfl, _, h⟩ | ⟨_, h⟩
    case inl => exact h.symm ▸ (hi _ _ _ he).right
    case inr => exact h.symm ▸ he
  rcases canonical_cases c t f with ⟨d, rfl, hd⟩ | ⟨_, hd⟩ <;> cases hd.symm.trans h
  case inl => exact ⟨hn _ hc, hw hf, hw' ht⟩
  case inr => exact ⟨hc, hw ht, hw' hf⟩

theorem canonical_not_complex {c' t' f' : Expr} (h : canonical c t f = (c', t', f'))
    (hc : ¬c.isComplex) (ht : ¬t.isComplex) (hf : ¬f.isComplex) :
    ¬c'.isComplex ∧ ¬t'.isComplex ∧ ¬f'.isComplex :=
  canonical_closed (p := (¬·.isComplex)) (fun _ h => by simpa [isComplex] using h)
    (fun _ _ _ h => by simp_all [isComplex]) h hc ht hf

theorem Inherited.canonical {p : Expr → Prop} {c' t' f' : Expr} (hp : Inherited p)
    (h : canonical c t f = (c', t', f')) (hc : p c) (ht : p t) (hf : p f) : p c' ∧ p t' ∧ p f' :=
  canonical_closed (fun _ h => hp.child h rfl _ List.mem_cons_self)
    (fun _ _ _ h => (hp.branches h).right) h hc ht hf

-- What a conditional collapses to.
inductive Collapsed (c t f : Expr) : Expr → Prop
  | constant : c = .constant v → Collapsed c t f (if v.isTruthy then t else f)
  | same : t.same f → Collapsed c t f t
  | falseElse : f = ofBool false → Collapsed c t f (allOf [c, t])
  | trueElse : f = ofBool true → Collapsed c t f (anyOf [negate c, t])
  | falseThen : t = ofBool false → Collapsed c t f (allOf [negate c, f])
  | trueThen : t = ofBool true → Collapsed c t f (anyOf [c, f])

theorem collapsed_of_collapse? (h : collapse? c t f = some e) : Collapsed c t f e := by
  unfold collapse? at h
  split at h
  case h_1 v => exact Option.some.inj h ▸ .constant rfl
  case h_2 =>
    split_ifs at h with h₁ h₂ h₃ h₄ h₅ <;> cases h
    · exact .same h₁
    · exact .falseElse (isBoolean_iff.mp h₂)
    · exact .trueElse (isBoolean_iff.mp h₃)
    · exact .falseThen (isBoolean_iff.mp h₄)
    · exact .trueThen (isBoolean_iff.mp h₅)

theorem Inherited.collapsed {p : Expr → Prop} (hp : Inherited p) (h : Collapsed c t f e) (hc : p c)
    (ht : p t) (hf : p f) : p e := by
  cases h
  case constant v _ => cases v.isTruthy <;> assumption
  case same => exact ht
  case falseElse => exact hp.allOf (by simp [hc, ht])
  case trueElse => exact hp.anyOf (by simp [hp.negated hc, ht])
  case falseThen => exact hp.allOf (by simp [hp.negated hc, hf])
  case trueThen => exact hp.anyOf (by simp [hc, hf])

theorem collapse?_eq_none_iff :
    collapse? c t f = none ↔
      ¬c.isConstant ∧ ¬t.same f ∧ (∀ b, t ≠ ofBool b) ∧ ∀ b, f ≠ ofBool b := by
  unfold collapse?
  split
  case h_1 => simp [isConstant, kind]
  case h_2 h =>
    have hc : ¬c.isConstant := fun hc => (isConstant_iff.mp hc).elim h
    simp only [← isBoolean_iff, ne_eq, Bool.forall_bool, hc]
    split_ifs <;> simp_all

theorem chooseWith_eq {outline : Outlining} {c' t' f' : Expr} (hu : ¬hasUnresolvable [c, t, f])
    (h : canonical c t f = (c', t', f')) :
    chooseWith outline c t f = (collapse? c' t' f').getD
      (if c'.isComplex || t'.isComplex || f'.isComplex then
        outline (formatCall ifElseFormatter [c', t', f']) true
      else ifElse c' t' f') := by
  rw [chooseWith, if_neg hu, h]
  cases hs : collapse? c' t' f' <;> simp [hs]

-- Values and truths of expressions, as far as they are bound to agree. What the values are, and how
-- the truth of anything but constants and negations comes about, is left open.
structure Interpretation (ν : Type u) where
  value          : Expr → ν
  truth          : Expr → Bool
  value_same     : ∀ {e f : Expr}, e.same f → value e = value f
  truth_same     : ∀ {e f : Expr}, e.same f → truth e = truth f
  truth_constant : ∀ v, truth (constant v) = v.isTruthy
  truth_not      : ∀ e, truth (not e) = !truth e
  value_ifElse   : ∀ c t f, value (ifElse c t f) = if truth c then value t else value f

namespace Interpretation

variable {ν : Type u} (i : Interpretation ν) {c t f c' t' f' e : Expr}

-- Under its own condition a branch may be taken out of what asks for the condition again, on the
-- side that the condition selects.

theorem value_whenTrue (h : i.truth c) (e : Expr) : i.value (whenTrue c e) = i.value e := by
  rcases whenTrue_cases c e with ⟨d, t, f, rfl, hs, hw⟩ | ⟨_, hw⟩ <;> rw [hw]
  case inl => rw [i.value_ifElse, i.truth_same hs, if_pos h]

theorem value_whenFalse (h : ¬i.truth c) (e : Expr) : i.value (whenFalse c e) = i.value e := by
  rcases whenFalse_cases c e with ⟨d, t, f, rfl, hs, hw⟩ | ⟨_, hw⟩ <;> rw [hw]
  case inl => rw [i.value_ifElse, i.truth_same hs, if_neg h]

theorem value_branches (c t f : Expr) :
    (if i.truth c then i.value (whenTrue c t) else i.value (whenFalse c f)) =
      if i.truth c then i.value t else i.value f := by
  split
  case isTrue h  => exact i.value_whenTrue h t
  case isFalse h => exact i.value_whenFalse h f

theorem value_canonical (h : canonical c t f = (c', t', f')) :
    (if i.truth c' then i.value t' else i.value f') =
      if i.truth c then i.value t else i.value f := by
  rcases canonical_cases c t f with ⟨d, rfl, hd⟩ | ⟨_, hd⟩ <;> cases hd.symm.trans h <;>
    rw [i.value_branches]
  -- A negation has been taken off the condition, and the branches have changed sides.
  case inl => cases hc : i.truth c' <;> simp [i.truth_not, hc]

end Interpretation
end BindingAlgebra.Expr
