import BindingAlgebra.Proofs.Built
import BindingAlgebra.Proofs.Opposite
import BindingAlgebra.Proofs.SelfEquality

namespace BindingAlgebra.Expr

open List

-- Conditionals whose condition is a negation, or asked once more in a branch.

variable {op : LogicalOperator} {c t f c' t' f' d e l r : Expr} {outline : Outlining}

theorem chooseWith_congr {c₁ t₁ f₁ : Expr}
    (hu : hasUnresolvable [c, t, f] ↔ hasUnresolvable [c₁, t₁, f₁])
    (h : canonical c t f = canonical c₁ t₁ f₁) :
    chooseWith outline c t f = chooseWith outline c₁ t₁ f₁ := by
  rw [chooseWith, chooseWith, Bool.eq_iff_iff.mpr hu, h]

theorem Normal.not_hasUnresolvable_three (hc : Normal c) (ht : Normal t) (hf : Normal f) :
    ¬hasUnresolvable [c, t, f] :=
  not_hasUnresolvable (by simp [hc, ht, hf])

theorem choose_unresolvable (h : unresolvable ∈ [c, t, f]) : choose c t f = unresolvable := by
  rw [choose, chooseWith, if_pos (hasUnresolvable_iff.mpr h)]

section Constants

theorem Normal.not_asks_constant (h : Normal e) (hc : c.isConstant) :
    ∀ c' t f, e = ifElse c' t f → ¬c'.same c := by
  rintro c' t f rfl hs
  have hn : NormalChoice c' t f := h.node
  exact hn.not_constant (isConstant_congr hs ▸ hc)

theorem choose_constant (v : Value Expr) (ht : Normal t) (hf : Normal f) :
    choose (constant v) t f = if v.isTruthy then t else f := by
  have hu := Normal.not_hasUnresolvable_three (.constant v) ht hf
  have hc : canonical (constant v) t f = (constant v, t, f) := by
    rw [canonical_of_ne_not fun _ => Expr.noConfusion,
      whenTrue_eq_self (ht.not_asks_constant rfl), whenFalse_eq_self (hf.not_asks_constant rfl)]
  rw [choose, chooseWith_eq hu hc, collapse?, Option.getD_some]

theorem choose_constant_repeated (v : Value Expr) (ht : Normal t) (hf : Normal f)
    (hd : Simplified d) :
    let r := choose (constant v) t f
    choose (constant v) r d = choose (constant v) t d ∧
      choose (constant v) d r = choose (constant v) d f := by
  intro r
  have hr : r = if v.isTruthy then t else f := choose_constant v ht hf
  rcases hd with rfl | hd
  case inl => exact ⟨by simp [choose_unresolvable], by simp [choose_unresolvable]⟩
  case inr =>
    have hn : Normal r := by rw [hr]; split <;> assumption
    rw [choose_constant v hn hd, choose_constant v ht hd, choose_constant v hd hn,
      choose_constant v hd hf, hr]
    cases v.isTruthy <;> exact ⟨rfl, rfl⟩

end Constants

section Negation

-- A negation in front of a condition changes the sides of the branches, unless it is taken into
-- comparisons.
theorem choose_negate_of_normal (hc : Normal c) (ht : Normal t) (hf : Normal f)
    (hn : ¬c.isComparison) (hs : ∀ op es, c = set op es → ∃ e ∈ es, ¬e.isComparison) :
    choose (negate c) t f = choose c f t := by
  have hu : hasUnresolvable [negate c, t, f] ↔ hasUnresolvable [c, f, t] :=
    iff_of_false (hc.negate.not_hasUnresolvable_three ht hf) (hc.not_hasUnresolvable_three hf ht)
  cases negated c
  case whole hw =>
    rw [negate_of_normalNegation hw hc] at hu ⊢
    exact chooseWith_congr hu (canonical_of_ne_not hw.not_negation f t).symm
  case constant v =>
    change choose (constant (.boolean !v.isTruthy)) t f = _
    rw [choose_constant _ ht hf, choose_constant v hf ht, Value.isTruthy]
    cases v.isTruthy <;> rfl
  case negation d =>
    have hd : NormalNegation d := hc.node
    exact chooseWith_congr hu (canonical_of_ne_not hd.not_negation t f)
  case comparison => exact absurd rfl hn
  case comparisons h =>
    obtain ⟨e, he, hc⟩ := hs _ _ rfl
    exact absurd (h e he) hc

theorem choose_negate (hc : Simplified c) (ht : Simplified t) (hf : Simplified f)
    (hn : ¬c.isComparison) (hs : ∀ op es, c = set op es → ∃ e ∈ es, ¬e.isComparison) :
    choose (negate c) t f = choose c f t := by
  by_cases hu : hasUnresolvable [c, t, f]
  case pos =>
    have hm := hasUnresolvable_iff.mp hu
    simp only [mem_cons, not_mem_nil, or_false] at hm
    rcases hm with rfl | rfl | rfl <;>
      rw [choose_unresolvable (by simp [negate, negateAtom]), choose_unresolvable (by simp)]
  case neg =>
    obtain ⟨hc, ht, hf⟩ := Simplified.all_normal_three hu hc ht hf
    exact choose_negate_of_normal hc ht hf hn hs

end Negation

section Repetition

-- The condition goes, free of a negation, with either branch to the side that it selects.
theorem exists_canonical_eq (c : Expr) :
    ∃ c', c.kind ≠ .not ∧ (∀ t f, canonical c t f = (c', whenTrue c' t, whenFalse c' f)) ∨
      c.kind = .not ∧ ∀ t f, canonical c t f = (c', whenTrue c' f, whenFalse c' t) := by
  by_cases h : ∃ d, c = not d
  case pos =>
    obtain ⟨d, rfl⟩ := h
    exact ⟨d, .inr ⟨rfl, fun _ _ => rfl⟩⟩
  case neg =>
    push Not at h
    have hk : c.kind ≠ .not := by
      cases c
      case not d => exact absurd rfl (h d)
      all_goals exact Kind.noConfusion
    exact ⟨c, .inl ⟨hk, canonical_of_ne_not h⟩⟩

-- Asked under its own condition, what takes the place of a branch gives this branch.
theorem canonical_repeated (h : canonical c t f = (c', t', f')) :
    (whenTrue c' r = t' → whenFalse c' r = f' →
      ∀ d, canonical c r d = canonical c t d ∧ canonical c d r = canonical c d f) ∧
    (whenTrue c' r = t' → (c.kind ≠ .not → ∀ d, canonical c r d = canonical c t d) ∧
      (c.kind = .not → ∀ d, canonical c d r = canonical c d f)) := by
  obtain ⟨c₁, ⟨hk, hc⟩ | ⟨hk, hc⟩⟩ := exists_canonical_eq c <;>
    simp only [hc, Prod.mk.injEq, true_and, and_true] at h ⊢ <;>
    obtain ⟨rfl, rfl, rfl⟩ := h
  case inl => exact ⟨fun ht hf d => ⟨ht, hf⟩, fun ht => ⟨fun _ _ => ht, fun hn => absurd hn hk⟩⟩
  case inr => exact ⟨fun ht hf d => ⟨hf, ht⟩, fun ht => ⟨fun hn => absurd hk hn, fun _ _ => ht⟩⟩

-- Of a pair that is made no set the left operand is kept, unless it is a constant.
theorem eq_left_of_pending (hl : Normal l) (hc : ¬l.isConstant)
    (h : (distinct ([l, r].flatMap (operandsIn op))).filter (!·.isConstant) = [e]) : e = l := by
  rw [flatMap_cons, distinct_append, filter_append] at h
  by_cases hs : ∃ fs, l = set op fs
  case pos =>
    obtain ⟨fs, rfl⟩ := hs
    have hn : NormalSet op fs := hl.node
    have hf : (distinct (operandsIn op (set op fs))).filter (!·.isConstant) = fs := by
      rw [operandsIn, if_pos rfl, distinct_eq_self hn.distinct]
      simpa using hn.not_constant
    have hlen := congrArg List.length h
    rw [hf, length_append, length_singleton] at hlen
    have := hn.two_le
    omega
  case neg =>
    push Not at hs
    have hf : (distinct (operandsIn op l)).filter (!·.isConstant) = [l] := by
      simpa [operandsIn_eq_singleton hs, distinct] using hc
    rw [hf, singleton_append, cons.injEq] at h
    exact h.left.symm

theorem eq_left_of_kind_setOf (hl : Normal l) (hc : ¬l.isConstant)
    (h : (setOf op [l, r]).kind = .ifElse) : setOf op [l, r] = l := by
  rw [setOf_eq] at h ⊢
  split at h
  case isTrue => exact Kind.noConfusion h
  case isFalse hu =>
    rw [if_neg hu]
    have hf := folded_foldSet negate op (distinct ([l, r].flatMap (operandsIn op)))
    generalize foldSet negate op (distinct ([l, r].flatMap (operandsIn op))) = folded at h hf
    cases hf
    case single hs =>
      have hp : (distinct ([l, r].flatMap (operandsIn op))).filter (!·.isConstant) = [folded] := by
        rw [hs]
        simp [isConstant, h]
      exact eq_left_of_pending hl hc hp
    case last hs => exact eq_left_of_pending hl hc hs
    all_goals exact Kind.noConfusion h

theorem kind_negate_ne_ifElse (h : Normal c) (hn : ∀ d, c ≠ not d) : (negate c).kind ≠ .ifElse := by
  cases negated c
  case whole hw =>
    rw [negate_of_normalNegation hw h]
    exact Kind.noConfusion
  case negation d => exact absurd rfl (hn d)
  case comparisons hs =>
    rw [negate_comparisons h hs]
    exact Kind.noConfusion
  all_goals exact Kind.noConfusion

-- Where a conditional comes from that a choice yields. Either it is this choice, or it is one that
-- has been there before: one of two equal branches, or the condition next to a boolean.
inductive Yields (c t f e : Expr) : Prop
  | choice : e = ifElse c t f → Yields c t f e
  | branch : t.same f → e = t → Yields c t f e
  | condition : t = ofBool true ∨ f = ofBool false → e = c → Yields c t f e

theorem yields_of_collapsed (hc : Normal c) (hcc : ¬c.isConstant) (hn : ∀ d, c ≠ not d)
    (h : Collapsed c t f e) (hk : e.kind = .ifElse) : Yields c t f e := by
  have hnc := not_isConstant_negate hc hcc
  have hneg : ∀ op e, (setOf op [negate c, e]).kind ≠ .ifElse := fun op e hk =>
    kind_negate_ne_ifElse hc hn (eq_left_of_kind_setOf hc.negate hnc hk ▸ hk)
  cases h
  case constant hv => exact absurd (hv ▸ rfl) hcc
  case same hs => exact .branch hs rfl
  case falseElse hf =>
    rw [allOf, eq_left_of_kind_setOf hc hcc hk]
    exact .condition (.inr hf) rfl
  case trueElse => exact absurd hk (hneg _ _)
  case falseThen => exact absurd hk (hneg _ _)
  case trueThen ht =>
    rw [anyOf, eq_left_of_kind_setOf hc hcc hk]
    exact .condition (.inl ht) rfl

theorem canonical_not_isConstant (h : canonical c t f = (c', t', f')) (hc : Normal c)
    (hcc : ¬c.isConstant) : ¬c'.isConstant := by
  rcases canonical_cases c t f with ⟨d, rfl, hd⟩ | ⟨_, hd⟩ <;> cases hd.symm.trans h
  case inl => exact NormalNegation.not_constant hc.node
  case inr => exact hcc

theorem canonical_same (h : canonical c t f = (c', t', f')) (hs : c.same c) : c'.same c' := by
  rcases canonical_cases c t f with ⟨d, rfl, hd⟩ | ⟨_, hd⟩ <;> cases hd.symm.trans h
  case inl => simpa [same] using hs
  case inr => exact hs

theorem yields_choose (hc : Normal c) (ht : Normal t) (hf : Normal f) (hcc : ¬c.isConstant)
    (h : canonical c t f = (c', t', f')) (hk : (choose c t f).kind = .ifElse) :
    Yields c' t' f' (choose c t f) := by
  have ⟨hc', ht', hf'⟩ := Simplified.canonical_normal h hc ht hf
  have ⟨hn, _, _⟩ := Simplified.canonical_parts h hc ht hf
  have hcc' := canonical_not_isConstant h hc hcc
  rw [choose, chooseWith_eq (hc.not_hasUnresolvable_three ht hf) h] at hk ⊢
  cases hs : collapse? c' t' f'
  case some e =>
    rw [hs] at hk
    exact yields_of_collapsed hc' hcc' hn (collapsed_of_collapse? hs) hk
  case none =>
    rw [hs] at hk
    simp only [Option.getD_none] at hk ⊢
    split at hk
    case isFalse hx =>
      rw [if_neg hx]
      exact .choice rfl
    case isTrue =>
      have hs : ∀ e ∈ [c', t', f'], Simplified e := by simp [Simplified, hc', ht', hf']
      rw [outline_eq true (Simplified.formatCall ifElseFormatter hs)] at hk
      exact Kind.noConfusion hk

theorem choose_congr_then (ht : t ≠ unresolvable) (hr : r ≠ unresolvable)
    (h : canonical c r d = canonical c t d) : choose c r d = choose c t d := by
  refine chooseWith_congr ?_ h
  rw [hasUnresolvable_iff, hasUnresolvable_iff]
  simp [ht.symm, hr.symm]

theorem choose_congr_else (hf : f ≠ unresolvable) (hr : r ≠ unresolvable)
    (h : canonical c d r = canonical c d f) : choose c d r = choose c d f := by
  refine chooseWith_congr ?_ h
  rw [hasUnresolvable_iff, hasUnresolvable_iff]
  simp [hf.symm, hr.symm]

-- A conditional that a choice yields can stand for either branch of it in another choice by the
-- same condition, unless the conditional has been there before.
theorem choose_repeated (hc : Normal c) (ht : Normal t) (hf : Normal f) (hs : c.same c)
    (hcc : ¬c.isConstant) (he : choose c t f = r) (hk : r.kind = .ifElse) :
    (∀ d, choose c r d = choose c t d ∧ choose c d r = choose c d f) ∨
      ∃ c' t' f', canonical c t f = (c', t', f') ∧
        (t'.same f' ∧ t' ≠ f' ∧ r = t' ∧
            (c.kind ≠ .not → ∀ d, choose c r d = choose c t d) ∧
            (c.kind = .not → ∀ d, choose c d r = choose c d f) ∨
          c'.kind = .ifElse ∧ (t' = ofBool true ∨ f' = ofBool false) ∧ r = c') := by
  obtain ⟨c', t', f', h⟩ : ∃ c' t' f', canonical c t f = (c', t', f') := ⟨_, _, _, rfl⟩
  have ⟨_, hta, hfa⟩ := Simplified.canonical_parts h hc ht hf
  have hu : r ≠ unresolvable := fun hu => Kind.noConfusion (hu ▸ hk : unresolvable.kind = .ifElse)
  have hthen : ∀ {d}, canonical c r d = canonical c t d → choose c r d = choose c t d :=
    choose_congr_then ht.ne_unresolvable hu
  have helse : ∀ {d}, canonical c d r = canonical c d f → choose c d r = choose c d f :=
    choose_congr_else hf.ne_unresolvable hu
  have ⟨hboth, hone⟩ := canonical_repeated (r := r) h
  have hboth : whenTrue c' r = t' → whenFalse c' r = f' →
      ∀ d, choose c r d = choose c t d ∧ choose c d r = choose c d f :=
    fun ht hf d => ⟨hthen (hboth ht hf d).left, helse (hboth ht hf d).right⟩
  have hy : Yields c' t' f' r := he ▸ yields_choose hc ht hf hcc h (he ▸ hk)
  cases hy
  case choice hr =>
    have hs' := canonical_same h hs
    exact .inl (hboth (hr ▸ if_pos hs') (hr ▸ if_pos hs'))
  case branch hsame hr =>
    have hw : whenTrue c' r = t' := by rw [hr, whenTrue_eq_self hta]
    by_cases heq : t' = f'
    case pos => exact .inl (hboth hw (by rw [hr, heq, whenFalse_eq_self hfa]))
    case neg =>
      have ⟨hone, hother⟩ := hone hw
      refine .inr ⟨c', t', f', h, .inl ⟨hsame, heq, hr, ?_, ?_⟩⟩
      · exact fun hn d => hthen (hone hn d)
      · exact fun hn d => helse (hother hn d)
  case condition hb hr => exact .inr ⟨c', t', f', h, .inr ⟨hr ▸ hk, hb, hr⟩⟩

end Repetition

namespace Built

variable {a b : Expr}

-- A condition is asked in one form only. If it is negated, the branches change sides instead, and
-- where it has been answered already, it is not asked again. The latter needs a condition that
-- equals itself, and an inner choice that is there to be seen: another conditional can stand in its
-- place, which is the condition itself or one of two equal branches. The latter still stands for
-- itself, which is in front, or at the end if the condition is negated.
theorem conditions_canonical (hc : Built c) (ht : Built t) (hf : Built f) (ha : Built a)
    (hb : Built b) (hd : Built d) :
    (¬c.isComparison → (∀ op es, c = set op es → ∃ e ∈ es, ¬e.isComparison) →
        Expr.choose (Expr.negate c) t f = Expr.choose c f t) ∧
      (¬Occurs unresolvable c → (∀ x, x.isNaN → ¬Occurs (constant (.decimal x)) c) →
        ∀ r, Expr.choose c a b = r → r.kind = .ifElse →
          (Expr.choose c r d = Expr.choose c a d ∧ Expr.choose c d r = Expr.choose c d b) ∨
            ∃ c' a' b', canonical c a b = (c', a', b') ∧
              (a'.same b' ∧ a' ≠ b' ∧ r = a' ∧
                  (c.kind ≠ .not → Expr.choose c r d = Expr.choose c a d) ∧
                  (c.kind = .not → Expr.choose c d r = Expr.choose c d b) ∨
                c'.kind = .ifElse ∧ (a' = ofBool true ∨ b' = ofBool false) ∧ r = c')) := by
  refine ⟨choose_negate hc.simplified ht.simplified hf.simplified, ?_⟩
  intro hu hx r he hk
  have hs : c.same c := same_self_iff.mpr ⟨hu, hx⟩
  have hr : ¬hasUnresolvable [c, a, b] := by
    intro hm
    rw [← he, choose_unresolvable (hasUnresolvable_iff.mp hm)] at hk
    exact Kind.noConfusion hk
  have ⟨nc, na, nb⟩ := Simplified.all_normal_three hr hc.simplified ha.simplified hb.simplified
  by_cases hcc : c.isConstant
  case pos =>
    obtain ⟨v, rfl⟩ := isConstant_iff.mp hcc
    exact .inl (he ▸ choose_constant_repeated v na nb hd.simplified)
  case neg =>
    refine (choose_repeated nc na nb hs hcc he hk).imp (fun h => h d) ?_
    rintro ⟨c', a', b', h, hsame | hcond⟩
    case inl =>
      obtain ⟨hs, hne, hr, hone, hother⟩ := hsame
      exact ⟨c', a', b', h, .inl ⟨hs, hne, hr, fun hn => hone hn d, fun hn => hother hn d⟩⟩
    case inr => exact ⟨c', a', b', h, .inr hcond⟩

-- A negated condition, which the first branch asks in the other form.
theorem conditions_canonical_negated :
    let active := Expr.pathTo "Active"
    let c := Expr.negate active
    let a := Expr.choose active (.ofString "on") (.ofString "off")
    let b := Expr.pathTo "State"
    let d := Expr.pathTo "Default"
    Built c ∧ Built a ∧ Built b ∧ Built d ∧ c.same c ∧ (Expr.choose c a b).kind = .ifElse ∧
      Expr.choose (Expr.negate c) a b = Expr.choose c b a ∧
      Expr.choose c (Expr.choose c a b) d = Expr.choose c a d ∧
      Expr.choose c d (Expr.choose c a b) = Expr.choose c d b := by
  intro active c a b d
  have hp : Built active := .pathTo "Active" none
  have hc : Built c := .negate hp
  have ha : Built a := .choose hp (.ofString "on") (.ofString "off")
  have hb : Built b := .pathTo "State" none
  have hd : Built d := .pathTo "Default" none
  have hs : c.same c := by decide +kernel
  have hk : (Expr.choose c a b).kind = .ifElse := by decide +kernel
  have ⟨hn, hr⟩ := conditions_canonical hc ha hb ha hb hd
  have hnot : ¬c.isComparison := by decide +kernel
  refine ⟨hc, ha, hb, hd, hs, hk, hn hnot fun op es h => Expr.noConfusion h, ?_⟩
  have ⟨hu, hx⟩ := same_self_iff.mp hs
  refine (hr hu hx _ rfl hk).resolve_right ?_
  rintro ⟨c', a', b', h, h'⟩
  have hne : ¬(canonical c a b).2.1.same (canonical c a b).2.2 := by decide +kernel
  have hki : (canonical c a b).1.kind ≠ .ifElse := by decide +kernel
  rw [h] at hne hki
  exact h'.elim (fun h => hne h.left) fun h => hki h.left

-- Three ways for a condition to be asked once more: it is a conditional that takes the place of the
-- inner one, it does not even equal itself, or its branches differ in nothing but a zero's sign.
theorem conditions_asked_twice :
    let p := Expr.pathTo "P"
    let q := Expr.pathTo "Q"
    let d := Expr.pathTo "D"
    let c := Expr.choose p (.pathTo "X") (.pathTo "Y")
    let e := Expr.invoke "f" [constant (.array [Expr.unresolvable])] none
    let a := fun zero => Expr.choose p (Expr.ofValue (.decimal zero)) d
    let noNaN := fun e => ∀ x : Binary64, x.isNaN → ¬Occurs (constant (.decimal x)) e
    (Built c ∧ noNaN c ∧ (Expr.choose c (.ofString "x") (ofBool false)).kind = .ifElse ∧
        Expr.choose c (Expr.choose c (.ofString "x") (ofBool false)) d ≠
          Expr.choose c (.ofString "x") d) ∧
      (Built e ∧ noNaN e ∧ (Expr.choose e p q).kind = .ifElse ∧
        Expr.choose e (Expr.choose e p q) d ≠ Expr.choose e p d) ∧
      ((∀ x, Built (a x)) ∧ noNaN q ∧ (Expr.choose q (a ⟨false, 0⟩) (a ⟨true, 0⟩)).kind = .ifElse ∧
        Expr.choose q d (Expr.choose q (a ⟨false, 0⟩) (a ⟨true, 0⟩)) ≠
          Expr.choose q d (a ⟨true, 0⟩)) := by
  intro p q d c e a noNaN
  have hp : Built p := .pathTo "P" none
  have hd : Built d := .pathTo "D" none
  have hn : ∀ {e : Expr}, e.same e → noNaN e := fun hs => (same_self_iff.mp hs).right
  refine ⟨⟨?_, hn (by decide +kernel), by decide +kernel, ?_⟩, ⟨?_, ?_, by decide +kernel, ?_⟩,
    ?_, hn (by decide +kernel), by decide +kernel, ?_⟩
  · exact .choose hp (.pathTo "X" none) (.pathTo "Y" none)
  · exact fun h => absurd (congrArg (·.children.map kind) h) (by decide +kernel)
  · refine .invoke "f" (fun d hd => mem_singleton.mp hd ▸ ?_) fun _ hd => absurd hd (by simp)
    refine .ofValue (v := .array [Expr.unresolvable]) fun d hd => ?_
    exact mem_singleton.mp hd ▸ .resolvePath none none [] none
  · have hn : ∀ n, Occurs n e → ∀ x, n ≠ constant (.decimal x) := by
      have he : e = call none "f" [constant (.array [Expr.unresolvable])] := rfl
      rw [he]
      simp [Reaches.forall_iff (e := call _ _ _), Reaches.forall_iff (e := constant _),
        Reaches.forall_iff (e := Expr.unresolvable), parts, children, Value.parts]
    exact fun x _ hx => hn _ hx x rfl
  · exact fun h => absurd (congrArg (·.children.map kind) h) (by decide +kernel)
  · exact fun x => .choose hp (.ofValue (v := .decimal x) fun _ hd => absurd hd not_mem_nil) hd
  · have hr : Expr.choose q d (a ⟨true, 0⟩) =
        ifElse q d (ifElse p (constant (.decimal ⟨true, 0⟩)) d) := rfl
    have hl : Expr.choose q d (Expr.choose q (a ⟨false, 0⟩) (a ⟨true, 0⟩)) =
        ifElse q d (ifElse p (constant (.decimal ⟨false, 0⟩)) d) := rfl
    rw [hl, hr]
    intro h
    cases h

end Built
end BindingAlgebra.Expr
