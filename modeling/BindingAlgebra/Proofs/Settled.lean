import BindingAlgebra.Proofs.Built
import BindingAlgebra.Proofs.Levels

namespace BindingAlgebra

-- The kinds of nodes that are outlined if their children are complex.
def Kind.isOutlined : Kind → Bool
  | ifElse | concat => true
  | _               => false

namespace Expr

open List

-- The form of outlines: the name of a method, a text, and paths.
inductive IsOutline : Expr → Prop
  | intro (s : String) (bs : List (PathBinding Expr)) : IsOutline (formatter standardFormatter
      (ofString "evaluateComplexExpression" :: ofString s :: bs.map path))

-- Properties that logic hands on, provided that outlines have them.
structure Logical (p : Expr → Prop) : Prop extends Inherited p where
  truthy     : ∀ {e}, p e → p (truthy e)
  comparison : ∀ {op l r}, p l → p r → p (comparison op l r)
  ifElse     : ∀ {c t f}, p c → p t → p f → ¬(c.isComplex || t.isComplex || f.isComplex) →
    p (ifElse c t f)
  outline    : ∀ {e}, IsOutline e → p e

-- Properties that trees have by what replacements come upon in them.
structure Pervasive (all : Bool) (p : Expr → Prop) : Prop where
  leave : ∀ {e}, e ≠ unresolvable → ¬e.kind.entered all → p e
  enter : ∀ {e}, e.kind.entered all → (e.kind.isOutlined → ∀ c ∈ e.children, ¬c.isComplex) →
    (∀ c ∈ e.children, p c) → p e
  child : ∀ {e}, p e → e.kind.entered all → ∀ c ∈ e.children, p c

-- Trees in which replacements come upon no conditional and no concatenation of complex values.
inductive Settled (all : Bool) : Expr → Prop
  | enter : (e.kind.isOutlined → ∀ c ∈ e.children, ¬c.isComplex) →
      (∀ c ∈ e.children, Settled all c) → Settled all e
  | leave : ¬e.kind.entered all → Settled all e

variable {p : Expr → Prop} {outline : Outlining} {c t f e : Expr} {es : List Expr} {all : Bool}

section Outlines

-- Nothing but paths has been set aside.
def PathsOnly (aside : List Expr) : Prop :=
  ∃ bs : List (PathBinding Expr), aside = bs.map path

theorem pathsOnly_setAside {aside : List Expr} (hk : e.kind = .path) (h : PathsOnly aside) :
    PathsOnly ((setAside e).run aside).2 := by
  obtain ⟨bs, rfl⟩ := h
  obtain ⟨b, rfl⟩ := isPath_iff.mp (decide_eq_true hk)
  exact ⟨bs ++ [b], by rw [map_append]; rfl⟩

theorem isOutline_formatCall (s : String) {aside : List Expr} (h : PathsOnly aside) :
    IsOutline (formatCall evaluateFormatter (ofString s :: aside)) := by
  obtain ⟨bs, rfl⟩ := h
  rw [formatCall_evaluateFormatter (by simp [hasUnresolvable_iff, ofString])]
  exact .intro s bs

theorem isOutline_outlineWith (outline : Outlining) (e : Expr) (all : Bool) :
    IsOutline (outlineWith outline e all) := by
  have hr : Replaces (fun e all => some (outline e all)) outline .path setAside all
      (fun _ => True) (fun _ _ => True) PathsOnly := {
    child    := fun _ _ _ _ => trivial
    left     := fun _ => trivial
    replaced := fun hk hs => ⟨trivial, pathsOnly_setAside hk hs⟩
    answered := fun _ _ _ _ => rfl
    rebuilt  := fun _ _ _ => trivial
  }
  have hi : PathsOnly [] := ⟨[], rfl⟩
  obtain ⟨rest, aside, _, ht, _, hs⟩ := hr.run (e := e) trivial hi
  rw [outlineWith, ht]
  exact isOutline_formatCall rest.written hs

end Outlines

namespace Logical

variable (hp : Logical p) (ho : ∀ e all, IsOutline (outline e all))

include hp

theorem truthOf (h : p e) : p (truthOf e) := by
  unfold Expr.truthOf
  split
  case h_1 => exact h
  case h_2 => exact hp.ofBool _
  case h_3 => exact hp.truthy h

include ho

theorem chooseWith (hc : p c) (ht : p t) (hf : p f) : p (chooseWith outline c t f) := by
  by_cases hu : hasUnresolvable [c, t, f]
  case pos =>
    have hm := hasUnresolvable_iff.mp hu
    rw [Expr.chooseWith, if_pos hu]
    simp only [mem_cons, not_mem_nil, or_false] at hm
    rcases hm with rfl | rfl | rfl <;> assumption
  case neg =>
    obtain ⟨c', t', f', h⟩ : ∃ c' t' f', canonical c t f = (c', t', f') := ⟨_, _, _, rfl⟩
    obtain ⟨hc', ht', hf'⟩ := hp.canonical h hc ht hf
    rw [chooseWith_eq hu h]
    cases hs : collapse? c' t' f'
    case some => exact hp.collapsed (collapsed_of_collapse? hs) hc' ht' hf'
    case none =>
      simp only [Option.getD_none]
      split
      case isTrue     => exact hp.outline (ho _ _)
      case isFalse hx => exact hp.ifElse hc' ht' hf' hx

theorem rebuildWith (hk : e.kind.isLogical) (hl : es.length = e.children.length)
    (h : ∀ c ∈ es, p c) : p (rebuildWith outline e es) := by
  cases e
  case not =>
    obtain ⟨d, rfl⟩ := length_eq_one_iff.mp hl
    exact hp.negated (h d mem_cons_self)
  case truthy =>
    obtain ⟨d, rfl⟩ := length_eq_one_iff.mp hl
    exact hp.truthOf (h d mem_cons_self)
  case set op _ => exact hp.setWith Expr.negate op h
  case comparison =>
    obtain ⟨l, r, rfl⟩ := length_eq_two.mp hl
    have ⟨hl, hr⟩ : p l ∧ p r := by simpa using h
    exact hp.relate hl hr (hp.comparison hl hr)
  case ifElse =>
    obtain ⟨c, t, f, rfl⟩ := length_eq_three.mp hl
    have ⟨hc, ht, hf⟩ : p c ∧ p t ∧ p f := by simpa using h
    exact hp.chooseWith ho hc ht hf
  all_goals contradiction

end Logical

namespace Settled

theorem child (h : Settled all e) (he : e.kind.entered all) : ∀ c ∈ e.children, Settled all c := by
  cases h
  case enter h  => exact h
  case leave hn => exact absurd he hn

theorem not_complex (h : Settled all e) (he : e.kind.entered all) (hk : e.kind.isOutlined) :
    ∀ c ∈ e.children, ¬c.isComplex := by
  cases h
  case enter h _ => exact h hk
  case leave hn  => exact absurd he hn

theorem constant (v : Value Expr) : Settled all (constant v) :=
  .leave nofun

theorem path (b : PathBinding Expr) : Settled all (path b) :=
  .leave nofun

-- Where less is entered, less can be in the way.
theorem mono (h : Settled all e) : Settled false e := by
  induction h
  case enter e hx _ ih => exact .enter hx ih
  case leave e hn =>
    refine .leave fun he => hn ?_
    cases e <;> first | rfl | contradiction

theorem formatCall (name : String) (h : ∀ e ∈ es, Settled all e) :
    Settled all (formatCall name es) := by
  rw [Expr.formatCall]
  split
  case isTrue => exact .leave Bool.false_ne_true
  case isFalse =>
    refine .enter (absurd · Bool.false_ne_true) ?_
    simp only [children]
    split
    case isTrue  => exact h
    case isFalse => exact forall_mem_cons.mpr ⟨.constant _, h⟩

theorem of_normal (h : Normal e) : Settled all e := by
  induction h
  case intro e hn _ ih =>
    refine .enter (fun hk => ?_) ih
    cases e
    case ifElse => simpa [children] using NormalChoice.not_complex hn
    case concat => exact NormalConcat.not_complex hn
    all_goals contradiction

theorem of_simplified (h : Simplified e) : Settled all e := by
  rcases h with rfl | h
  case inl => exact .leave nofun
  case inr => exact of_normal h

end Settled

theorem pervasive_settled (all : Bool) : Pervasive all (Settled all) where
  leave _ hn  := .leave hn
  enter _ hx h := .enter hx h
  child h     := h.child

theorem logical_not_complex : Logical (¬isComplex ·) where
  child {e} h hk c hc hx := by
    refine h ?_
    have ha : e.children.any isComplex := any_eq_true.mpr ⟨c, hc, hx⟩
    rw [isComplex_eq]
    cases e <;> first | exact ha | contradiction
  scalar _ := Bool.false_ne_true
  not h := h
  set h := by simpa [isComplex, anyComplex_eq_any] using h
  negate h := h
  truthy h := h
  comparison hl hr := by simp_all [isComplex]
  ifElse _ _ _ hx := hx
  outline h := by
    obtain ⟨s, bs⟩ := h
    exact Bool.false_ne_true

section Rebuilt

-- The kinds that replacements enter in any case are put together from whatever has a value.
theorem rebuildWith_call (outline : Outlining)
    (hk : e.kind = .call ∨ e.kind = .formatter ∨ e.kind = .compositeType)
    (hl : es.length = e.children.length) :
    rebuildWith outline e es = if hasUnresolvable es then unresolvable else e.withChildren es := by
  cases e
  case call receiver _ _ =>
    cases receiver
    case none => simp [rebuildWith, invoke, withChildren]
    case some =>
      obtain ⟨d, ds, rfl⟩ := exists_cons_of_length_eq_add_one hl
      have hu : hasUnresolvable (ds ++ [d]) = hasUnresolvable (d :: ds) := by
        simp [hasUnresolvable, Bool.or_comm]
      simp [rebuildWith, invoke, withChildren, hu]
  case formatter | compositeType => rfl
  all_goals simp [kind] at hk

namespace Pervasive

variable (hp : Pervasive all p)

include hp

theorem constant (v : Value Expr) : p (constant v) :=
  hp.leave nofun nofun

theorem path (b : PathBinding Expr) : p (path b) :=
  hp.leave nofun nofun

theorem of_isOutline (h : IsOutline e) : p e := by
  obtain ⟨s, bs⟩ := h
  refine hp.enter rfl nofun ?_
  simp only [children, forall_mem_cons, forall_mem_map]
  exact ⟨hp.constant _, hp.constant _, fun b _ => hp.path b⟩

omit hp in
theorem logical (hp : Pervasive true p) : Logical p where
  child {e} h hk := hp.child h (by cases e <;> first | rfl | contradiction)
  scalar _ := hp.constant _
  not h := hp.enter rfl nofun (by simpa [children] using h)
  set h := hp.enter rfl nofun h
  negate {op l r} h := hp.enter rfl nofun (hp.child (e := comparison op l r) h rfl)
  truthy h := hp.enter rfl nofun (by simpa [children] using h)
  comparison hl hr := hp.enter rfl nofun (by simp [children, hl, hr])
  ifElse hc ht hf hx :=
    hp.enter rfl (fun _ => by simpa [children, and_assoc] using hx) (by simp [children, hc, ht, hf])
  outline h := hp.of_isOutline h

theorem joinWith (ho : ∀ e all, IsOutline (outline e all)) (h : ∀ e ∈ es, p e) :
    p (joinWith outline es) := by
  rw [Expr.joinWith]
  split
  case isTrue hu => exact h _ (hasUnresolvable_iff.mp hu)
  case isFalse =>
    split
    case h_1 => exact hp.constant _
    case h_2 =>
      split
      case isTrue     => exact hp.of_isOutline (ho _ _)
      case isFalse hx => exact hp.enter rfl (fun _ => by simpa [children] using hx) h

-- Whatever is put together of trees with such a property has it.
theorem rebuildWith (he : e.kind.entered all) (hl : es.length = e.children.length)
    (ho : ∀ e all, IsOutline (outline e all)) (h : ∀ c ∈ es, p c) :
    p (rebuildWith outline e es) := by
  by_cases hk : e.kind.isLogical
  case pos =>
    obtain rfl : all = true := by
      cases e
      case not | truthy | set | comparison | ifElse => exact he
      all_goals contradiction
    exact hp.logical.rebuildWith ho hk hl h
  case neg =>
    cases e
    case concat => exact hp.joinWith ho h
    case call | formatter | compositeType =>
      rw [rebuildWith_call outline (by simp [kind]) hl]
      split
      case isTrue hu => exact h _ (hasUnresolvable_iff.mp hu)
      case isFalse   =>
        refine hp.enter (by rwa [kind_withChildren]) (fun hk => ?_)
          (by rwa [children_withChildren hl])
        rw [kind_withChildren] at hk
        contradiction
    all_goals contradiction

end Pervasive

variable (he : e.kind.entered all) (hl : es.length = e.children.length)

include he hl

-- What is not complex does not become so by having its children replaced.
theorem not_complex_rebuildWith (ho : ∀ e all, IsOutline (outline e all))
    (h : e.kind.isLogical → ∀ c ∈ es, ¬c.isComplex) (hx : ¬e.isComplex) :
    ¬(rebuildWith outline e es).isComplex := by
  by_cases hk : e.kind.isLogical
  case pos => exact logical_not_complex.rebuildWith ho hk hl (h hk)
  case neg =>
    cases e
    case call | formatter =>
      rw [rebuildWith_call outline (by simp [kind]) hl]
      split
      case isTrue  => exact nofun
      case isFalse =>
        rw [isComplex_eq, kind_withChildren]
        exact nofun
    case concat | compositeType => exact absurd rfl hx
    all_goals contradiction

end Rebuilt

section Requests

variable {asked : Expr} {all' : Bool}

-- Nothing that is not complex has to be outlined.
theorem request?_eq_none (h : e.kind.isOutlined → ∀ c ∈ es, ¬c.isComplex) :
    request? e es = none := by
  fun_cases request? e es
  case case1 c t f =>
    obtain ⟨hc, ht, hf⟩ : ¬c.isComplex ∧ ¬t.isComplex ∧ ¬f.isComplex := by simpa using h rfl
    obtain ⟨c', t', f', hp⟩ : ∃ c' t' f', canonical c t f = (c', t', f') := ⟨_, _, _, rfl⟩
    obtain ⟨hc', ht', hf'⟩ := logical_not_complex.canonical hp hc ht hf
    simp [choiceRequest?, hp, hc', ht', hf']
  case case2 =>
    have hx : ¬es.any isComplex := by simpa using h rfl
    simp [joinRequest?, hx]
  case case3 => rfl

theorem settled_of_request? (he : e.kind.entered all) (h : ∀ c ∈ es, Settled all c)
    (hr : request? e es = some (asked, all')) : Settled all' asked := by
  revert hr
  fun_cases request? e es
  case case1 c t f =>
    intro hr
    obtain rfl : all = true := he
    obtain ⟨_, hq, rfl, rfl⟩ : ∃ a, choiceRequest? c t f = some a ∧ a = asked ∧ true = all' := by
      simpa using hr
    obtain ⟨hc, ht, hf⟩ : Settled true c ∧ Settled true t ∧ Settled true f := by simpa using h
    obtain ⟨c', t', f', hp⟩ : ∃ c' t' f', canonical c t f = (c', t', f') := ⟨_, _, _, rfl⟩
    obtain ⟨hc', ht', hf'⟩ := (pervasive_settled true).logical.canonical hp hc ht hf
    simp only [choiceRequest?, hp] at hq
    split_ifs at hq
    cases hq
    exact .formatCall _ (by simp [hc', ht', hf'])
  case case2 =>
    intro hr
    obtain ⟨_, hq, rfl, rfl⟩ : ∃ a, joinRequest? es = some a ∧ a = asked ∧ false = all' := by
      simpa using hr
    rw [joinRequest?] at hq
    split_ifs at hq
    cases hq
    exact .formatCall _ fun c hc => (h c hc).mono
  case case3 =>
    intro hr
    cases hr

end Requests

section Levels

variable {n : Nat}

theorem rebuildWith_congr (outline outline' : Outlining) (h : request? e es = none) :
    rebuildWith outline e es = rebuildWith outline' e es := by
  rw [rebuildWith_eq_of_request, rebuildWith_eq_of_request outline', h]

theorem outlineWithin_succ {q : Expr → Prop} {r : Expr → Expr → Prop}
    (hr : Replaces (outlineWithin n) outline .path setAside all q r PathsOnly) (h : q e) :
    outlineWithin (n + 1) e all = some (outlineWith outline e all) := by
  have hi : PathsOnly [] := ⟨[], rfl⟩
  obtain ⟨rest, aside, hp, ht, _⟩ := hr.run h hi
  simp only [outlineWithin, outlineWith, hp, ht]
  rfl

theorem forall_mem_of_forall₂ {r : Expr → Expr → Prop} {q : Expr → Prop} {ds : List Expr}
    (hr : Forall₂ r ds es) (h : ∀ d ∈ ds, ∀ {d'}, r d d' → q d') : ∀ e ∈ es, q e := by
  induction hr
  case nil => exact forall_mem_nil _
  case cons hd _ ih =>
    obtain ⟨h, hs⟩ := forall_mem_cons.mp h
    exact forall_mem_cons.mpr ⟨h hd, ih hs⟩

-- A settled tree asks for nothing, as what is not complex is not replaced by anything complex.
theorem outlineWithin_of_settled (outline : Outlining) (h : Settled all e) :
    outlineWithin (n + 1) e all = some (outlineWith outline e all) := by
  have asks {e : Expr} {es : List Expr} (h : Settled all e) (he : e.kind.entered all)
      (hes : Forall₂ (fun c c' => ¬c.isComplex → ¬c'.isComplex) e.children es) :
      request? e es = none :=
    request?_eq_none fun hk => forall_mem_of_forall₂ hes fun c hc _ hr =>
      hr (h.not_complex he hk c hc)
  refine outlineWithin_succ (q := Settled all) (r := fun e e' => ¬e.isComplex → ¬e'.isComplex) ?_ h
  exact {
    child    := Settled.child
    left     := fun _ hx => hx
    replaced := fun {e _} hk hs => by
      obtain ⟨b, rfl⟩ := isPath_iff.mp (decide_eq_true hk)
      exact ⟨fun _ => nofun, pathsOnly_setAside hk hs⟩
    answered := fun h he hes hr => by simp [asks h he hes] at hr
    rebuilt  := fun {e es} h he hes hx => by
      rw [rebuildWith_congr outline (outlineWith outline) (asks h he hes)]
      refine not_complex_rebuildWith he hes.length_eq.symm (isOutline_outlineWith outline) ?_ hx
      exact fun hk => forall_mem_of_forall₂ hes fun c hc _ hr =>
        hr (logical_not_complex.child hx hk c hc)
  }

-- Two levels are enough for every tree: all that is asked for on the first is settled.
theorem outlineWithin_add_two (outline : Outlining) (e : Expr) (all : Bool) :
    outlineWithin (n + 2) e all = some (outlineWith (outlineWith outline) e all) := by
  have children {ds es : List Expr} (hes : Forall₂ (fun _ => Settled all) ds es) :
      ∀ c ∈ es, Settled all c :=
    forall_mem_of_forall₂ hes fun _ _ _ h => h
  refine outlineWithin_succ (q := fun _ => True) (r := fun _ => Settled all) ?_ trivial
  exact {
    child    := fun _ _ _ _ => trivial
    left     := Settled.leave
    replaced := fun hk hs => ⟨.path _, pathsOnly_setAside hk hs⟩
    answered := fun _ he hes hr =>
      outlineWithin_of_settled outline (settled_of_request? he (children hes) hr)
    rebuilt  := fun _ he hes => (pervasive_settled all).rebuildWith he hes.length_eq.symm
      (isOutline_outlineWith outline) (children hes)
  }

-- Outlining is what its own recursion makes of it.
theorem outline_eq_outlineWith : Expr.outline = outlineWith Expr.outline := by
  funext e all
  refine Option.some.inj ?_
  calc some (Expr.outline e all)
    _ = outlineWithin 2 e all := (outlineWithin_add_two _ e all).symm
    _ = outlineWithin 3 e all := by iterate 2 rw [outlineWithin_add_two (outlineAt 0)]
    _ = some (outlineWith Expr.outline e all) := outlineWithin_add_two _ e all

theorem outlineWithin_eq_outline (e : Expr) (all : Bool) :
    outlineWithin (n + 2) e all = some (Expr.outline e all) :=
  outlineWithin_add_two (outlineAt 0) e all

theorem outlineWithin_eq_outline_of_settled (h : Settled all e) :
    outlineWithin (n + 1) e all = some (Expr.outline e all) := by
  rw [outline_eq_outlineWith, outlineWithin_of_settled Expr.outline h]

theorem run_replaceWithin {σ : Type} (kind : Kind) (f : Expr → StateM σ Expr) (s : σ) :
    (replaceWithin (outlineWithin (n + 2)) kind f all e).run s =
      some ((replace kind f all e).run s) := by
  have hr : Replaces (outlineWithin (n + 2)) Expr.outline kind f all (fun _ => True)
      (fun _ _ => True) (fun _ => True) := {
    child    := fun _ _ _ _ => trivial
    left     := fun _ => trivial
    replaced := fun _ _ => ⟨trivial, trivial⟩
    answered := fun _ _ _ _ => outlineWithin_eq_outline _ _
    rebuilt  := fun _ _ _ => trivial
  }
  obtain ⟨e', s', hp, ht, _⟩ := hr.run (e := e) (s := s) trivial trivial
  rw [hp, replace, ht]
  rfl

-- Replacing nodes comes to an end: whatever the nodes are replaced by, what is outlined on the way
-- nests no more than twice. It does not nest at all where the outlined tree has been built, or is
-- what a node asks for whose children have been built.
theorem replacement_ends {σ : Type} (n : Nat) (kind : Kind) (f : Expr → StateM σ Expr) (all : Bool)
    (e : Expr) (s : σ) :
    (replaceWithin (outlineWithin (n + 2)) kind f all e).run s =
      some ((replace kind f all e).run s) ∧
    Expr.outline = outlineWith Expr.outline ∧
    (Built e → outlineWithin (n + 1) e all = some (Expr.outline e all)) ∧
    ∀ es asked all', (∀ c ∈ es, Built c) → request? e es = some (asked, all') →
      outlineWithin (n + 1) asked all' = some (Expr.outline asked all') := by
  refine ⟨run_replaceWithin kind f s, outline_eq_outlineWith, ?built, ?asked⟩
  case built => exact fun h => outlineWithin_eq_outline_of_settled (.of_simplified h.simplified)
  case asked =>
    intro es asked all' h hr
    have he : e.kind.entered true := by
      cases e <;> first | rfl | contradiction
    have hs : ∀ c ∈ es, Settled true c := fun c hc => .of_simplified (h c hc).simplified
    exact outlineWithin_eq_outline_of_settled (settled_of_request? he hs hr)

theorem replacement_ends_amount :
    let amount := Expr.composite "Amount" [.pathTo "Amount", .pathTo "Unit"] none none
    let parts := [amount, Expr.ofString " net"]
    let e := Expr.join parts
    let asked := formatCall concatFormatter parts
    let count : Expr → StateM Nat Expr := fun e => modifyGet fun n => (e, n + 1)
    (∀ c ∈ parts, Built c) ∧ Built e ∧ request? (concat []) parts = some (asked, false) ∧
      (replaceWithin (outlineWithin 2) .path count true e).run 0 =
        some ((replace .path count true e).run 0) ∧
      outlineWithin 1 e true = some (Expr.outline e true) ∧
      outlineWithin 1 asked false = some (Expr.outline asked false) := by
  intro amount parts e asked count
  have ha : Built amount := by
    refine .composite "Amount" none (fun c hc => ?_) (forall_mem_nil _)
    simp only [mem_cons, not_mem_nil, or_false] at hc
    rcases hc with rfl | rfl
    case inl => exact .pathTo "Amount" none
    case inr => exact .pathTo "Unit" none
  have hp : ∀ c ∈ parts, Built c := by
    refine forall_mem_cons.mpr ⟨ha, forall_mem_singleton.mpr ?_⟩
    exact .ofValue (v := .string " net") nofun
  have hr : request? (concat []) parts = some (asked, false) := rfl
  obtain ⟨hrun, _, hbuilt, hasked⟩ := replacement_ends 0 .path count true e 0
  obtain ⟨_, _, _, hasked⟩ := replacement_ends 0 .path count true (concat []) 0
  exact ⟨hp, .join hp, hr, hrun, hbuilt (.join hp), hasked parts asked false hp hr⟩

-- One level is not enough for a conditional that has not been built: it is outlined while its tree
-- is.
example : outlineWithin 1 (ifElse (pathTo "A") (compositeType "T" [] none none) (pathTo "B")) true =
    none := by
  cbv

end Levels
end Expr
end BindingAlgebra
