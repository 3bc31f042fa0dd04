import BindingAlgebra.Proofs.Hoisting

namespace BindingAlgebra.Expr

open List

-- To outline a tree is to put it together anew, and what is put together may have to be outlined in
-- its turn. Here it is counted how deep that goes: outlining has so many levels, and it fails if it
-- needs one more.
abbrev PartialOutlining := Expr → Bool → Option Expr

-- What a conditional, or a concatenation, is outlined from, if it has to be.

def choiceRequest? (c t f : Expr) : Option Expr :=
  if hasUnresolvable [c, t, f] then none
  else
    let (c, t, f) := canonical c t f
    if (collapse? c t f).isNone && (c.isComplex || t.isComplex || f.isComplex) then
      some (formatCall ifElseFormatter [c, t, f])
    else none

def joinRequest? (parts : List Expr) : Option Expr :=
  if !hasUnresolvable parts && (joinConstants? parts).isNone && parts.any isComplex then
    some (formatCall concatFormatter parts)
  else none

-- What a node asks to have outlined when it is put together from children that have been replaced,
-- and whether logic and conditionals are to be entered then.
def request? : Expr → List Expr → Option (Expr × Bool)
  | ifElse _ _ _, [c, t, f] => (choiceRequest? c t f).map (·, true)
  | concat _, es            => (joinRequest? es).map (·, false)
  | _, _                    => none

def rebuildWithin (outline? : PartialOutlining) (e : Expr) (es : List Expr) : Option Expr :=
  match request? e es with
  | some (asked, all) => outline? asked all
  | none              => some (rebuildWith (fun e _ => e) e es)

-- What fails below a node fails for the node, even if the node itself is replaced and whatever
-- became of its children is dropped.
def settleWithin (kind : Kind) (f : Expr → StateM σ Expr) (e : Expr)
    (rebuilt : StateT σ Option Expr) : StateT σ Option Expr := do
  let e' ← rebuilt
  if e.kind = kind then fun s => some ((f e).run s) else return e'

def replaceWithin (outline? : PartialOutlining) (kind : Kind) (f : Expr → StateM σ Expr)
    (all : Bool) (e : Expr) : StateT σ Option Expr :=
  settleWithin kind f e <|
    if e.kind.entered all then do
      let es ← e.children.attach.mapM fun c => replaceWithin outline? kind f all c.val
      StateT.lift (rebuildWithin outline? e es)
    else return e
termination_by sizeOf e
decreasing_by exact sizeOf_lt_of_mem_children c.property

def outlineWithin : Nat → PartialOutlining
  | 0     => fun _ _ => none
  | n + 1 => fun e all => do
    let (rest, aside) ← (replaceWithin (outlineWithin n) .path setAside all e).run []
    return formatCall evaluateFormatter (ofString rest.written :: aside)

section Requests

variable {outline : Outlining} {c t f e : Expr} {es : List Expr}

-- A node does what it asks for, and what it does without asking does not depend on outlining.

theorem chooseWith_eq_of_request (outline : Outlining) (c t f : Expr) :
    chooseWith outline c t f =
      match choiceRequest? c t f with
      | some asked => outline asked true
      | none       => chooseWith (fun e _ => e) c t f := by
  by_cases hu : hasUnresolvable [c, t, f]
  case pos => simp [choiceRequest?, chooseWith, hu]
  case neg =>
    obtain ⟨c', t', f', hc⟩ : ∃ c' t' f', canonical c t f = (c', t', f') := ⟨_, _, _, rfl⟩
    rw [chooseWith_eq hu hc, chooseWith_eq hu hc, choiceRequest?, if_neg hu, hc]
    cases hs : collapse? c' t' f' <;>
      by_cases hx : c'.isComplex || t'.isComplex || f'.isComplex <;> simp [hs, hx]

theorem joinWith_eq_of_request (outline : Outlining) (es : List Expr) :
    joinWith outline es =
      match joinRequest? es with
      | some asked => outline asked false
      | none       => joinWith (fun e _ => e) es := by
  by_cases hu : hasUnresolvable es
  case pos => simp [joinRequest?, joinWith, hu]
  case neg =>
    cases hj : joinConstants? es <;> by_cases hx : es.any isComplex <;>
      simp [joinRequest?, joinWith, hu, hj, hx]

theorem rebuildWith_eq_of_request (outline : Outlining) (e : Expr) (es : List Expr) :
    rebuildWith outline e es =
      match request? e es with
      | some (asked, all) => outline asked all
      | none              => rebuildWith (fun e _ => e) e es := by
  fun_cases request? e es
  case case1 c t f =>
    rw [rebuildWith, rebuildWith, chooseWith_eq_of_request]
    cases choiceRequest? c t f <;> rfl
  case case2 =>
    rw [rebuildWith, rebuildWith, joinWith_eq_of_request]
    cases joinRequest? es <;> rfl
  case case3 hj hc =>
    unfold rebuildWith
    split
    case h_5 c t f => exact (hc _ _ _ c t f rfl rfl).elim
    case h_6 => exact (hj _ rfl).elim
    all_goals rfl

theorem rebuildWithin_eq {outline? : PartialOutlining}
    (h : ∀ asked all, request? e es = some (asked, all) →
      outline? asked all = some (outline asked all)) :
    rebuildWithin outline? e es = some (rebuildWith outline e es) := by
  rw [rebuildWithin, rebuildWith_eq_of_request outline]
  split
  case h_1 asked all hr => exact h asked all hr
  case h_2 => rfl

end Requests

section Run

theorem replaceWithin_eq {σ : Type} (outline? : PartialOutlining) (kind : Kind)
    (f : Expr → StateM σ Expr) (all : Bool) (e : Expr) :
    replaceWithin outline? kind f all e = settleWithin kind f e (
      if e.kind.entered all then do
        let es ← e.children.mapM (replaceWithin outline? kind f all)
        StateT.lift (rebuildWithin outline? e es)
      else return e) := by
  rw [replaceWithin, mapM_subtype (g := replaceWithin outline? kind f all) fun _ _ => rfl,
    unattach_attach]

-- What replacements keep: of expressions in `q` they make others that are related by `r`, and the
-- state of the callback stays in `inv`. All that is asked for on the way is outlined.
structure Replaces (outline? : PartialOutlining) (outline : Outlining) (kind : Kind)
    (f : Expr → StateM σ Expr) (all : Bool) (q : Expr → Prop) (r : Expr → Expr → Prop)
    (inv : σ → Prop) : Prop where
  child    : ∀ {e}, q e → e.kind.entered all → ∀ c ∈ e.children, q c
  left     : ∀ {e}, ¬e.kind.entered all → r e e
  replaced : ∀ {e s}, e.kind = kind → inv s → r e ((f e).run s).1 ∧ inv ((f e).run s).2
  answered : ∀ {e es asked all'}, q e → e.kind.entered all → Forall₂ r e.children es →
    request? e es = some (asked, all') → outline? asked all' = some (outline asked all')
  rebuilt  : ∀ {e es}, q e → e.kind.entered all → Forall₂ r e.children es →
    r e (rebuildWith outline e es)

namespace Replaces

variable {σ : Type} {outline? : PartialOutlining} {outline : Outlining} {kind : Kind}
  {f : Expr → StateM σ Expr} {all : Bool} {q : Expr → Prop} {r : Expr → Expr → Prop}
  {inv : σ → Prop} {e : Expr} {es : List Expr} {s : σ}

theorem run_all
    (ih : ∀ e ∈ es, ∀ {s}, inv s → ∃ e' s',
      (replaceWithin outline? kind f all e).run s = some (e', s') ∧
      (replaceWith outline kind f all e).run s = pure (e', s') ∧ r e e' ∧ inv s') (hs : inv s) :
    ∃ es' s', (es.mapM (replaceWithin outline? kind f all)).run s = some (es', s') ∧
      (replaceAllWith outline kind f all es).run s = pure (es', s') ∧ Forall₂ r es es' ∧
      inv s' := by
  induction es generalizing s
  case nil => exact ⟨[], s, rfl, rfl, .nil, hs⟩
  case cons e es ih' =>
    obtain ⟨e', s₁, hp, ht, hr, hs₁⟩ := ih e mem_cons_self hs
    obtain ⟨es', s₂, hps, hts, hrs, hs₂⟩ := ih' (fun d hd => ih d (mem_cons_of_mem _ hd)) hs₁
    refine ⟨e' :: es', s₂, ?_, ?_, .cons hr hrs, hs₂⟩
    · simp [hp, hps]
    · simp [replaceAllWith, ht, hts]

theorem run_settle {rebuilt? : StateT σ Option Expr} {rebuilt : StateM σ Expr}
    (hf : e.kind = kind → ∀ {s}, inv s → r e ((f e).run s).1 ∧ inv ((f e).run s).2)
    (h : ∃ e' s', rebuilt?.run s = some (e', s') ∧ rebuilt.run s = pure (e', s') ∧ r e e' ∧
      inv s') :
    ∃ e' s', (settleWithin kind f e rebuilt?).run s = some (e', s') ∧
      (settle kind f e rebuilt).run s = pure (e', s') ∧ r e e' ∧ inv s' := by
  obtain ⟨e', s', hp, ht, hr, hs⟩ := h
  simp only [settleWithin, settle, StateT.run_bind, hp, ht, pure_bind]
  by_cases hk : e.kind = kind
  case pos =>
    obtain ⟨hr, hs⟩ := hf hk hs
    exact ⟨_, _, by simp [hk]; rfl, by simp [hk]; rfl, hr, hs⟩
  case neg => exact ⟨e', s', by simp [hk], by simp [hk], hr, hs⟩

-- The partial replacement succeeds, and it makes what the total one makes.
theorem run (hr : Replaces outline? outline kind f all q r inv) (h : q e) (hs : inv s) :
    ∃ e' s', (replaceWithin outline? kind f all e).run s = some (e', s') ∧
      (replaceWith outline kind f all e).run s = pure (e', s') ∧ r e e' ∧ inv s' := by
  induction e using children_induction generalizing s
  case step e ih =>
    rw [replaceWithin_eq, replaceWith_eq]
    refine run_settle (hr.replaced ·) ?_
    by_cases he : e.kind.entered all
    case neg => exact ⟨e, s, by simp [he], by simp [he], hr.left he, hs⟩
    case pos =>
      obtain ⟨es, s', hp, ht, hes, hs'⟩ := run_all (fun c hc s => ih c hc (hr.child h he c hc)) hs
      have hb := rebuildWithin_eq fun asked all' => hr.answered h he hes
      exact ⟨_, s', by simp [he, hp, hb], by simp [he, ht], hr.rebuilt h he hes, hs'⟩

end Replaces
end Run
end BindingAlgebra.Expr
