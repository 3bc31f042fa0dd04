import BindingAlgebra.Proofs.Built

namespace BindingAlgebra

-- The kinds of nodes that can have anything below them, or nothing at all. Of the others, constants
-- and composite types hold data, and not every expression has a text as a part of a formatter or of
-- a composite type.
def Kind.isPlain : Kind → Bool
  | constant | formatter | compositeType => false
  | _                                    => true

namespace Expr

open List

-- Properties that all nodes have which operations add on their own account.
structure Ordinary (q : Expr → Prop) : Prop where
  plain   : ∀ e, e.kind.isPlain → q e
  scalar  : ∀ v, v.parts = [] → q (constant v)
  outline : ∀ s (bs : List (PathBinding Expr)), q (formatter standardFormatter
    (ofString "evaluateComplexExpression" :: ofString s :: bs.map path))

variable {q : Expr → Prop} {e c t f l r : Expr} {es : List Expr}

namespace Ordinary

variable (hq : Ordinary q)

include hq

theorem of_plain (he : e.kind.isPlain) (h : ∀ c ∈ e.children, AllNodes q c) : AllNodes q e :=
  allNodes_iff.mpr ⟨hq.plain e he, h⟩

theorem unresolvable : AllNodes q unresolvable :=
  hq.of_plain rfl nofun

theorem path (b : PathBinding Expr) : AllNodes q (path b) :=
  hq.of_plain rfl nofun

theorem of_scalar {v : Value Expr} (hv : v.parts = []) : AllNodes q (constant v) :=
  allNodes_iff.mpr ⟨hq.scalar v hv, nofun⟩

theorem ofString (s : String) : AllNodes q (ofString s) :=
  hq.of_scalar rfl

theorem comparison (op : ComparisonOperator) (hl : AllNodes q l) (hr : AllNodes q r) :
    AllNodes q (comparison op l r) :=
  hq.of_plain rfl (by simp [children, hl, hr])

theorem inherited : Inherited (AllNodes q) :=
  AllNodes.inherited hq.scalar (fun _ => hq.plain _ rfl) (fun _ _ => hq.plain _ rfl) fun _ _ _ _ =>
    hq.plain _ rfl

theorem truthOf (h : AllNodes q e) : AllNodes q (truthOf e) := by
  unfold Expr.truthOf
  split
  case h_1 => exact h
  case h_2 => exact hq.of_scalar rfl
  case h_3 => exact hq.of_plain rfl (by simpa [children] using h)

theorem relate (op : ComparisonOperator) (hl : AllNodes q l) (hr : AllNodes q r) :
    AllNodes q (relate op l r) :=
  hq.inherited.relate hl hr (hq.comparison op hl hr)

theorem equal (hl : AllNodes q l) (hr : AllNodes q r) : AllNodes q (equal l r) :=
  hq.inherited.equal (hq.comparison .equal) hl hr

theorem isEmpty (h : AllNodes q e) : AllNodes q (isEmpty e) :=
  hq.inherited.isEmpty (hq.comparison .equal) h

section Outlining

-- Of what is outlined nothing remains in an outline but its paths.
theorem outlined (all : Bool) (hs : Simplified e) : AllNodes q (Expr.outline e all) := by
  rw [outline_eq all hs]
  refine allNodes_iff.mpr ⟨hq.outline _ _, ?_⟩
  simp only [children, forall_mem_cons, forall_mem_map]
  exact ⟨hq.ofString _, hq.ofString _, fun b _ => hq.path b⟩

theorem choose (sc : Simplified c) (st : Simplified t) (sf : Simplified f) (hc : AllNodes q c)
    (ht : AllNodes q t) (hf : AllNodes q f) : AllNodes q (choose c t f) := by
  by_cases hu : hasUnresolvable [c, t, f]
  case pos => simpa only [Expr.choose, chooseWith, if_pos hu] using hq.unresolvable
  case neg =>
    obtain ⟨c', t', f', h⟩ : ∃ c' t' f', canonical c t f = (c', t', f') := ⟨_, _, _, rfl⟩
    obtain ⟨nc, nt, nf⟩ := Simplified.all_normal_three hu sc st sf
    obtain ⟨sc', st', sf'⟩ := Simplified.canonical_normal h nc nt nf
    obtain ⟨hc', ht', hf'⟩ := hq.inherited.canonical h hc ht hf
    rw [Expr.choose, chooseWith_eq hu h]
    cases hs : collapse? c' t' f'
    case some e => exact hq.inherited.collapsed (collapsed_of_collapse? hs) hc' ht' hf'
    case none =>
      simp only [Option.getD_none]
      split
      case isTrue => exact hq.outlined _ (.formatCall _ (by simp [Simplified, sc', st', sf']))
      case isFalse => exact hq.of_plain rfl (by simp [children, hc', ht', hf'])

theorem join (hs : ∀ e ∈ es, Simplified e) (h : ∀ e ∈ es, AllNodes q e) :
    AllNodes q (join es) := by
  rw [Expr.join, joinWith]
  split
  case isTrue => exact hq.unresolvable
  case isFalse =>
    split
    case h_1 => exact hq.ofString _
    case h_2 =>
      split
      case isTrue => exact hq.outlined _ (.formatCall _ hs)
      case isFalse => exact hq.of_plain rfl h

end Outlining

section Calls

theorem withKeys (keys : Option (List String)) (h : ∀ e ∈ es, AllNodes q e) :
    ∀ e ∈ withKeys keys es, AllNodes q e :=
  forall_mem_withKeys keys hq.path h

theorem formatCall (name : String) (hn : q (formatCall name es)) (h : ∀ e ∈ es, AllNodes q e) :
    AllNodes q (formatCall name es) := by
  refine allNodes_iff.mpr ⟨hn, ?_⟩
  rw [Expr.formatCall]
  split
  case isTrue => exact forall_mem_nil _
  case isFalse =>
    simp only [children]
    split
    case isTrue  => exact h
    case isFalse => exact forall_mem_cons.mpr ⟨hq.ofString _, h⟩

-- A call that is not outlined is all that has to be looked at.
theorem format {name : String} {keys : Option (List String)} {ignoreComplex : Bool}
    (hn : (¬ignoreComplex → ∀ e ∈ Expr.withKeys keys es, e.isConstant ∨ e.isPath) →
      q (Expr.formatCall name (Expr.withKeys keys es)))
    (hs : ∀ e ∈ es, Simplified e) (h : ∀ e ∈ es, AllNodes q e) :
    AllNodes q (format name es keys ignoreComplex) := by
  rw [Expr.format, formatWith]
  split
  case isTrue => exact hq.unresolvable
  case isFalse =>
    simp only
    split
    case isTrue =>
      exact hq.outlined _ (.formatCall name (forall_mem_withKeys keys (fun b => .inr (.path b)) hs))
    case isFalse hx =>
      refine hq.formatCall name (hn fun hi e he => ?_) (hq.withKeys keys h)
      by_contra hc
      exact hx (by simpa [hi] using ⟨e, he, by simpa using hc⟩)

theorem composite {name : String} {keys : Option (List String)}
    {options : Option (ObjectLiteral Expr)} (hn : q (composite name es keys options))
    (h : ∀ e ∈ es, AllNodes q e) : AllNodes q (composite name es keys options) := by
  refine allNodes_iff.mpr ⟨hn, ?_⟩
  rw [Expr.composite]
  split
  case isTrue => exact forall_mem_nil _
  case isFalse => exact forall_mem_withLookup name hq.path (hq.withKeys keys h)

theorem invoke (function : String) {receiver : Option Expr} (h : ∀ e ∈ es, AllNodes q e)
    (hr : ∀ e ∈ receiver, AllNodes q e) : AllNodes q (invoke function es receiver) := by
  rw [Expr.invoke]
  split
  case isTrue => exact hq.unresolvable
  case isFalse =>
    refine hq.of_plain rfl (forall_mem_append.mpr ⟨?_, h⟩)
    simpa using hr

theorem lengthOf (e : Expr) : AllNodes q (lengthOf e) := by
  unfold Expr.lengthOf
  split
  case h_1 => exact hq.of_plain rfl (by simpa [children] using hq.path _)
  case h_2 | h_3 => exact hq.of_scalar rfl
  case h_4 => exact hq.unresolvable

end Calls

section Leaves

theorem ofBindingText (text : String) (targetType : Option String) :
    AllNodes q (ofBindingText text targetType) := by
  simp only [Expr.ofBindingText]
  split_ifs
  case pos | pos => exact hq.of_plain rfl (forall_mem_nil _)
  all_goals exact hq.of_scalar rfl

theorem resolvePath (source model : Option String) (navigation : List String)
    (visitor : Option (String → Option String)) :
    AllNodes q (resolvePath source model navigation visitor) := by
  unfold Expr.resolvePath
  split
  case h_1 => exact hq.unresolvable
  case h_2 =>
    split
    case h_1 => exact hq.path _
    case h_2 =>
      split
      case h_1 => exact hq.unresolvable
      case h_2 => exact hq.path _

theorem annotate (change : PathBinding Expr → PathBinding Expr) (h : AllNodes q e) :
    AllNodes q (annotate change e) := by
  unfold Expr.annotate
  split
  case h_1 => exact hq.path _
  case h_2 => exact h

end Leaves
end Ordinary
end Expr
end BindingAlgebra
