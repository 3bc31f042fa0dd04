import BindingAlgebra.Proofs.Occurrence
import BindingAlgebra.Proofs.Writable
import Mathlib.Tactic.ByContra

namespace BindingAlgebra.Expr

open List BindingText

-- Occurrence where a text is needed, which is everywhere but in the metadata of paths.
abbrev Exposed (n e : Expr) : Prop :=
  Reaches required n e

variable {n e : Expr}

theorem Exposed.occurs (h : Exposed n e) : Occurs n e :=
  h.mono required_subset_parts

theorem required_eq_parts (h : ¬e.isPath) : e.required = e.parts := by
  cases e
  case path => exact absurd rfl h
  all_goals rfl

-- What is not exposed lies in the metadata of a path that is.
theorem occurs_iff :
    Occurs n e ↔ Exposed n e ∨ ∃ b, Exposed (path b) e ∧ ∃ c ∈ b.parts, Occurs n c := by
  constructor
  case mpr =>
    rintro (h | ⟨b, hb, c, hc, h⟩)
    case inl => exact h.occurs
    case inr => exact Reaches.trans (.step hc h) hb.occurs
  case mp =>
    intro h
    induction h
    case here => exact .inl .here
    case step e c hc h ih =>
      by_cases hp : e.isPath
      case pos =>
        obtain ⟨b, rfl⟩ := isPath_iff.mp hp
        exact .inr ⟨b, .here, c, hc, h⟩
      case neg =>
        rw [← required_eq_parts hp] at hc
        refine ih.imp (.step hc) ?_
        rintro ⟨b, hb, hm⟩
        exact ⟨b, .step hc hb, hm⟩

theorem writable_iff_forall : Writable e ↔ ∀ n, Exposed n e → WritableNode n := by
  constructor
  case mp =>
    intro h n hn
    induction hn
    case here => exact (writable_iff.mp h).left
    case step hc _ ih => exact ih ((writable_iff.mp h).right _ hc)
  case mpr =>
    intro h
    induction e using parts_induction
    case step e ih =>
      refine .intro (h e .here) fun c hc => ?_
      exact ih c (required_subset_parts e hc) fun n hn => h n (.step hc hn)

-- There is no text if, and only if, something unresolvable is in the way of it, or a part that has
-- no place in a binding, or a lone value is left out. Nothing is in the way of it in the metadata of
-- a path, which is where all else occurs.
theorem bindingText?_eq_none_iff (e : Expr) (o : RenderOptions) :
    (bindingText? e o = none ↔
      Exposed unresolvable e ∨ omitted o e ∨ ∃ n ≠ unresolvable, Exposed n e ∧ ¬WritableNode n) ∧
    (Occurs unresolvable e ↔ Exposed unresolvable e ∨
      ∃ b, Exposed (path b) e ∧ ∃ c ∈ b.parts, Occurs unresolvable c) := by
  refine ⟨?_, occurs_iff⟩
  rw [← Option.not_isSome_iff_eq_none, isSome_bindingText?_iff, writable_iff_forall]
  constructor
  case mp =>
    intro h
    by_contra hn
    simp only [not_or, not_exists, not_and, not_not] at hn
    obtain ⟨hu, ho, hw⟩ := hn
    refine h ⟨ho, fun n hn => hw n ?_ hn⟩
    rintro rfl
    exact hu hn
  case mpr =>
    rintro (hu | ho | ⟨n, _, hn, hw⟩) ⟨ho', h⟩
    case inl => exact h _ hu
    case inr.inl => exact ho' ho
    case inr.inr => exact hw (h n hn)

-- A path does without an option that cannot be written.
theorem unresolvable_option_hidden :
    let style  := ObjectLiteral.mk [("style", unresolvable)]
    let amount := path { path := "Amount", formatOptions := some style }
    Occurs unresolvable amount ∧ ¬bindingText? amount {} = none := by
  intro style amount
  have ht : bindingText? amount {} = some "\x7bpath: 'Amount'\x7d" := by decide +kernel
  exact ⟨.step mem_cons_self .here, by simp [ht]⟩

end BindingAlgebra.Expr
