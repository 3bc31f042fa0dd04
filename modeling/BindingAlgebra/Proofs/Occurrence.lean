import BindingAlgebra.Proofs.Node

namespace BindingAlgebra.Expr

-- Whether an expression is found by going down from another one. What counts as below an expression
-- is left open.
inductive Reaches (below : Expr → List Expr) (n : Expr) : Expr → Prop
  | here : Reaches below n n
  | step : c ∈ below e → Reaches below n c → Reaches below n e

-- Occurrence anywhere, also within values and metadata.
abbrev Occurs (n e : Expr) : Prop :=
  Reaches parts n e

variable {below below' : Expr → List Expr} {n c e : Expr}

namespace Reaches

theorem trans (h : Reaches below n c) (hc : Reaches below c e) : Reaches below n e := by
  induction hc
  case here => exact h
  case step hm _ ih => exact .step hm ih

theorem mono (hs : ∀ e, below e ⊆ below' e) (h : Reaches below n e) : Reaches below' n e := by
  induction h
  case here => exact .here
  case step hm _ ih => exact .step (hs _ hm) ih

-- What holds of all that is found holds of the expression itself and of what is found further down.
theorem forall_iff {p : Expr → Prop} : (∀ n, Reaches below n e → p n) ↔
    p e ∧ ∀ c ∈ below e, ∀ n, Reaches below n c → p n := by
  constructor
  case mp => exact fun h => ⟨h e .here, fun c hc n hn => h n (.step hc hn)⟩
  case mpr =>
    rintro ⟨he, hc⟩ n hn
    cases hn
    case here => exact he
    case step c hn hm => exact hc c hm n hn

end Reaches
end BindingAlgebra.Expr
