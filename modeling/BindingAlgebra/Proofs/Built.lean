import BindingAlgebra.Proofs.Simplified

namespace BindingAlgebra.Expr

open List

-- What finitely many operations make of scalars and of each other's results.
inductive Built : Expr → Prop
  | ofValue : (∀ e ∈ v.parts, Built e) → Built (ofValue v)
  | resolvePath (source model : Option String) (navigation : List String)
      (visitor : Option (String → Option String)) :
      Built (resolvePath source model navigation visitor)
  | annotate (change : PathBinding Expr → PathBinding Expr) : Built e → Built (annotate change e)
  | reference (token : Option String) : Built (reference token)
  | ofBindingText (text : String) (targetType : Option String) :
      Built (ofBindingText text targetType)
  | negate : Built e → Built (negate e)
  | truthOf : Built e → Built (truthOf e)
  | allOf : (∀ e ∈ es, Built e) → Built (allOf es)
  | anyOf : (∀ e ∈ es, Built e) → Built (anyOf es)
  | relate (op : ComparisonOperator) : Built l → Built r → Built (relate op l r)
  | equal : Built l → Built r → Built (equal l r)
  | notEqual : Built l → Built r → Built (notEqual l r)
  | isEmpty : Built e → Built (isEmpty e)
  | choose : Built c → Built t → Built f → Built (choose c t f)
  | join : (∀ e ∈ es, Built e) → Built (join es)
  | lengthOf : Built e → Built (lengthOf e)
  | format (name : String) (keys : Option (List String)) (ignoreComplex : Bool) :
      (∀ e ∈ es, Built e) → Built (format name es keys ignoreComplex)
  | composite (typeName : String) (keys : Option (List String)) :
      (∀ e ∈ es, Built e) → (∀ e ∈ attributesOf options, Built e) →
      Built (composite typeName es keys options)
  | invoke (function : String) : (∀ e ∈ es, Built e) → (∀ e ∈ receiver, Built e) →
      Built (invoke function es receiver)
  | outline (all : Bool) : Built e → Built (outline e all)

theorem Simplified.ofValue (v : Value Expr) : Simplified (ofValue v) := by
  cases v <;> exact .inr (.constant _)

namespace Built

variable {e : Expr}

theorem simplified (h : Built e) : Simplified e := by
  induction h
  case ofValue v _ _ => exact .ofValue v
  case resolvePath source model navigation visitor =>
    exact .resolvePath source model navigation visitor
  case annotate change _ ih => exact ih.annotate change
  case reference => exact .inr ⟨trivial, nofun⟩
  case ofBindingText text targetType => exact .ofBindingText text targetType
  case negate ih => exact ih.negate
  case truthOf ih => exact ih.truthOf
  case allOf ih => exact .allOf ih
  case anyOf ih => exact .anyOf ih
  case relate op _ _ ihl ihr => exact ihl.relate op ihr
  case equal ihl ihr => exact ihl.equal ihr
  case notEqual ihl ihr => exact (ihl.equal ihr).negate
  case isEmpty ih => exact ih.isEmpty
  case choose ihc iht ihf => exact ihc.choose iht ihf
  case join ih => exact .join ih
  case lengthOf e _ _ => exact .lengthOf e
  case format name keys ignoreComplex _ ih => exact .format name keys ignoreComplex ih
  case composite name keys _ _ ih _ => exact .composite name keys _ ih
  case invoke function _ _ ih ihr => exact .invoke function ih ihr
  case outline all _ ih => exact ih.outline all

theorem pathTo (target : String) (model : Option String) : Built (pathTo target model) :=
  .resolvePath (some "") model [] (some fun _ => target)

theorem ofString (s : String) : Built (ofString s) :=
  .ofValue (v := .string s) nofun

-- Every node of what has been built is in normal form.
theorem normal_form (h : Built e) : e = unresolvable ∨ ∀ n ∈ e.nodes, NormalNode n :=
  h.simplified.imp_right Normal.node_of_mem_nodes

theorem normal_form_nested_sets :
    let e := Expr.allOf [.pathTo "A", .negate (.anyOf [.pathTo "B", .pathTo "C"]), .ofBool true]
    Built e ∧ e.nodes.length = 6 ∧ (e = unresolvable ∨ ∀ n ∈ e.nodes, NormalNode n) := by
  intro e
  have h : Built e := by
    refine .allOf fun d hd => ?_
    simp only [mem_cons, not_mem_nil, or_false] at hd
    rcases hd with rfl | rfl | rfl
    case inl => exact .pathTo "A" none
    case inr.inl =>
      refine .negate (.anyOf fun d hd => ?_)
      simp only [mem_cons, not_mem_nil, or_false] at hd
      rcases hd with rfl | rfl
      case inl => exact .pathTo "B" none
      case inr => exact .pathTo "C" none
    case inr.inr => exact .ofValue (v := .boolean true) nofun
  exact ⟨h, by decide +kernel, h.normal_form⟩

end Built
end BindingAlgebra.Expr
