import BindingAlgebra.Binding.Text
import BindingAlgebra.Proofs.Node

namespace BindingAlgebra.Expr

open List BindingText

-- What must have a text for a node to have one. A path does without metadata that has none.
def required : Expr → List Expr
  | path _ => []
  | e      => e.parts

-- Parts of a composite type can only be constants and paths.
def isSimple (e : Expr) : Bool :=
  e.isConstant || e.isPath

-- Whether nothing about a node itself is in the way of a text.
def WritableNode : Expr → Prop
  | unresolvable           => False
  | formatter _ es         => ∀ e ∈ es, e.isSimple ∨ e.kind = .compositeType
  | compositeType _ es _ _ => ∀ e ∈ es, e.isSimple
  | _                      => True

theorem required_subset_parts (e : Expr) : e.required ⊆ e.parts := by
  cases e <;> simp [required]

inductive Writable : Expr → Prop
  | intro : WritableNode e → (∀ c ∈ e.required, Writable c) → Writable e

-- A lone value that is null or undefined, and is written as nothing where that is allowed.
def omitted (o : RenderOptions) (e : Expr) : Bool :=
  o.nullable && !o.embedded && e.value?.any (·.isNullish)

theorem writable_iff {e : Expr} :
    Writable e ↔ WritableNode e ∧ ∀ c ∈ e.required, Writable c where
  mp  := fun ⟨hn, hc⟩ => ⟨hn, hc⟩
  mpr := fun ⟨hn, hc⟩ => ⟨hn, hc⟩

theorem omitted_iff {o : RenderOptions} {e : Expr} :
    omitted o e ↔ o.nullable ∧ ¬o.embedded ∧ (e = constant .undefined ∨ e = constant .null) := by
  cases e
  case constant v => cases v <;> simp [omitted, value?, Value.isNullish]
  all_goals simp [omitted, value?]

theorem omitted_of_embedded {o : RenderOptions} (ho : o.embedded) (e : Expr) :
    omitted o e = false := by
  simp [omitted, ho]

section Texts

variable {o : RenderOptions} {e : Expr} {es : List Expr}

theorem any_const (x : Option α) (b : Bool) : x.any (fun _ => b) = (x.isSome && b) := by
  cases x <;> rfl

theorem isSome_mapM_iff {f : α → Option β} {xs : List α} :
    (xs.mapM f).isSome ↔ ∀ x ∈ xs, (f x).isSome := by
  induction xs <;> simp_all [Option.isSome_bind, any_const]

-- A list of texts exists if each of them does.

theorem isSome_texts?_iff : (texts? es o).isSome ↔ ∀ e ∈ es, (bindingText? e o).isSome := by
  rw [texts?_eq_mapM, isSome_mapM_iff]

theorem isSome_operandTexts?_iff :
    (operandTexts? es o).isSome ↔ ∀ e ∈ es, (bindingText? e o).isSome := by
  simp [operandTexts?_eq_mapM, isSome_mapM_iff]

theorem isSome_entryTexts?_iff {entries : List (String × Expr)} :
    (entryTexts? entries o).isSome ↔ ∀ e ∈ entries.map Prod.snd, (bindingText? e o).isSome := by
  rw [entryTexts?_eq_mapM, isSome_mapM_iff, forall_mem_map]
  simp only [Option.isSome_map]

theorem isSome_objectText?_iff {object : ObjectLiteral Expr} :
    (objectText? (some object) o).isSome ↔
      ∀ e ∈ object.values, (bindingText? e o.operand).isSome := by
  simp only [objectText?, Option.pure_def, Option.bind_eq_bind, Option.isSome_bind,
    Option.isSome_some, Option.any_true, isSome_entryTexts?_iff, ObjectLiteral.values]

theorem isSome_objectEntries?_iff {key : String} {object : Option (ObjectLiteral Expr)} :
    (objectEntries? key object (objectText? object o)).isSome ↔
      ∀ e ∈ attributesOf object, (bindingText? e o.operand).isSome := by
  cases object
  case none => simp [objectEntries?, attributesOf]
  case some object =>
    simp only [objectEntries?, attributesOf, Option.elim_some]
    split
    case isTrue h =>
      have : object.values = [] := by simpa [ObjectLiteral.values, ObjectLiteral.isEmpty] using h
      simp [this]
    case isFalse => rw [Option.isSome_map, isSome_objectText?_iff]

theorem isSome_valueText?_iff {v : Value Expr} :
    (valueText? v o).isSome ↔
      ¬omitted o (constant v) ∧ ∀ e ∈ v.parts, (bindingText? e o.operand).isSome := by
  cases v
  case undefined | null => simp [valueText?, omitted, value?, Value.isNullish, Value.parts]
  case array es =>
    simp [valueText?, omitted, value?, Value.isNullish, Value.parts, Option.isSome_bind,
      isSome_texts?_iff]
  case object object =>
    obtain ⟨entries⟩ := object
    simp [valueText?, omitted, value?, Value.isNullish, Value.parts, ObjectLiteral.values,
      Option.isSome_bind, isSome_entryTexts?_iff]
  all_goals simp [valueText?, omitted, value?, Value.isNullish, Value.parts]

theorem isSome_partText?_iff :
    (partText? e o).isSome ↔ e.isSimple ∧ (bindingText? e o.operand).isSome := by
  cases e <;> simp [partText?, bindingText?, isSimple, isConstant, isPath, kind]

theorem isSome_partTexts?_iff : (partTexts? es o).isSome ↔ ∀ e ∈ es, (partText? e o).isSome := by
  rw [partTexts?_eq_mapM, isSome_mapM_iff]

theorem isSome_formatterPart?_iff :
    (formatterPart? e o).isSome ↔
      (e.isSimple ∨ e.kind = .compositeType) ∧ (bindingText? e o.operand).isSome := by
  cases e
  case compositeType =>
    simp [formatterPart?, bindingText?, kind, Option.isSome_bind, any_const]
  all_goals simp [formatterPart?, bindingText?, isSimple, isConstant, isPath, kind]

theorem isSome_formatterParts?_iff :
    (formatterParts? es o).isSome ↔ ∀ e ∈ es, (formatterPart? e o).isSome := by
  rw [formatterParts?_eq_mapM, isSome_mapM_iff]

end Texts

-- There is a text unless something is in the way of it, or a lone value is left out.
theorem isSome_bindingText?_iff {e : Expr} {o : RenderOptions} :
    (bindingText? e o).isSome ↔ ¬omitted o e ∧ Writable e := by
  induction e using parts_induction generalizing o
  case step e ih =>
    -- Nothing is left out below the root, since whatever stands there is an operand.
    have hi : ∀ o : RenderOptions, o.embedded →
        ((∀ c ∈ e.required, Writable c) ↔ ∀ c ∈ e.required, (bindingText? c o).isSome) := by
      intro o ho
      refine forall₂_congr fun c hc => ?_
      simp [ih c (required_subset_parts e hc), omitted_of_embedded ho]
    rw [writable_iff]
    cases e
    case set | concat =>
      rw [hi o.typedOperand rfl]
      simp [bindingText?, Option.isSome_bind, isSome_operandTexts?_iff, omitted, value?,
        WritableNode, required, parts, children]
    all_goals rw [hi o.operand rfl]
    case constant v =>
      simp [bindingText?, isSome_valueText?_iff, WritableNode, required, parts]
    case call receiver _ _ =>
      cases receiver <;> simp [bindingText?, Option.isSome_bind, any_const, isSome_texts?_iff,
        omitted, value?, WritableNode, required, parts, children, and_comm]
    case formatter =>
      simp [bindingText?, Option.isSome_bind, isSome_formatterParts?_iff,
        isSome_formatterPart?_iff, omitted, value?, WritableNode, required, parts, children,
        forall_and]
    case compositeType =>
      simp [bindingText?, Option.isSome_bind, any_const, isSome_partTexts?_iff,
        isSome_partText?_iff, isSome_objectEntries?_iff, omitted, value?, WritableNode, required,
        parts, forall_and, or_imp, and_assoc]
    all_goals simp [bindingText?, Option.isSome_bind, any_const, omitted, value?, WritableNode,
      required, parts, children]

theorem Writable.isSome {e : Expr} {o : RenderOptions} (h : Writable e) (ho : o.embedded) :
    (bindingText? e o).isSome :=
  isSome_bindingText?_iff.mpr ⟨by simp [omitted_of_embedded ho], h⟩

end BindingAlgebra.Expr
