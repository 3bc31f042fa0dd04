import BindingAlgebra.Proofs.WellFormed
import BindingAlgebra.Proofs.Writable
import Mathlib.Data.List.Forall2

namespace BindingAlgebra

open List BindingText Quoted

section Relators

variable {R : α → β → Prop} {S : γ → δ → Prop} {a : Option α} {b : Option β}

theorem related_bind {f : α → Option γ} {g : β → Option δ} (h : Option.Rel R a b)
    (hf : ∀ x y, R x y → Option.Rel S (f x) (g y)) : Option.Rel S (a.bind f) (b.bind g) := by
  cases h
  case none   => exact .none
  case some h => exact hf _ _ h

theorem related_map {f : α → γ} {g : β → δ} (h : Option.Rel R a b)
    (hf : ∀ x y, R x y → S (f x) (g y)) : Option.Rel S (a.map f) (b.map g) := by
  cases h
  case none   => exact .none
  case some h => exact .some (hf _ _ h)

theorem related_mapM {f : ι → Option α} {g : ι → Option β} {xs : List ι}
    (h : ∀ x ∈ xs, Option.Rel R (f x) (g x)) :
    Option.Rel (Forall₂ R) (xs.mapM f) (xs.mapM g) := by
  induction xs
  case nil => exact .some .nil
  case cons x xs ih =>
    have ⟨hx, hxs⟩ := forall_mem_cons.mp h
    simp only [mapM_cons]
    exact related_bind hx fun _ _ hy => related_bind (ih hxs) fun _ _ hys => .some (.cons hy hys)

end Relators

-- A relation of texts that holds of whole texts if it holds of them piece by piece.
structure Compositional (R : String → String → Prop) : Prop where
  refl (s : String) : R s s
  append {s s' t t' : String} : R s s' → R t t' → R (s ++ t) (s' ++ t')

-- Options that write related texts for what they write themselves.
structure RenderOptions.Akin (R : String → String → Prop) (o o' : RenderOptions) : Prop where
  embedded : o.embedded = o'.embedded
  separator : R (.singleton o.separator) (.singleton o'.separator)

inductive BindingText.Part.Akin (R : String → String → Prop) : Part → Part → Prop
  | plain {s s' : String} : R s s' → Akin R (.plain s) (.plain s')
  | composite {s s' : String} : R s s' → Akin R (.composite s) (.composite s')

variable {R : String → String → Prop} {o o' : RenderOptions}

namespace RenderOptions.Akin

theorem operand (h : Akin R o o') : Akin R o.operand o'.operand :=
  ⟨rfl, h.separator⟩

theorem typedOperand (hR : Compositional R) : Akin R o.typedOperand o'.typedOperand :=
  ⟨rfl, hR.refl _⟩

theorem topLevel (h : Akin R o o') : Akin R o.topLevel o'.topLevel :=
  ⟨rfl, h.separator⟩

end RenderOptions.Akin

namespace Compositional

variable {s s' t t' key : String} {ss ss' : List String} (hR : Compositional R)

include hR

theorem around (before after : String) (h : R s s') :
    R (before ++ s ++ after) (before ++ s' ++ after) :=
  hR.append (hR.append (hR.refl before) h) (hR.refl after)

theorem between (sep : String) (h : R s s') (ht : R t t') : R (s ++ sep ++ t) (s' ++ sep ++ t') :=
  hR.append (hR.append h (hR.refl sep)) ht

theorem forall₂_refl (ss : List String) : Forall₂ R ss ss :=
  forall₂_same.mpr fun s _ => hR.refl s

theorem intercalate (sep : String) (h : Forall₂ R ss ss') :
    R (sep.intercalate ss) (sep.intercalate ss') := by
  induction h
  case nil => exact hR.refl _
  case cons s s' ss ss' hs hss ih =>
    cases hss
    case nil => simpa using hs
    case cons => simpa [String.intercalate_cons_of_ne_nil] using hR.between sep hs ih

theorem braced (h : R s s') : R (braced s) (braced s') :=
  hR.around _ _ h

theorem listed (h : Forall₂ R ss ss') : R (listed ss) (listed ss') :=
  hR.intercalate ", " h

theorem entry (key : String) (h : R s s') : R (entry key s) (entry key s') :=
  hR.append (hR.refl (key ++ ": ")) h

theorem entries (key : String) {text text' : Option String} (h : Option.Rel R text text') :
    Forall₂ R (entries key text) (entries key text') := by
  cases h
  case none   => exact .nil
  case some h => exact .cons (hR.entry key h) .nil

theorem asOperand (e : Expr) (h : R s s') : R (asOperand e s) (asOperand e s') := by
  unfold BindingText.asOperand
  split
  case isTrue  => exact hR.around "(" ")" h
  case isFalse => exact h

theorem wrap (ho : o.Akin R o') (h : R s s') : R (wrap o s) (wrap o' s') := by
  rw [BindingText.wrap, BindingText.wrap, ho.embedded]
  split
  case isTrue  => exact h
  case isFalse => exact hR.around "\x7b= " "\x7d" h

theorem embed (ho : o.Akin R o') (h : R s s') : R (embed o s) (embed o' s') := by
  rw [BindingText.embed, BindingText.embed, ho.embedded]
  split
  case isTrue  => exact hR.append ho.separator h
  case isFalse => exact h

theorem formatterText (n : String) {ps ps' : List Part} (h : Forall₂ (Part.Akin R) ps ps') :
    R (formatterText n ps) (formatterText n ps') := by
  have text : ∀ ⦃p p' : Part⦄, p.Akin R p' → R p.text p'.text := by
    intro p p' h
    cases h
    case plain h     => exact hR.braced h
    case composite h => exact h
  have ht : Forall₂ R (ps.map Part.text) (ps'.map Part.text) := rel_map (R := Part.Akin R) text h
  have hf := hR.refl (BindingText.entry "formatter" (quote n))
  have several := hR.append (hR.around "parts: [" "], " (hR.listed ht)) hf
  cases h
  case nil => exact hR.braced several
  case cons hp hps =>
    cases hp
    case composite => exact hR.braced several
    case plain h =>
      cases hps
      case nil  => exact hR.braced (hR.between ", " h hf)
      case cons => exact hR.braced several

theorem compositeText (n : String) {parts parts' options options' : List String}
    (hp : Forall₂ R parts parts') (ho : Forall₂ R options options') :
    R (compositeText n parts options) (compositeText n parts' options') := by
  have ht := hR.listed (.cons (hR.refl (BindingText.entry "type" (quote n))) ho)
  have hb : Forall₂ R (parts.map BindingText.braced) (parts'.map BindingText.braced) :=
    rel_map (R := R) (fun _ _ h => hR.braced h) hp
  have several := hR.append (hR.around "mode:'TwoWay', parts:[" "], " (hR.intercalate "," hb)) ht
  cases hp
  case nil => exact hR.braced several
  case cons hs hss =>
    cases hss
    case nil  => exact hR.braced (hR.between ", " hs ht)
    case cons => exact hR.braced several

end Compositional

namespace Expr

-- Whether related texts are written of an expression, as far as the options agree on whether it is
-- left out.
def Parallel (R : String → String → Prop) (e : Expr) : Prop :=
  ∀ ⦃o o' : RenderOptions⦄, o.Akin R o' → omitted o e = omitted o' e →
    Option.Rel R (bindingText? e o) (bindingText? e o')

section Parallel

variable {e : Expr} {es : List Expr} {key : String}

-- Nothing is left out within other text.
theorem Parallel.inside (h : e.Parallel R) (ha : o.Akin R o') (ho : o.embedded) :
    Option.Rel R (bindingText? e o) (bindingText? e o') :=
  h ha ((omitted_of_embedded ho e).trans (omitted_of_embedded (ha.embedded ▸ ho) e).symm)

theorem related_texts? (ha : o.Akin R o') (ho : o.embedded) (h : ∀ e ∈ es, e.Parallel R) :
    Option.Rel (Forall₂ R) (texts? es o) (texts? es o') := by
  rw [texts?_eq_mapM, texts?_eq_mapM]
  exact related_mapM fun e he => (h e he).inside ha ho

variable (hR : Compositional R)

include hR

theorem related_operandTexts? (ha : o.Akin R o') (ho : o.embedded) (h : ∀ e ∈ es, e.Parallel R) :
    Option.Rel (Forall₂ R) (operandTexts? es o) (operandTexts? es o') := by
  rw [operandTexts?_eq_mapM, operandTexts?_eq_mapM]
  exact related_mapM fun e he =>
    related_map ((h e he).inside ha ho) fun _ _ => hR.asOperand e

theorem related_entryTexts? {object : ObjectLiteral Expr} (ha : o.Akin R o') (ho : o.embedded)
    (h : ∀ e ∈ object.values, e.Parallel R) :
    Option.Rel (Forall₂ R) (entryTexts? object.entries o) (entryTexts? object.entries o') := by
  rw [entryTexts?_eq_mapM, entryTexts?_eq_mapM]
  exact related_mapM fun x hx =>
    related_map ((h x.2 (mem_map_of_mem hx)).inside ha ho) fun _ _ => hR.entry x.1

theorem related_objectText? {object : Option (ObjectLiteral Expr)} (ha : o.Akin R o')
    (h : ∀ e ∈ attributesOf object, e.Parallel R) :
    Option.Rel R (objectText? object o) (objectText? object o') := by
  cases object
  case none => exact .none
  case some object =>
    exact related_bind (related_entryTexts? hR ha.operand rfl h) fun _ _ hs =>
      .some (hR.braced (hR.listed hs))

theorem related_objectEntries? {object : Option (ObjectLiteral Expr)} (ha : o.Akin R o')
    (h : ∀ e ∈ attributesOf object, e.Parallel R) :
    Option.Rel (Forall₂ R) (objectEntries? key object (objectText? object o))
      (objectEntries? key object (objectText? object o')) := by
  cases object
  case none => exact .some .nil
  case some object =>
    simp only [objectEntries?]
    split
    case isTrue  => exact .some .nil
    case isFalse =>
      exact related_map (related_objectText? hR ha h) fun _ _ hs => .cons (hR.entry key hs) .nil

theorem related_valueText? {v : Value Expr} (ha : o.Akin R o')
    (hv : omitted o (constant v) = omitted o' (constant v)) (h : ∀ e ∈ v.parts, e.Parallel R) :
    Option.Rel R (valueText? v o) (valueText? v o') := by
  cases v
  case undefined | null =>
    have hn : (o.nullable && !o.embedded) = (o'.nullable && !o'.embedded) := by
      simpa [omitted, value?, Value.isNullish] using hv
    simp only [valueText?, hn]
    split
    case isTrue  => exact .none
    case isFalse => exact .some (hR.refl _)
  case boolean | integer | decimal => exact .some (hR.refl _)
  case string t =>
    simp only [valueText?, ha.embedded]
    exact .some (hR.refl _)
  case array es =>
    exact related_bind (related_texts? ha.operand rfl h) fun _ _ hs =>
      .some (hR.around "[" "]" (hR.intercalate "," hs))
  case object object =>
    exact related_bind (related_entryTexts? hR ha.operand rfl h) fun _ _ hs =>
      .some (hR.braced (hR.listed hs))

theorem related_metadata {b : PathBinding Expr} (ha : o.Akin R o')
    (h : ∀ e ∈ b.parts, e.Parallel R) :
    Forall₂ R (entries "constraints" (objectText? b.constraints o))
        (entries "constraints" (objectText? b.constraints o')) ∧
      Forall₂ R (entries "formatOptions" (objectText? b.formatOptions o))
        (entries "formatOptions" (objectText? b.formatOptions o')) ∧
      Forall₂ R (entries "parameters" (objectText? b.parameters o))
        (entries "parameters" (objectText? b.parameters o')) := by
  simp only [PathBinding.parts, forall_mem_append] at h
  exact ⟨hR.entries _ (related_objectText? hR ha h.left.left),
    hR.entries _ (related_objectText? hR ha h.left.right),
    hR.entries _ (related_objectText? hR ha h.right)⟩

theorem related_pathText {b : PathBinding Expr} (ha : o.Akin R o')
    (h : ∀ e ∈ b.parts, e.Parallel R) : R (pathText b o) (pathText b o') := by
  have ⟨hc, hf, hp⟩ := related_metadata hR ha h
  rw [pathText, pathText]
  split
  case isFalse => exact hR.refl _
  case isTrue =>
    have hs := hR.forall₂_refl ([entry "path" (quote b.qualified)] ++
      quotedEntries "type" b.typeName ++ quotedEntries "targetType" b.targetType ++
      modeEntries b.mode)
    exact hR.braced (hR.listed (rel_append (rel_append (rel_append hs hp) hf) hc))

theorem related_pathPart {b : PathBinding Expr} (any : Bool) (ha : o.Akin R o')
    (h : ∀ e ∈ b.parts, e.Parallel R) : R (pathPart any b o) (pathPart any b o') := by
  have ⟨hc, hf, hp⟩ := related_metadata hR ha h
  have hs := hR.forall₂_refl ([entry "path" (quote b.qualified)] ++
    quotedEntries "type" b.typeName ++ quotedEntries "targetType" (partTarget? any b) ++
    modeEntries b.mode)
  rw [pathPart, pathPart]
  exact hR.listed (rel_append (rel_append (rel_append hs hc) hf) hp)

theorem related_partText? (ha : o.Akin R o') (h : ∀ c ∈ e.partContents, c.Parallel R) :
    Option.Rel R (partText? e o) (partText? e o') := by
  cases e
  case constant v =>
    exact related_map ((h _ mem_cons_self).inside ha.operand rfl) fun _ _ => hR.entry "value"
  case path b => exact .some (related_pathPart hR false ha h)
  all_goals exact .none

theorem related_partTexts? (ha : o.Akin R o')
    (h : ∀ c ∈ es.flatMap partContents, c.Parallel R) :
    Option.Rel (Forall₂ R) (partTexts? es o) (partTexts? es o') := by
  rw [partTexts?_eq_mapM, partTexts?_eq_mapM]
  rw [forall_mem_flatMap] at h
  exact related_mapM fun e he => related_partText? hR ha (h e he)

theorem related_formatterPart? (ha : o.Akin R o') (h : ∀ c ∈ e.partContents, c.Parallel R) :
    Option.Rel (Part.Akin R) (formatterPart? e o) (formatterPart? e o') := by
  cases e
  case constant v =>
    exact related_map ((h _ mem_cons_self).inside ha.operand rfl) fun _ _ hs =>
      .plain (hR.entry "value" hs)
  case path b => exact .some (.plain (related_pathPart hR true ha h))
  case compositeType n es fo pa =>
    rw [formatterPart?_compositeType, formatterPart?_compositeType]
    have hv : omitted o.topLevel (compositeType n es fo pa) =
        omitted o'.topLevel (compositeType n es fo pa) := by
      simp [omitted, value?]
    exact related_map (h _ mem_cons_self ha.topLevel hv) fun _ _ => .composite
  all_goals exact .none

theorem related_formatterParts? (ha : o.Akin R o')
    (h : ∀ c ∈ es.flatMap partContents, c.Parallel R) :
    Option.Rel (Forall₂ (Part.Akin R)) (formatterParts? es o) (formatterParts? es o') := by
  rw [formatterParts?_eq_mapM, formatterParts?_eq_mapM]
  rw [forall_mem_flatMap] at h
  exact related_mapM fun e he => related_formatterPart? hR ha (h e he)

-- Related texts are written of a node if they are of what is written in it.
theorem parallel_of_contents (h : ∀ c ∈ e.contents, c.Parallel R) : e.Parallel R := by
  intro o o' ha hv
  have operand : ∀ c ∈ e.contents,
      Option.Rel R (bindingText? c o.operand) (bindingText? c o'.operand) :=
    fun c hc => (h c hc).inside ha.operand rfl
  cases e
  case unresolvable => exact .none
  case constant v => exact related_valueText? hR ha hv h
  case reference => exact .some (hR.refl _)
  case embeddedBinding s => exact .some (hR.embed ha (hR.refl s))
  case embeddedExpression s =>
    simp only [bindingText?, ha.embedded]
    exact .some (hR.refl _)
  case path b => exact .some (hR.embed ha (related_pathText hR ha h))
  case not e =>
    exact related_bind (operand e mem_cons_self) fun _ _ hs =>
      .some (hR.wrap ha (hR.append (hR.refl "!") (hR.asOperand e hs)))
  case truthy e =>
    exact related_bind (operand e mem_cons_self) fun _ _ hs =>
      .some (hR.wrap ha (hR.append (hR.refl "!!") (hR.asOperand e hs)))
  case set op es =>
    exact related_bind (related_operandTexts? hR (.typedOperand hR) rfl h) fun _ _ hs =>
      .some (hR.wrap ha (hR.intercalate _ hs))
  case concat es =>
    exact related_bind (related_operandTexts? hR (.typedOperand hR) rfl h) fun _ _ hs =>
      .some (hR.wrap ha (hR.intercalate _ hs))
  case comparison op l r =>
    refine related_bind (operand l mem_cons_self) fun _ _ hl => ?_
    refine related_bind (operand r (.tail _ mem_cons_self)) fun _ _ hr => ?_
    have hl := hR.append (hR.append (hR.asOperand l hl) (hR.refl " ")) (hR.refl op.token)
    exact .some (hR.wrap ha (hR.between " " hl (hR.asOperand r hr)))
  case ifElse c t f =>
    refine related_bind (operand c mem_cons_self) fun _ _ hc => ?_
    refine related_bind (operand t (.tail _ mem_cons_self)) fun _ _ ht => ?_
    refine related_bind (operand f (.tail _ (.tail _ mem_cons_self))) fun _ _ hf => ?_
    have hs := hR.between " : " (hR.between " ? " hc ht) hf
    rw [ha.embedded]
    split
    case isTrue  => exact .some (hR.around "(" ")" hs)
    case isFalse => exact .some (hR.wrap ha hs)
  case length e =>
    exact related_bind (operand e mem_cons_self) fun _ _ hs =>
      .some (hR.wrap ha (hR.append hs (hR.refl ".length")))
  case formatter n es =>
    exact related_bind (related_formatterParts? hR ha.topLevel h) fun _ _ hs =>
      .some (hR.embed ha (hR.formatterText n hs))
  case compositeType n es fo pa =>
    simp only [contents, forall_mem_append] at h
    refine related_bind (related_partTexts? hR ha.topLevel h.left.left) fun _ _ hp => ?_
    refine related_bind (related_objectEntries? hR ha.topLevel h.left.right) fun _ _ hf => ?_
    refine related_bind (related_objectEntries? hR ha.topLevel h.right) fun _ _ ha' => ?_
    exact .some (hR.embed ha (hR.compositeText n hp (rel_append hf ha')))
  case call receiver n es =>
    cases receiver
    case none =>
      exact related_bind (related_texts? ha.operand rfl h) fun _ _ hs =>
        .some (hR.around (n ++ "(") ")" (hR.listed hs))
    case some e =>
      obtain ⟨he, hes⟩ := forall_mem_cons.mp h
      refine related_bind (related_texts? ha.operand rfl hes) fun _ _ hs => ?_
      refine related_bind (he.inside ha.operand rfl) fun _ _ ht => ?_
      have ht := hR.append (hR.append (hR.append ht (hR.refl ".")) (hR.refl n)) (hR.refl "(")
      exact .some (hR.append (hR.append ht (hR.listed hs)) (hR.refl ")"))

theorem parallel (e : Expr) : e.Parallel R := by
  induction e using contents_induction
  case step e ih => exact parallel_of_contents hR ih

end Parallel

section TargetTypes

-- Texts that differ only in the marks of bindings that keep their target types in the latter.
def Switched (s t : String) : Prop :=
  Forall₂ (fun c d => c = d ∨ c = '%' ∧ d = '$') s.toList t.toList

theorem compositional_switched : Compositional Switched where
  refl _ := forall₂_same.mpr fun _ _ => .inl rfl
  append h h' := by
    simp only [Switched, String.toList_append]
    exact rel_append h h'

theorem switched_separator : Switched (.singleton '%') (.singleton '$') :=
  .cons (.inr ⟨rfl, rfl⟩) .nil

-- Whether target types are kept is of no other effect on a text than which marks stand in it, and
-- of none on that of a set or a concatenation.
theorem bindingText?_keepTargetType (embedded nullable : Bool) :
    let lost : RenderOptions := { embedded, keepTargetType := false, nullable }
    let kept : RenderOptions := { embedded, keepTargetType := true, nullable }
    (∀ e, Option.Rel Switched (bindingText? e lost) (bindingText? e kept)) ∧
      (∀ op es, bindingText? (set op es) lost = bindingText? (set op es) kept) ∧
      ∀ es, bindingText? (concat es) lost = bindingText? (concat es) kept := by
  intro lost kept
  have ha : lost.Akin Switched kept := ⟨rfl, switched_separator⟩
  have ho : lost.typedOperand = kept.typedOperand := rfl
  have hw : ∀ s, wrap lost s = wrap kept s := fun _ => rfl
  refine ⟨fun e => parallel compositional_switched e ha rfl, fun op es => ?_, fun es => ?_⟩
  · simp only [bindingText?, ho, hw]
  · simp only [bindingText?, ho, hw]

example :
    let e := length (path { path := "a" })
    bindingText? e {} = some "\x7b= %\x7ba\x7d.length\x7d" ∧
      bindingText? e { keepTargetType := true } = some "\x7b= $\x7ba\x7d.length\x7d" := by
  decide +kernel

end TargetTypes
end Expr
end BindingAlgebra
