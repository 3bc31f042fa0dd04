import BindingAlgebra.Proofs.Ordinary
import BindingAlgebra.Proofs.Outlining
import BindingAlgebra.Proofs.Writable

namespace BindingAlgebra.Expr

open List BindingText

-- What is built in a way that leaves room for it in a binding: formatters take complex parts by way
-- of an outline only, composite types have constants and paths as parts, and nothing without a
-- value ends up in data.
inductive Bindable : Expr → Prop
  | ofValue : (∀ e ∈ v.parts, Bindable e) → unresolvable ∉ v.parts → Bindable (ofValue v)
  | resolvePath (source model : Option String) (navigation : List String)
      (visitor : Option (String → Option String)) :
      Bindable (resolvePath source model navigation visitor)
  | annotate (change : PathBinding Expr → PathBinding Expr) :
      Bindable e → Bindable (annotate change e)
  | reference (token : Option String) : Bindable (reference token)
  | ofBindingText (text : String) (targetType : Option String) :
      Bindable (ofBindingText text targetType)
  | negate : Bindable e → Bindable (negate e)
  | truthOf : Bindable e → Bindable (truthOf e)
  | allOf : (∀ e ∈ es, Bindable e) → Bindable (allOf es)
  | anyOf : (∀ e ∈ es, Bindable e) → Bindable (anyOf es)
  | relate (op : ComparisonOperator) : Bindable l → Bindable r → Bindable (relate op l r)
  | equal : Bindable l → Bindable r → Bindable (equal l r)
  | notEqual : Bindable l → Bindable r → Bindable (notEqual l r)
  | isEmpty : Bindable e → Bindable (isEmpty e)
  | choose : Bindable c → Bindable t → Bindable f → Bindable (choose c t f)
  | join : (∀ e ∈ es, Bindable e) → Bindable (join es)
  | lengthOf : Bindable e → Bindable (lengthOf e)
  | format (name : String) (keys : Option (List String)) :
      (∀ e ∈ es, Bindable e) → Bindable (format name es keys false)
  | composite (typeName : String) (keys : Option (List String)) :
      (∀ e ∈ es, Bindable e) → (∀ e ∈ es, e.isSimple) → (∀ e ∈ attributesOf options, Bindable e) →
      unresolvable ∉ attributesOf options → Bindable (composite typeName es keys options)
  | invoke (function : String) : (∀ e ∈ es, Bindable e) → (∀ e ∈ receiver, Bindable e) →
      Bindable (invoke function es receiver)
  | outline (all : Bool) : Bindable e → Bindable (outline e all)

-- Nothing about a node itself is in the way of a text, nor about what it holds besides children.
def Furnished (e : Expr) : Prop :=
  e ≠ unresolvable → WritableNode e ∧ ∀ c ∈ e.required, c ∈ e.children ∨ Writable c

section Furnished

variable {e : Expr} {es : List Expr}

theorem Normal.writable (h : Normal e) (hf : AllNodes Furnished e) : Writable e := by
  induction e using children_induction
  case step e ih =>
    have ⟨hn, hr⟩ := hf.node h.ne_unresolvable
    refine ⟨hn, fun c hc => ?_⟩
    cases hr c hc
    case inl hc => exact ih c hc (h.child hc) (hf.child hc)
    case inr hw => exact hw

theorem furnished_formatter (n : String) (h : ∀ e ∈ es, e.isSimple) :
    Furnished (formatter n es) :=
  fun _ => ⟨fun e he => .inl (h e he), fun _ hc => .inl hc⟩

theorem furnished_formatCall (n : String) (h : ∀ e ∈ es, e.isSimple) :
    Furnished (formatCall n es) := by
  rw [formatCall]
  split
  case isTrue => exact absurd rfl
  case isFalse =>
    refine furnished_formatter _ ?_
    split
    case isTrue  => exact h
    case isFalse => exact forall_mem_cons.mpr ⟨rfl, h⟩

theorem furnished_composite (n : String) (keys : Option (List String))
    {options : Option (ObjectLiteral Expr)} (h : ∀ e ∈ es, e.isSimple)
    (ho : ∀ e ∈ attributesOf options, Writable e) : Furnished (composite n es keys options) := by
  rw [composite]
  split
  case isTrue => exact absurd rfl
  case isFalse =>
    intro _
    have hk := forall_mem_withKeys (p := (·.isSimple)) keys (fun _ => rfl) h
    refine ⟨forall_mem_withLookup n (fun _ => rfl) hk, fun c hc => ?_⟩
    have hc : c ∈ withLookup n (withKeys keys es) ∨ c ∈ attributesOf options := by
      simpa [required, parts, attributesOf] using hc
    exact hc.imp_right (ho c)

theorem parts_ofValue_subset (v : Value Expr) : (ofValue v).parts ⊆ v.parts := by
  cases v
  case object o =>
    obtain ⟨entries⟩ := o
    exact (filter_sublist.map Prod.snd).subset
  all_goals exact fun _ => id

theorem furnished_ofValue {v : Value Expr} (h : ∀ e ∈ v.parts, Writable e) :
    Furnished (ofValue v) := by
  have hw : ∀ c ∈ (ofValue v).parts, Writable c := fun c hc => h c (parts_ofValue_subset v hc)
  cases v <;> exact fun _ => ⟨trivial, fun c hc => .inr (hw c hc)⟩

theorem ordinary_furnished : Ordinary Furnished where
  plain e he := by
    cases e <;> simp_all [Furnished, WritableNode, required, parts, Kind.isPlain, kind]
  scalar v hv := by simp [Furnished, WritableNode, required, parts, hv]
  outline s bs := furnished_formatter _ (by simp [isSimple, isConstant, isPath, ofString, kind])

end Furnished

namespace Bindable

variable {e : Expr}

theorem built (h : Bindable e) : Built e := by
  induction h
  case ofValue ih => exact .ofValue ih
  case resolvePath source model navigation visitor =>
    exact .resolvePath source model navigation visitor
  case annotate change _ ih => exact .annotate change ih
  case reference token => exact .reference token
  case ofBindingText text targetType => exact .ofBindingText text targetType
  case negate ih => exact .negate ih
  case truthOf ih => exact .truthOf ih
  case allOf ih => exact .allOf ih
  case anyOf ih => exact .anyOf ih
  case relate op _ _ ihl ihr => exact .relate op ihl ihr
  case equal ihl ihr => exact .equal ihl ihr
  case notEqual ihl ihr => exact .notEqual ihl ihr
  case isEmpty ih => exact .isEmpty ih
  case choose ihc iht ihf => exact .choose ihc iht ihf
  case join ih => exact .join ih
  case lengthOf ih => exact .lengthOf ih
  case format name keys _ ih => exact .format name keys false ih
  case composite name keys _ _ _ _ ih iho => exact .composite name keys ih iho
  case invoke function _ _ ih ihr => exact .invoke function ih ihr
  case outline all _ ih => exact .outline all ih

theorem furnished (h : Bindable e) : AllNodes Furnished e := by
  have hq := ordinary_furnished
  have writable {es : List Expr} (hb : ∀ e ∈ es, Bindable e)
      (hf : ∀ e ∈ es, AllNodes Furnished e) (hu : Expr.unresolvable ∉ es) :
      ∀ e ∈ es, Writable e := by
    intro e he
    have hn : e ≠ Expr.unresolvable := (hu <| · ▸ he)
    exact ((hb e he).built.simplified.resolve_left hn).writable (hf e he)
  induction h
  case ofValue v hb hu ih =>
    have : (Expr.ofValue v).children = [] := by cases v <;> rfl
    exact allNodes_iff.mpr ⟨furnished_ofValue (writable hb ih hu), by simp [this]⟩
  case composite n keys hb hp ho hu ih iho =>
    exact hq.composite (furnished_composite n keys hp (writable ho iho hu)) ih
  case format n keys hb ih =>
    refine hq.format (fun h => ?_) (fun e he => (hb e he).built.simplified) ih
    exact furnished_formatCall n fun e he => by simpa [isSimple] using h Bool.false_ne_true e he
  case resolvePath source model navigation visitor =>
    exact hq.resolvePath source model navigation visitor
  case annotate change _ ih => exact hq.annotate change ih
  case reference => exact hq.of_plain rfl (forall_mem_nil _)
  case ofBindingText text targetType => exact hq.ofBindingText text targetType
  case negate ih => exact hq.inherited.negated ih
  case truthOf ih => exact hq.truthOf ih
  case allOf ih => exact hq.inherited.allOf ih
  case anyOf ih => exact hq.inherited.anyOf ih
  case relate op _ _ ihl ihr => exact hq.relate op ihl ihr
  case equal ihl ihr => exact hq.equal ihl ihr
  case notEqual ihl ihr => exact hq.inherited.negated (hq.equal ihl ihr)
  case isEmpty ih => exact hq.isEmpty ih
  case choose hc ht hf ihc iht ihf =>
    exact hq.choose hc.built.simplified ht.built.simplified hf.built.simplified ihc iht ihf
  case join h ih => exact hq.join (fun e he => (h e he).built.simplified) ih
  case lengthOf e _ _ => exact hq.lengthOf e
  case invoke function _ _ ih ihr => exact hq.invoke function ih ihr
  case outline all h _ => exact hq.outlined all h.built.simplified

-- Whatever is built this way has no value, or it has a text in every place, except that a lone
-- `null` or `undefined` may be left out. What has been outlined is nothing but constants and paths.
theorem unresolvable_or_isSome_text_iff (h : Bindable e) :
    (e = Expr.unresolvable ∨ ∀ o, (bindingText? e o).isSome ↔
      ¬(o.nullable ∧ ¬o.embedded ∧ (e = constant .undefined ∨ e = constant .null))) ∧
    ∀ whole all, Outlined e whole all → ∃ parts,
      e = formatter standardFormatter parts ∧ ∀ d ∈ parts, d.isConstant ∨ d.isPath := by
  constructor
  case left =>
    refine h.built.simplified.imp_right fun hn o => ?_
    have hw : Writable e := hn.writable h.furnished
    rw [isSome_bindingText?_iff, and_iff_left hw, omitted_iff]
  case right =>
    intro whole all ho
    have hs := ho.simplified
    rw [ho.eq_outline]
    exact ⟨_, outline_eq all hs, by simp [ofString, isConstant, isPath, kind]⟩

theorem unresolvable_or_isSome_text_outlined_choice :
    let name  := Expr.join [pathTo "Name", ofString "!"]
    let e     := Expr.choose (pathTo "Active") name (ofString "-")
    let whole := formatCall ifElseFormatter [pathTo "Active", name, ofString "-"]
    Bindable e ∧ Outlined e whole true ∧ (bindingText? e { nullable := true }).isSome ∧
      ∃ parts, e = formatter standardFormatter parts ∧ ∀ d ∈ parts, d.isConstant ∨ d.isPath := by
  intro name e whole
  have hp (target : String) : Bindable (pathTo target) :=
    .resolvePath (some "") none [] (some fun _ => target)
  have hs (s : String) : Bindable (ofString s) := .ofValue (v := .string s) nofun nofun
  have hn : Bindable name := .join (by simp [hp, hs])
  have hb : Bindable e := .choose (hp "Active") hn (hs "-")
  have ho : Outlined e whole true :=
    .choose (hp "Active").built hn.built (hs "-").built (by decide) rfl rfl rfl
  have ⟨ht, hf⟩ := hb.unresolvable_or_isSome_text_iff
  obtain ⟨parts, he, hd⟩ := hf _ true ho
  have ht := ht.resolve_left (by rw [he]; nofun)
  refine ⟨hb, ho, (ht _).mpr ?_, parts, he, hd⟩
  rw [he]
  nofun

end Bindable
end BindingAlgebra.Expr
