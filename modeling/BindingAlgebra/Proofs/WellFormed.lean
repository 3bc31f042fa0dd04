import BindingAlgebra.Binding.Text
import BindingAlgebra.Proofs.Brackets
import BindingAlgebra.Proofs.Occurrence

namespace BindingAlgebra

open List Quoted BindingText Reading

-- The keys of attributes that may be absent.
def keysOf (o : Option (ObjectLiteral Expr)) : List String :=
  o.elim [] ObjectLiteral.keys

def Value.keys : Value Expr → List String
  | object o => o.keys
  | _        => []

def PathBinding.keys (b : PathBinding Expr) : List String :=
  keysOf b.constraints ++ keysOf b.formatOptions ++ keysOf b.parameters

-- What a part of a formatter consists of, without the braces of an ordinary one.
def BindingText.Part.body : Part → String
  | plain s | composite s => s

section Texts

variable {o : RenderOptions} {s key : String} {ss : List String}

theorem not_special_of_isNumeralChar {c : Char} (h : NumberLayout.isNumeralChar c) :
    c ∉ special := by
  have hn : special.all (!NumberLayout.isNumeralChar ·) := by decide
  intro hc
  exact absurd h (by simpa using all_eq_true.mp hn c hc)

theorem balanced_displayBool (b : Bool) : Balanced (displayBool b) := by
  cases b <;> exact fun _ => rfl

theorem balanced_displayInt (n : Int) : Balanced (displayInt n) := by
  refine Clean.balanced fun c hc => not_special_of_isNumeralChar ?_
  rcases isDigit_or_eq_of_mem_displayInt hc with hd | rfl
  case inl => exact NumberLayout.isNumeralChar_of_isDigit hd
  case inr => rfl

theorem balanced_display (x : Binary64) : Balanced x.display := by
  unfold Binary64.display
  split
  case isTrue => exact fun _ => rfl
  split
  case isTrue => split <;> exact fun _ => rfl
  split
  case isTrue => exact fun _ => rfl
  case isFalse =>
    have hm : ∀ c ∈ NumberLayout.display.wholeMark, NumberLayout.isNumeralChar c :=
      forall_mem_nil _
    exact Clean.balanced fun c hc => not_special_of_isNumeralChar
      (NumberLayout.isNumeralChar_of_mem_write hm x c hc)

theorem balanced_braced (h : Balanced s) : Balanced (braced s) :=
  h.braced

theorem balanced_wrap (h : Balanced s) : Balanced (wrap o s) := by
  unfold wrap
  split
  case isTrue => exact h
  case isFalse =>
    have hw : "\x7b= " ++ s ++ "\x7d" = braced ("= " ++ s) := by
      rw [braced, ← String.append_assoc]
      rfl
    have he : Balanced "= " := fun _ => rfl
    exact hw ▸ balanced_braced (he.append h)

theorem balanced_embed (h : Balanced s) : Balanced (embed o s) := by
  unfold embed
  split
  case isFalse => exact h
  case isTrue =>
    refine Balanced.append ?_ h
    unfold RenderOptions.separator
    split <;> exact fun _ => rfl

theorem balanced_listed (h : ∀ s ∈ ss, Balanced s) : Balanced (listed ss) :=
  .intercalate (fun _ => rfl) h

theorem balanced_entry (hk : Balanced key) (h : Balanced s) : Balanced (entry key s) := by
  have hc : Balanced ": " := fun _ => rfl
  exact (hk.append hc).append h

theorem balanced_entries {text : Option String} (hk : Balanced key) (h : ∀ s ∈ text, Balanced s) :
    ∀ s ∈ entries key text, Balanced s := by
  cases text
  case none => exact forall_mem_nil _
  case some s => exact forall_mem_singleton.mpr (balanced_entry hk (h s rfl))

theorem balanced_quotedEntries (hk : Balanced key) (text : Option String) :
    ∀ s ∈ quotedEntries key text, Balanced s := by
  refine balanced_entries hk fun s hs => ?_
  cases text
  case none => contradiction
  case some t => exact Option.some.inj hs ▸ .quote t

theorem balanced_asOperand (e : Expr) (h : Balanced s) : Balanced (asOperand e s) := by
  unfold asOperand
  split
  case isTrue  => exact h.parenthesized
  case isFalse => exact h

-- A list in brackets within other text.
theorem balanced_between {before after : String} (hb : Balanced before) (ha : Balanced after)
    (h : Balanced s) : Balanced (before ++ "[" ++ s ++ ("]" ++ after)) := by
  simpa only [String.append_assoc] using (hb.append h.bracketed).append ha

theorem balanced_formatterText {ps : List Part} (n : String) (h : ∀ p ∈ ps, Balanced p.body) :
    Balanced (formatterText n ps) := by
  have hf : Balanced (entry "formatter" (quote n)) := balanced_entry (fun _ => rfl) (.quote n)
  have hc : Balanced ", " := fun _ => rfl
  have hp : Balanced "parts: " := fun _ => rfl
  have ht : ∀ p ∈ ps, Balanced p.text := by
    intro p hp
    cases p
    case plain s => exact balanced_braced (h _ hp)
    case composite s => exact h _ hp
  unfold formatterText
  split
  case h_1 s => exact balanced_braced (((h _ mem_cons_self).append hc).append hf)
  case h_2 =>
    have hl : Balanced (listed (ps.map Part.text)) := balanced_listed (forall_mem_map.mpr ht)
    exact balanced_braced ((balanced_between hp hc hl).append hf)

theorem balanced_compositeText (n : String) {parts options : List String}
    (hp : ∀ s ∈ parts, Balanced s) (ho : ∀ s ∈ options, Balanced s) :
    Balanced (compositeText n parts options) := by
  have ht : Balanced (listed (entry "type" (quote n) :: options)) :=
    balanced_listed (forall_mem_cons.mpr ⟨balanced_entry (fun _ => rfl) (.quote n), ho⟩)
  have hc : Balanced ", " := fun _ => rfl
  have hm : Balanced "mode:'TwoWay', parts:" := fun _ => rfl
  simp only [compositeText]
  split
  case h_1 s => exact balanced_braced (((hp _ mem_cons_self).append hc).append ht)
  case h_2 =>
    have hl : Balanced (",".intercalate (parts.map braced)) :=
      .intercalate (fun _ => rfl) (forall_mem_map.mpr fun s hs => balanced_braced (hp s hs))
    exact balanced_braced ((balanced_between hm hc hl).append ht)

end Texts

namespace Expr

-- What of a part of a formatter or a composite type is written in its own right. A path in it
-- stands in quotes.
def partContents : Expr → List Expr
  | path b => b.parts
  | e      => [e]

def partVerbatim : Expr → List String
  | path b => b.keys
  | _      => []

-- What of a node is written in its own right.
def contents : Expr → List Expr
  | formatter _ es         => es.flatMap partContents
  | compositeType _ es o p => es.flatMap partContents ++ attributesOf o ++ attributesOf p
  | e                      => e.parts

-- What of a node is written as it is.
def verbatim : Expr → List String
  | constant v             => v.keys
  | path b                 => if b.hasMetadata then b.keys else b.path :: b.model.toList
  | reference token        => token.toList
  | formatter _ es         => es.flatMap partVerbatim
  | compositeType _ es o p => es.flatMap partVerbatim ++ keysOf o ++ keysOf p
  | call _ n _             => [n]
  | _                      => []

def isEmbedded (e : Expr) : Bool :=
  e.kind = .embeddedBinding || e.kind = .embeddedExpression

-- Whether the texts of an expression are balanced. A string on its own is written as it is.
def Steady (e : Expr) : Prop :=
  ∀ {o s}, (o.embedded ∨ ∀ t, e ≠ constant (.string t)) → bindingText? e o = some s → Balanced s

section Steady

variable {o : RenderOptions} {e : Expr} {es : List Expr} {s : String} {ss : List String}

theorem forall_of_mapM {f : α → Option β} {p : β → Prop} {xs : List α} {ys : List β}
    (h : ∀ x ∈ xs, ∀ y, f x = some y → p y) (hs : xs.mapM f = some ys) : ∀ y ∈ ys, p y := by
  induction xs generalizing ys
  case nil =>
    cases hs
    exact forall_mem_nil _
  case cons x xs ih =>
    rw [forall_mem_cons] at h
    simp only [mapM_cons, Option.pure_def, Option.bind_eq_bind, Option.bind_eq_some_iff] at hs
    obtain ⟨y, hy, zs, hzs, hs⟩ := hs
    cases hs
    exact forall_mem_cons.mpr ⟨h.left y hy, ih h.right hzs⟩

theorem balanced_texts? (ho : o.embedded) (h : ∀ e ∈ es, e.Steady) (hs : texts? es o = some ss) :
    ∀ s ∈ ss, Balanced s := by
  rw [texts?_eq_mapM] at hs
  exact forall_of_mapM (fun e he _ => h e he (.inl ho)) hs

theorem balanced_operandTexts? (ho : o.embedded) (h : ∀ e ∈ es, e.Steady)
    (hs : operandTexts? es o = some ss) : ∀ s ∈ ss, Balanced s := by
  rw [operandTexts?_eq_mapM] at hs
  refine forall_of_mapM (fun e he s hs => ?_) hs
  obtain ⟨t, ht, rfl⟩ := Option.map_eq_some_iff.mp hs
  exact balanced_asOperand e (h e he (.inl ho) ht)

theorem balanced_entryTexts? {object : ObjectLiteral Expr} (ho : o.embedded)
    (hk : ∀ k ∈ object.keys, Clean k) (h : ∀ e ∈ object.values, e.Steady)
    (hs : entryTexts? object.entries o = some ss) : ∀ s ∈ ss, Balanced s := by
  rw [entryTexts?_eq_mapM] at hs
  refine forall_of_mapM (fun x hx s hs => ?_) hs
  obtain ⟨t, ht, rfl⟩ := Option.map_eq_some_iff.mp hs
  exact balanced_entry (hk x.1 (mem_map_of_mem hx)).balanced
    (h x.2 (mem_map_of_mem hx) (.inl ho) ht)

theorem balanced_objectText? {object : Option (ObjectLiteral Expr)}
    (hk : ∀ k ∈ keysOf object, Clean k) (h : ∀ e ∈ attributesOf object, e.Steady) :
    ∀ s ∈ objectText? object o, Balanced s := by
  intro s hs
  cases object
  case none => contradiction
  case some object =>
    simp only [objectText?, Option.pure_def, Option.bind_eq_bind, Option.mem_def,
      Option.bind_eq_some_iff] at hs
    obtain ⟨ss, hs, ht⟩ := hs
    cases ht
    exact balanced_braced (balanced_listed (balanced_entryTexts? rfl hk h hs))

theorem balanced_objectEntries? {key : String} {object : Option (ObjectLiteral Expr)}
    (hn : Balanced key) (hk : ∀ k ∈ keysOf object, Clean k)
    (h : ∀ e ∈ attributesOf object, e.Steady)
    (hs : objectEntries? key object (objectText? object o) = some ss) : ∀ s ∈ ss, Balanced s := by
  cases object
  case none =>
    cases hs
    exact forall_mem_nil _
  case some object =>
    simp only [objectEntries?] at hs
    split at hs
    case isTrue =>
      cases hs
      exact forall_mem_nil _
    case isFalse =>
      obtain ⟨t, ht, rfl⟩ := Option.map_eq_some_iff.mp hs
      exact forall_mem_singleton.mpr (balanced_entry hn (balanced_objectText? hk h t ht))

theorem balanced_valueText? {v : Value Expr} (hk : ∀ k ∈ v.keys, Clean k)
    (h : ∀ e ∈ v.parts, e.Steady) (hv : o.embedded ∨ ∀ t, v ≠ .string t)
    (hs : valueText? v o = some s) : Balanced s := by
  cases v <;> simp only [valueText?, Option.pure_def, Option.bind_eq_bind,
    Option.bind_eq_some_iff, Option.ite_none_left_eq_some, Option.some.injEq] at hs
  case undefined | null =>
    obtain ⟨_, rfl⟩ := hs
    exact fun _ => rfl
  case boolean b => exact hs ▸ balanced_displayBool b
  case integer n => exact hs ▸ balanced_displayInt n
  case decimal x => exact hs ▸ balanced_display x
  case string t =>
    rcases hv with ho | hv
    case inl =>
      rw [if_pos ho] at hs
      exact hs ▸ .quote t
    case inr => exact absurd rfl (hv t)
  case array es =>
    obtain ⟨ss, hs, rfl⟩ := hs
    exact (Balanced.intercalate (fun _ => rfl) (balanced_texts? rfl h hs)).bracketed
  case object object =>
    obtain ⟨ss, hs, rfl⟩ := hs
    exact balanced_braced (balanced_listed (balanced_entryTexts? rfl hk h hs))

theorem balanced_attributes {b : PathBinding Expr} (target : Option String)
    (hk : ∀ k ∈ b.keys, Clean k) (h : ∀ e ∈ b.parts, e.Steady) :
    ∀ s ∈ [entry "path" (quote b.qualified)] ++ quotedEntries "type" b.typeName ++
        quotedEntries "targetType" target ++ modeEntries b.mode ++
        entries "constraints" (objectText? b.constraints o) ++
        entries "formatOptions" (objectText? b.formatOptions o) ++
        entries "parameters" (objectText? b.parameters o),
      Balanced s := by
  simp only [PathBinding.keys, PathBinding.parts, forall_mem_append] at hk h
  simp only [forall_mem_append, forall_mem_singleton]
  refine ⟨⟨⟨⟨⟨⟨?path, ?type⟩, ?target⟩, ?mode⟩, ?constraints⟩, ?options⟩, ?parameters⟩
  case path => exact balanced_entry (fun _ => rfl) (.quote _)
  case type | target | mode => exact balanced_quotedEntries (fun _ => rfl) _
  case constraints =>
    exact balanced_entries (fun _ => rfl) (balanced_objectText? hk.left.left h.left.left)
  case options =>
    exact balanced_entries (fun _ => rfl) (balanced_objectText? hk.left.right h.left.right)
  case parameters => exact balanced_entries (fun _ => rfl) (balanced_objectText? hk.right h.right)

theorem balanced_pathPart {b : PathBinding Expr} (any : Bool) (hk : ∀ k ∈ b.keys, Clean k)
    (h : ∀ e ∈ b.parts, e.Steady) : Balanced (pathPart any b o) := by
  rw [pathPart]
  exact balanced_listed (balanced_attributes _ hk h)

theorem balanced_qualified {b : PathBinding Expr} (h : ∀ k ∈ b.path :: b.model.toList, Clean k) :
    Balanced b.qualified := by
  have ⟨hp, hm⟩ := forall_mem_cons.mp h
  have hg : Balanced ">" := fun _ => rfl
  unfold PathBinding.qualified
  split
  case h_1 => exact hp.balanced
  case h_2 m hb =>
    split
    case isTrue => exact hp.balanced
    case isFalse => exact ((hm m (by simp [hb])).balanced.append hg).append hp.balanced

theorem balanced_pathText {b : PathBinding Expr} (hk : ∀ k ∈ (path b).verbatim, Clean k)
    (h : ∀ e ∈ b.parts, e.Steady) : Balanced (pathText b o) := by
  rw [pathText]
  simp only [verbatim] at hk
  split
  case isTrue hm =>
    rw [if_pos hm] at hk
    have ha := balanced_attributes (o := o) b.targetType hk h
    refine balanced_braced (balanced_listed ?_)
    simp only [forall_mem_append] at ha ⊢
    obtain ⟨⟨⟨hn, hc⟩, hf⟩, ha⟩ := ha
    exact ⟨⟨⟨hn, ha⟩, hf⟩, hc⟩
  case isFalse hm =>
    rw [if_neg hm] at hk
    exact balanced_braced (balanced_qualified hk)

theorem balanced_partText? (hk : ∀ k ∈ e.partVerbatim, Clean k)
    (h : ∀ c ∈ e.partContents, c.Steady) (hs : partText? e o = some s) : Balanced s := by
  cases e <;> simp only [partText?, reduceCtorEq, Option.some.injEq] at hs
  case constant v =>
    obtain ⟨t, ht, rfl⟩ := Option.map_eq_some_iff.mp hs
    exact balanced_entry (fun _ => rfl) (h _ mem_cons_self (.inl rfl) ht)
  case path b => exact hs ▸ balanced_pathPart false hk h

-- As a part of a formatter, a composite type is what it is outside of an expression.
theorem formatterPart?_compositeType (n : String) (es : List Expr)
    (fo pa : Option (ObjectLiteral Expr)) (o : RenderOptions) :
    formatterPart? (compositeType n es fo pa) o =
      (bindingText? (compositeType n es fo pa) o.topLevel).map Part.composite := by
  have ht : o.topLevel.topLevel = o.topLevel := rfl
  have he : ∀ s, embed o.topLevel s = s := fun _ => rfl
  simp only [formatterPart?, bindingText?, ht, he, Option.pure_def, Option.bind_eq_bind,
    Option.map_bind, Option.map_some, Function.comp_def]

theorem balanced_formatterPart? {p : Part} (hk : ∀ k ∈ e.partVerbatim, Clean k)
    (h : ∀ c ∈ e.partContents, c.Steady) (hs : formatterPart? e o = some p) :
    Balanced p.body := by
  cases e
  case constant v =>
    obtain ⟨t, ht, rfl⟩ := Option.map_eq_some_iff.mp hs
    exact balanced_entry (fun _ => rfl) (h _ mem_cons_self (.inl rfl) ht)
  case path b =>
    cases hs
    exact balanced_pathPart true hk h
  case compositeType n es fo pa =>
    rw [formatterPart?_compositeType] at hs
    obtain ⟨t, ht, rfl⟩ := Option.map_eq_some_iff.mp hs
    exact h _ mem_cons_self (.inr nofun) ht
  all_goals contradiction

theorem balanced_partTexts? (hk : ∀ k ∈ es.flatMap partVerbatim, Clean k)
    (h : ∀ c ∈ es.flatMap partContents, c.Steady) (hs : partTexts? es o = some ss) :
    ∀ s ∈ ss, Balanced s := by
  rw [partTexts?_eq_mapM] at hs
  rw [forall_mem_flatMap] at hk h
  exact forall_of_mapM (fun e he _ => balanced_partText? (hk e he) (h e he)) hs

theorem balanced_formatterParts? {ps : List Part} (hk : ∀ k ∈ es.flatMap partVerbatim, Clean k)
    (h : ∀ c ∈ es.flatMap partContents, c.Steady) (hs : formatterParts? es o = some ps) :
    ∀ p ∈ ps, Balanced p.body := by
  rw [formatterParts?_eq_mapM] at hs
  rw [forall_mem_flatMap] at hk h
  exact forall_of_mapM (fun e he _ => balanced_formatterPart? (hk e he) (h e he)) hs

theorem balanced_logical (op : LogicalOperator) : Balanced (" " ++ op.token ++ " ") := by
  cases op <;> exact fun _ => rfl

theorem balanced_invocation {n : String} (hn : Balanced n) (hs : Balanced s) :
    Balanced (n ++ "(" ++ s ++ ")") := by
  simpa only [String.append_assoc] using hn.append hs.parenthesized

-- The text of a node is balanced if those in it are.
theorem steady_of_contents (he : ¬e.isEmbedded) (hk : ∀ k ∈ e.verbatim, Clean k)
    (h : ∀ c ∈ e.contents, c.Steady) : e.Steady := by
  intro o s ho hs
  cases e
  case constant v =>
    exact balanced_valueText? hk h (ho.imp_right fun hv t he => hv t (by rw [he])) hs
  case embeddedBinding | embeddedExpression => exact absurd rfl he
  case call receiver n es =>
    have hn : Balanced n := (hk n mem_cons_self).balanced
    have hd : Balanced "." := fun _ => rfl
    cases receiver <;> simp only [bindingText?, Option.pure_def, Option.bind_eq_bind,
      Option.bind_eq_some_iff, Option.some.injEq] at hs
    case none =>
      obtain ⟨ss, hss, rfl⟩ := hs
      exact balanced_invocation hn (balanced_listed (balanced_texts? rfl h hss))
    case some e =>
      obtain ⟨ss, hss, t, ht, rfl⟩ := hs
      have ⟨he, hes⟩ := forall_mem_cons.mp h
      have hn := ((he (.inl rfl) ht).append hd).append hn
      exact balanced_invocation hn (balanced_listed (balanced_texts? rfl hes hss))
  all_goals simp only [bindingText?, Option.pure_def, Option.bind_eq_bind, Option.bind_eq_some_iff,
    Option.some.injEq, reduceCtorEq] at hs
  case path b => exact hs ▸ balanced_embed (balanced_pathText hk h)
  case reference token =>
    cases token
    case none => exact hs ▸ fun _ => rfl
    case some s => exact hs ▸ (hk s mem_cons_self).balanced
  case not e =>
    obtain ⟨t, ht, rfl⟩ := hs
    have hb : Balanced "!" := fun _ => rfl
    exact balanced_wrap (hb.append (balanced_asOperand e (h e mem_cons_self (.inl rfl) ht)))
  case truthy e =>
    obtain ⟨t, ht, rfl⟩ := hs
    have hb : Balanced "!!" := fun _ => rfl
    exact balanced_wrap (hb.append (balanced_asOperand e (h e mem_cons_self (.inl rfl) ht)))
  case set op es =>
    obtain ⟨ss, hss, rfl⟩ := hs
    exact balanced_wrap (.intercalate (balanced_logical op) (balanced_operandTexts? rfl h hss))
  case concat es =>
    obtain ⟨ss, hss, rfl⟩ := hs
    exact balanced_wrap (.intercalate (fun _ => rfl) (balanced_operandTexts? rfl h hss))
  case comparison op l r =>
    obtain ⟨tl, hl, tr, hr, rfl⟩ := hs
    have hl := balanced_asOperand l (h l mem_cons_self (.inl rfl) hl)
    have hr := balanced_asOperand r (h r (.tail _ mem_cons_self) (.inl rfl) hr)
    have ho : Balanced op.token := by cases op <;> exact fun _ => rfl
    have hb : Balanced " " := fun _ => rfl
    exact balanced_wrap ((((hl.append hb).append ho).append hb).append hr)
  case ifElse c t f =>
    obtain ⟨tc, hc, tt, ht, tf, hf, rfl⟩ := hs
    have hc := h c mem_cons_self (.inl rfl) hc
    have ht := h t (.tail _ mem_cons_self) (.inl rfl) ht
    have hf := h f (.tail _ (.tail _ mem_cons_self)) (.inl rfl) hf
    have hq : Balanced " ? " := fun _ => rfl
    have hd : Balanced " : " := fun _ => rfl
    have hb := (((hc.append hq).append ht).append hd).append hf
    split
    case isTrue  => exact hb.parenthesized
    case isFalse => exact balanced_wrap hb
  case length e =>
    obtain ⟨t, ht, rfl⟩ := hs
    have hl : Balanced ".length" := fun _ => rfl
    exact balanced_wrap ((h e mem_cons_self (.inl rfl) ht).append hl)
  case formatter n es =>
    obtain ⟨ps, hp, rfl⟩ := hs
    exact balanced_embed (balanced_formatterText n (balanced_formatterParts? hk h hp))
  case compositeType n es fo pa =>
    obtain ⟨parts, hp, fo', hf, pa', ha, rfl⟩ := hs
    simp only [verbatim, contents, forall_mem_append] at hk h
    have hp := balanced_partTexts? hk.left.left h.left.left hp
    have hf := balanced_objectEntries? (fun _ => rfl) hk.left.right h.left.right hf
    have ha := balanced_objectEntries? (fun _ => rfl) hk.right h.right ha
    exact balanced_embed (balanced_compositeText n hp (forall_mem_append.mpr ⟨hf, ha⟩))

end Steady

variable {c e : Expr}

-- In its own right is written what is right below a node, or right below a quoted path there.
theorem mem_parts_of_mem_contents (h : c ∈ e.contents) :
    c ∈ e.parts ∨ ∃ p ∈ e.parts, c ∈ p.parts := by
  have part : ∀ {es : List Expr}, es ⊆ e.parts → c ∈ es.flatMap partContents →
      c ∈ e.parts ∨ ∃ p ∈ e.parts, c ∈ p.parts := by
    intro es hs hc
    obtain ⟨p, hp, hc⟩ := mem_flatMap.mp hc
    cases p
    case path b => exact .inr ⟨path b, hs hp, hc⟩
    all_goals
      cases mem_singleton.mp hc
      exact .inl (hs hp)
  cases e
  case formatter n es => exact part (Subset.refl _) h
  case compositeType n es o p =>
    rw [contents, append_assoc, mem_append] at h
    rcases h with h | h
    case inl => exact part (fun e he => by simp [parts, he]) h
    case inr => exact .inl (by simpa only [parts, append_assoc] using mem_append_right es h)
  all_goals exact .inl h

theorem sizeOf_lt_of_mem_contents (h : c ∈ e.contents) : sizeOf c < sizeOf e := by
  rcases mem_parts_of_mem_contents h with hc | ⟨p, hp, hc⟩
  case inl => exact sizeOf_lt_of_mem_parts hc
  case inr => exact Nat.lt_trans (sizeOf_lt_of_mem_parts hc) (sizeOf_lt_of_mem_parts hp)

theorem occurs_of_mem_contents (h : c ∈ e.contents) : Occurs c e := by
  rcases mem_parts_of_mem_contents h with hc | ⟨p, hp, hc⟩
  case inl => exact .step hc .here
  case inr => exact .step hp (.step hc .here)

@[elab_as_elim]
theorem contents_induction {motive : Expr → Prop}
    (step : ∀ e, (∀ c ∈ e.contents, motive c) → motive e) (e : Expr) : motive e :=
  step e fun c _ => contents_induction step c
termination_by sizeOf e
decreasing_by exact sizeOf_lt_of_mem_contents ‹_›

theorem steady (hb : ∀ n, Occurs n e → ¬n.isEmbedded)
    (hv : ∀ n, Reaches contents n e → ∀ s ∈ n.verbatim, Clean s) : e.Steady := by
  induction e using contents_induction
  case step e ih =>
    have ⟨he, hc⟩ := Reaches.forall_iff.mp hv
    apply steady_of_contents (hb e .here) he
    intro c hm
    exact ih c hm (fun n hn => hb n (hn.trans (occurs_of_mem_contents hm))) (hc c hm)

-- Texts are well-formed if nothing in them is already written and whatever is written as it is has
-- none of the characters that matter. What is quoted may be any text.
theorem wellFormed_bindingText? {o : RenderOptions} {text : String}
    (hb : ∀ n, Occurs n e → ¬n.isEmbedded)
    (hv : ∀ n, Reaches contents n e → ∀ s ∈ n.verbatim, Clean s)
    (hs : o.embedded ∨ ∀ s, e ≠ constant (.string s)) (h : bindingText? e o = some text) :
    WellFormed text :=
  (steady hb hv hs h).wellFormed

theorem wellFormed_bindingText?_formatter :
    let style := ObjectLiteral.mk [("style", constant (.string "it's \x7b"))]
    let total := path { path := "a')/b", formatOptions := some style }
    let price := formatter "f'[" [total, constant (.string "(\x5c")]
    (∀ n, Occurs n price → ¬n.isEmbedded) ∧
      (∀ n, Reaches contents n price → ∀ s ∈ n.verbatim, Clean s) ∧
      ∃ text, bindingText? price {} = some text ∧ WellFormed text := by
  intro style total price
  have literal : ∀ s, ∀ n, Occurs n (constant (.string s)) → ¬n.isEmbedded := fun _ =>
    Reaches.forall_iff.mpr ⟨Bool.false_ne_true, forall_mem_nil _⟩
  have literal_clean : ∀ s, ∀ n, Reaches contents n (constant (.string s)) →
      ∀ s ∈ n.verbatim, Clean s := fun _ =>
    Reaches.forall_iff.mpr ⟨forall_mem_nil _, forall_mem_nil _⟩
  have hb : ∀ n, Occurs n price → ¬n.isEmbedded := by
    have ht : ∀ n, Occurs n total → ¬n.isEmbedded :=
      Reaches.forall_iff.mpr ⟨Bool.false_ne_true, forall_mem_singleton.mpr (literal _)⟩
    exact Reaches.forall_iff.mpr
      ⟨Bool.false_ne_true, forall_mem_cons.mpr ⟨ht, forall_mem_singleton.mpr (literal _)⟩⟩
  have hv : ∀ n, Reaches contents n price → ∀ s ∈ n.verbatim, Clean s := by
    have hk : ∀ k ∈ ["style"], Clean k := forall_mem_singleton.mpr (by decide)
    exact Reaches.forall_iff.mpr
      ⟨hk, forall_mem_cons.mpr ⟨literal_clean _, forall_mem_singleton.mpr (literal_clean _)⟩⟩
  have ht : (bindingText? price {}).isSome := by decide +kernel
  obtain ⟨text, ht⟩ := Option.isSome_iff_exists.mp ht
  exact ⟨hb, hv, text, ht, wellFormed_bindingText? hb hv (.inr (by simp [price])) ht⟩

end Expr
end BindingAlgebra
