import BindingAlgebra.Proofs.WellFormed
import BindingAlgebra.Proofs.Writable
import Mathlib.Data.List.Nodup

namespace BindingAlgebra

open List BindingText Quoted

-- A property of a binding object: its name, and what is written behind the colon.
abbrev Property := String × String

namespace Property

def text (p : Property) : String :=
  p.1 ++ ":" ++ p.2

-- A property that may be missing.
def named (key : String) (text : Option String) : List Property :=
  text.toList.map fun s => (key, " " ++ s)

def namedQuoted (key : String) (text : Option String) : List Property :=
  named key (text.map quote)

variable {key : String} {text : Option String}

@[simp]
theorem text_named : (named key text).map Property.text = entries key text := by
  have : ∀ s, Property.text (key, " " ++ s) = entry key s := fun s => by
    simp [← String.toList_inj, Property.text, entry]
  cases text <;> simp [named, entries, this]

@[simp]
theorem text_namedQuoted : (namedQuoted key text).map Property.text = quotedEntries key text :=
  text_named

@[simp]
theorem keys_named : (named key text).map Prod.fst = if text.isSome then [key] else [] := by
  cases text <;> rfl

@[simp]
theorem keys_namedQuoted :
    (namedQuoted key text).map Prod.fst = if text.isSome then [key] else [] := by
  simp [namedQuoted]

end Property

open Property

-- An object with its properties.
def objectOf (properties : List Property) : String :=
  braced (listed (properties.map Property.text))

-- What is written for a binding: a name alone, or an object, which may list the objects of parts.
inductive Layout where
  | name (qualified : String)
  | object (properties : List Property)
  | parts (before : List Property) (opening separator : String) (objects : List (List Property))
    (after : List Property)

namespace Layout

def text : Layout → String
  | name q            => braced q
  | object properties => objectOf properties
  | parts before opening separator objects after =>
    let list := separator.intercalate (objects.map objectOf)
    objectOf (before ++ ("parts", opening ++ list ++ "]") :: after)

-- The properties of each object that is written for the binding or for one of its parts.
def objects : Layout → List (List Property)
  | name _            => []
  | object properties => [properties]
  | parts before opening separator objects after =>
    let list := separator.intercalate (objects.map objectOf)
    (before ++ ("parts", opening ++ list ++ "]") :: after) :: objects

-- A single part shares its object with the whole.
def ofParts (before : List Property) (opening separator : String) (after : List Property) :
    List (List Property) → Layout
  | [properties] => object (properties ++ after)
  | objects      => parts before opening separator objects after

end Layout

namespace Expr

def pathProperties (b : PathBinding Expr) (o : RenderOptions) : List Property :=
  named "path" (quote b.qualified) ++ namedQuoted "type" b.typeName ++
    namedQuoted "targetType" b.targetType ++ namedQuoted "mode" (b.mode.map (·.name)) ++
    named "parameters" (objectText? b.parameters o) ++
    named "formatOptions" (objectText? b.formatOptions o) ++
    named "constraints" (objectText? b.constraints o)

def partProperties (anyTarget : Bool) (b : PathBinding Expr) (o : RenderOptions) : List Property :=
  named "path" (quote b.qualified) ++ namedQuoted "type" b.typeName ++
    namedQuoted "targetType" (partTarget? anyTarget b) ++
    namedQuoted "mode" (b.mode.map (·.name)) ++ named "constraints" (objectText? b.constraints o) ++
    named "formatOptions" (objectText? b.formatOptions o) ++
    named "parameters" (objectText? b.parameters o)

def partProperties? (anyTarget : Bool) : Expr → RenderOptions → Option (List Property)
  | constant v, o => (valueText? v o.operand).map fun s => named "value" (some s)
  | path b, o     => some (partProperties anyTarget b o)
  | _, _          => none

-- The options of a composite type, if there are any.
def optionProperties? (key : String) (object : Option (ObjectLiteral Expr)) (o : RenderOptions) :
    Option (List Property) :=
  match object with
  | none        => some []
  | some object =>
    if object.isEmpty then some []
    else (objectText? (some object) o).map fun s => named key (some s)

def layout? : Expr → RenderOptions → Option Layout
  | path b, o =>
    some (if b.hasMetadata then .object (pathProperties b o) else .name b.qualified)
  | formatter n es, o => do
    let objects ← es.mapM (partProperties? true · o.topLevel)
    return .ofParts [] " [" ", " (named "formatter" (quote n)) objects
  | compositeType n es fo pa, o => do
    let objects ← es.mapM (partProperties? false · o.topLevel)
    let fo ← optionProperties? "formatOptions" fo o.topLevel
    let pa ← optionProperties? "parameters" pa o.topLevel
    return .ofParts [("mode", "'TwoWay'")] "[" "," (named "type" (quote n) ++ fo ++ pa) objects
  | _, _ => none

-- Paths, and formatters and composite types of constants and paths.
def IsBinding : Expr → Prop
  | path _                                  => True
  | formatter _ es | compositeType _ es _ _ => ∀ e ∈ es, e.isSimple
  | _                                       => False

-- An object that is written, as each of its attributes is.
def IsWritten (object : Option (ObjectLiteral Expr)) : Prop :=
  ∃ l ∈ object, ∀ e ∈ l.values, Writable e

-- The properties of a single part come again among those of the composite type around it.
inductive Repeats : Expr → Prop
  | type : b.typeName.isSome → Repeats (compositeType n [path b] fo pa)
  | formatOptions : IsWritten b.formatOptions → attributesOf fo ≠ [] →
    Repeats (compositeType n [path b] fo pa)
  | parameters : IsWritten b.parameters → attributesOf pa ≠ [] →
    Repeats (compositeType n [path b] fo pa)

section Texts

variable {e : Expr} {es : List Expr} {o : RenderOptions} {anyTarget : Bool}

theorem pathText_eq_layout (b : PathBinding Expr) (o : RenderOptions) :
    pathText b o = (if b.hasMetadata then .object (pathProperties b o) else
      Layout.name b.qualified).text := by
  obtain ⟨p, m, t, g, d, co, fo, pa⟩ := b
  rw [pathText]
  split
  case isTrue  => simp [Layout.text, objectOf, pathProperties, modeEntries, entries]
  case isFalse => rfl

theorem pathPart_eq_listed (b : PathBinding Expr) (o : RenderOptions) :
    pathPart anyTarget b o = listed ((partProperties anyTarget b o).map Property.text) := by
  obtain ⟨p, m, t, g, d, co, fo, pa⟩ := b
  simp [pathPart, partProperties, modeEntries, entries]

theorem partText?_eq (h : e.isSimple) :
    partText? e o = (partProperties? false e o).map fun ps => listed (ps.map Property.text) := by
  cases e
  case constant v =>
    cases hs : valueText? v o.operand <;> simp [partText?, partProperties?, listed, entries, hs]
  case path b => simp [partText?, partProperties?, pathPart_eq_listed]
  all_goals contradiction

theorem formatterPart?_eq (h : e.isSimple) :
    formatterPart? e o =
      (partProperties? true e o).map fun ps => .plain (listed (ps.map Property.text)) := by
  cases e
  case constant v =>
    cases hs : valueText? v o.operand <;>
      simp [formatterPart?, partProperties?, listed, entries, hs]
  case path b => simp [formatterPart?, partProperties?, pathPart_eq_listed]
  all_goals contradiction

theorem mapM_eq_map_mapM {f : α → Option β} {g : α → Option γ} {k : γ → β} {xs : List α}
    (h : ∀ x ∈ xs, f x = (g x).map k) : xs.mapM f = (xs.mapM g).map (List.map k) := by
  induction xs
  case nil => rfl
  case cons x xs ih =>
    obtain ⟨hx, hs⟩ := forall_mem_cons.mp h
    rw [mapM_cons, mapM_cons, hx, ih hs]
    cases g x <;> cases xs.mapM g <;> rfl

theorem objectEntries?_eq (key : String) (object : Option (ObjectLiteral Expr)) :
    objectEntries? key object (objectText? object o) =
      (optionProperties? key object o).map (List.map Property.text) := by
  cases object
  case none => rfl
  case some object =>
    simp only [objectEntries?, optionProperties?]
    split
    case isTrue  => rfl
    case isFalse => cases hs : objectText? (some object) o <;> simp [entries]

theorem listed_append {ss ts : List String} (hs : ss ≠ []) (ht : ts ≠ []) :
    listed (ss ++ ts) = listed ss ++ ", " ++ listed ts :=
  String.intercalate_append_of_ne_nil hs ht

theorem named_ne_nil (key s : String) : named key s ≠ [] :=
  cons_ne_nil _ _

theorem partProperties?_ne_nil {ps : List Property} (h : partProperties? anyTarget e o = some ps) :
    ps ≠ [] := by
  cases e
  case constant v =>
    obtain ⟨s, _, rfl⟩ := Option.map_eq_some_iff.mp h
    exact named_ne_nil "value" s
  case path b =>
    cases h
    simp [partProperties, named]
  all_goals contradiction

theorem objectOf_append {ps qs : List Property} (hp : ps ≠ []) (hq : qs ≠ []) :
    objectOf (ps ++ qs) =
      braced (listed (ps.map Property.text) ++ ", " ++ listed (qs.map Property.text)) := by
  rw [objectOf, map_append, listed_append (by simpa using hp) (by simpa using hq)]

theorem text_parts {before after : List Property} (opening separator : String)
    (objects : List (List Property)) (h : after ≠ []) :
    (Layout.parts before opening separator objects after).text =
      let list := separator.intercalate (objects.map objectOf)
      braced (listed (before.map Property.text ++ ["parts:" ++ (opening ++ list ++ "]")]) ++ ", " ++
        listed (after.map Property.text)) := by
  rw [Layout.text, append_cons, objectOf_append (by simp) h, map_append]
  rfl

theorem text_ofParts {before after : List Property} (opening separator : String)
    {objects : List (List Property)} (h : ∀ ps ∈ objects, ps ≠ []) (ha : after ≠ []) :
    (Layout.ofParts before opening separator after objects).text =
      match objects.map fun ps => listed (ps.map Property.text) with
      | [part] => braced (part ++ ", " ++ listed (after.map Property.text))
      | parts  =>
        let list := separator.intercalate (parts.map braced)
        braced (listed (before.map Property.text ++ ["parts:" ++ (opening ++ list ++ "]")]) ++
          ", " ++ listed (after.map Property.text)) := by
  rcases objects with _ | ⟨ps, _ | ⟨qs, objects⟩⟩
  case nil => exact text_parts opening separator [] ha
  case cons.nil => exact objectOf_append (h ps mem_cons_self) ha
  case cons.cons =>
    refine (text_parts opening separator (ps :: qs :: objects) ha).trans ?_
    simp only [map_cons, map_map]
    rfl

theorem formatterText_eq (n : String) {objects : List (List Property)}
    (h : ∀ ps ∈ objects, ps ≠ []) :
    formatterText n (objects.map fun ps => .plain (listed (ps.map Property.text))) =
      (Layout.ofParts [] " [" ", " (named "formatter" (quote n)) objects).text := by
  have hm : objects.map (fun ps => Part.plain (listed (ps.map Property.text))) =
      (objects.map fun ps => listed (ps.map Property.text)).map .plain := by simp
  have ht : listed ((named "formatter" (quote n)).map Property.text) =
      entry "formatter" (quote n) := by simp [entries, listed]
  rw [text_ofParts " [" ", " h (named_ne_nil "formatter" (quote n)), hm, ht]
  generalize objects.map (fun ps => listed (ps.map Property.text)) = texts
  rcases texts with _ | ⟨_, _ | _⟩
  case cons.nil => rfl
  all_goals
    simp [formatterText, Part.text, listed, braced, ← String.toList_inj, Function.comp_def]

theorem compositeText_eq (n : String) {objects : List (List Property)} (options : List Property)
    (h : ∀ ps ∈ objects, ps ≠ []) :
    compositeText n (objects.map fun ps => listed (ps.map Property.text))
        (options.map Property.text) =
      (Layout.ofParts [("mode", "'TwoWay'")] "[" "," (named "type" (quote n) ++ options)
        objects).text := by
  have ht : entry "type" (quote n) :: options.map Property.text =
      (named "type" (quote n) ++ options).map Property.text := by simp [entries]
  have hn : named "type" (quote n) ++ options ≠ [] := cons_ne_nil _ _
  unfold compositeText
  rw [text_ofParts "[" "," h hn, ht]
  generalize objects.map (fun ps => listed (ps.map Property.text)) = texts
  rcases texts with _ | ⟨_, _ | _⟩
  case cons.nil => rfl
  all_goals simp [Property.text, listed, braced, ← String.toList_inj]

-- What is written for a binding is its layout.
theorem bindingText?_eq_layout (h : IsBinding e) (o : RenderOptions) :
    bindingText? e o = (layout? e o).map fun l => embed o l.text := by
  cases e
  case path b => simp [bindingText?, layout?, pathText_eq_layout]
  case formatter n es =>
    have hm := mapM_eq_map_mapM fun e he => formatterPart?_eq (o := o.topLevel) (h e he)
    rw [bindingText?, formatterParts?_eq_mapM, hm, layout?]
    cases hs : es.mapM (partProperties? true · o.topLevel)
    case none => rfl
    case some objects =>
      have hn : ∀ ps ∈ objects, ps ≠ [] := forall_of_mapM (fun _ _ _ => partProperties?_ne_nil) hs
      exact congrArg (fun s => some (embed o s)) (formatterText_eq n hn)
  case compositeType n es fo pa =>
    have hm := mapM_eq_map_mapM fun e he => partText?_eq (o := o.topLevel) (h e he)
    rw [bindingText?, partTexts?_eq_mapM, hm, objectEntries?_eq, objectEntries?_eq, layout?]
    cases hs : es.mapM (partProperties? false · o.topLevel)
    case none => rfl
    case some objects =>
      have hn : ∀ ps ∈ objects, ps ≠ [] := forall_of_mapM (fun _ _ _ => partProperties?_ne_nil) hs
      cases hf : optionProperties? "formatOptions" fo o.topLevel <;>
        cases hp : optionProperties? "parameters" pa o.topLevel
      case some.some fo pa =>
        have ht := compositeText_eq n (fo ++ pa) hn
        rw [map_append, ← append_assoc] at ht
        exact congrArg (fun s => some (embed o s)) ht
      all_goals rfl
  all_goals contradiction

end Texts

section Keys

variable {e : Expr} {o : RenderOptions} {anyTarget : Bool} {b : PathBinding Expr}

theorem sublist_keys_named (key : String) (text : Option String) :
    (named key text).map Prod.fst <+ [key] := by
  cases text <;> simp [named]

theorem nodup_keys_pathProperties (b : PathBinding Expr) (o : RenderOptions) :
    ((pathProperties b o).map Prod.fst).Nodup := by
  have h : (pathProperties b o).map Prod.fst <+ ["path"] ++ ["type"] ++ ["targetType"] ++
      ["mode"] ++ ["parameters"] ++ ["formatOptions"] ++ ["constraints"] := by
    simp only [pathProperties, map_append, namedQuoted]
    repeat' apply Sublist.append
    all_goals apply sublist_keys_named
  exact h.nodup (by decide)

theorem sublist_keys_partProperties (anyTarget : Bool) (b : PathBinding Expr) (o : RenderOptions) :
    (partProperties anyTarget b o).map Prod.fst <+ ["path"] ++ ["type"] ++ ["targetType"] ++
      ["mode"] ++ ["constraints"] ++ ["formatOptions"] ++ ["parameters"] := by
  simp only [partProperties, map_append, namedQuoted]
  repeat' apply Sublist.append
  all_goals apply sublist_keys_named

-- What a single part has in common with the properties of a formatter around it.
theorem nodup_keys_part_formatter {ps : List Property} (n : String)
    (h : partProperties? anyTarget e o = some ps) :
    ((ps ++ named "formatter" (quote n)).map Prod.fst).Nodup := by
  rw [map_append]
  cases e
  case constant v =>
    obtain ⟨s, _, rfl⟩ := Option.map_eq_some_iff.mp h
    exact ((sublist_keys_named "value" (some s)).append
      (sublist_keys_named "formatter" (quote n))).nodup (by decide)
  case path b =>
    cases h
    exact ((sublist_keys_partProperties anyTarget b o).append
      (sublist_keys_named "formatter" (quote n))).nodup (by decide)
  all_goals contradiction

theorem nodup_keys_part {ps : List Property} (h : partProperties? anyTarget e o = some ps) :
    (ps.map Prod.fst).Nodup := by
  have hn := nodup_keys_part_formatter "" h
  rw [map_append] at hn
  exact (nodup_append.mp hn).left

theorem isSome_objectText?_iff_isWritten {object : Option (ObjectLiteral Expr)} :
    (objectText? object o).isSome ↔ IsWritten object := by
  cases object
  case none => simp [objectText?, IsWritten]
  case some l =>
    simp [isSome_objectText?_iff, isSome_bindingText?_iff, IsWritten, omitted]

theorem keys_optionProperties? {key : String} {object : Option (ObjectLiteral Expr)}
    {ps : List Property} (h : optionProperties? key object o = some ps) :
    ps.map Prod.fst = if attributesOf object = [] then [] else [key] := by
  cases object
  case none =>
    cases h
    rfl
  case some l =>
    have hl : attributesOf (some l) = [] ↔ l.isEmpty := by
      simp [attributesOf, ObjectLiteral.values, ObjectLiteral.isEmpty]
    simp only [optionProperties?] at h
    simp only [hl]
    split at h
    case isTrue he =>
      cases h
      simp [he]
    case isFalse he =>
      obtain ⟨s, _, rfl⟩ := Option.map_eq_some_iff.mp h
      simp [he, named]

theorem mem_keys_partProperties (anyTarget : Bool) (b : PathBinding Expr) (o : RenderOptions) :
    let keys := (partProperties anyTarget b o).map Prod.fst
    ("type" ∈ keys ↔ b.typeName.isSome) ∧ ("formatOptions" ∈ keys ↔ IsWritten b.formatOptions) ∧
      ("parameters" ∈ keys ↔ IsWritten b.parameters) := by
  simp [partProperties, isSome_objectText?_iff_isWritten]

theorem repeats_iff {n : String} {es : List Expr} {fo pa : Option (ObjectLiteral Expr)} :
    Repeats (compositeType n es fo pa) ↔ ∃ b, es = [path b] ∧ (b.typeName.isSome ∨
      IsWritten b.formatOptions ∧ attributesOf fo ≠ [] ∨
      IsWritten b.parameters ∧ attributesOf pa ≠ []) := by
  constructor
  case mp =>
    intro h
    cases h
    case type h             => exact ⟨_, rfl, .inl h⟩
    case formatOptions hw h => exact ⟨_, rfl, .inr (.inl ⟨hw, h⟩)⟩
    case parameters hw h    => exact ⟨_, rfl, .inr (.inr ⟨hw, h⟩)⟩
  case mpr =>
    rintro ⟨b, rfl, h | ⟨hw, h⟩ | ⟨hw, h⟩⟩
    case inl     => exact .type h
    case inr.inl => exact .formatOptions hw h
    case inr.inr => exact .parameters hw h

-- The names of a single part and those of the composite type around it are all different, or the
-- part repeats one.
theorem nodup_keys_part_compositeType {x : Expr} {fo pa : Option (ObjectLiteral Expr)}
    {ps fs as : List Property} (n : String) (hp : partProperties? false x o = some ps)
    (hf : optionProperties? "formatOptions" fo o = some fs)
    (ha : optionProperties? "parameters" pa o = some as) :
    ((ps ++ (named "type" (quote n) ++ fs ++ as)).map Prod.fst).Nodup ↔
      ¬Repeats (compositeType n [x] fo pa) := by
  have tail : (named "type" (quote n) ++ fs ++ as).map Prod.fst =
      "type" :: ((if attributesOf fo = [] then [] else ["formatOptions"]) ++
        if attributesOf pa = [] then [] else ["parameters"]) := by
    rw [map_append, map_append, keys_optionProperties? hf, keys_optionProperties? ha]
    rfl
  have nodup : ((named "type" (quote n) ++ fs ++ as).map Prod.fst).Nodup := by
    rw [tail]
    split_ifs <;> decide
  rw [map_append, nodup_append', and_iff_right (nodup_keys_part hp), and_iff_right nodup,
    disjoint_right, tail, repeats_iff]
  cases x
  case constant v =>
    obtain ⟨s, _, rfl⟩ := Option.map_eq_some_iff.mp hp
    split_ifs <;> simp
  case path b =>
    cases hp
    obtain ⟨ht, hf, ha⟩ := mem_keys_partProperties false b o
    generalize (partProperties false b o).map Prod.fst = keys at ht hf ha ⊢
    split_ifs <;> simp [*]
  all_goals contradiction

theorem nodup_keys_ofParts_iff {before after : List Property} (opening separator : String)
    {objects : List (List Property)}
    (hk : (before.map Prod.fst ++ "parts" :: after.map Prod.fst).Nodup)
    (ho : ∀ ps ∈ objects, (ps.map Prod.fst).Nodup) :
    (∀ ps ∈ (Layout.ofParts before opening separator after objects).objects,
      (ps.map Prod.fst).Nodup) ↔ ∀ ps, objects = [ps] → ((ps ++ after).map Prod.fst).Nodup := by
  unfold Layout.ofParts
  split
  case h_1 => simp [Layout.objects]
  case h_2 hn =>
    refine iff_of_true (forall_mem_cons.mpr ⟨?_, ho⟩) fun ps h => (hn ps h).elim
    simpa using hk

theorem mapM_eq_singleton {f : α → Option β} {xs : List α} {y : β} (h : xs.mapM f = some [y]) :
    ∃ x, xs = [x] ∧ f x = some y := by
  rcases xs with _ | ⟨x, _ | ⟨z, xs⟩⟩
  case nil => cases h
  case cons.nil => exact ⟨x, rfl, by simpa [Option.bind_eq_some_iff] using h⟩
  case cons.cons => simp [Option.bind_eq_some_iff] at h

theorem nodup_keys_formatter {es : List Expr} {l : Layout} (n : String)
    (h : layout? (formatter n es) o = some l) : ∀ ps ∈ l.objects, (ps.map Prod.fst).Nodup := by
  simp only [layout?, Option.bind_eq_bind, Option.pure_def, Option.bind_eq_some_iff] at h
  obtain ⟨objects, hs, h⟩ := h
  cases h
  refine (nodup_keys_ofParts_iff " [" ", " (by simp [named]) ?_).mpr ?_
  · exact forall_of_mapM (fun _ _ _ => nodup_keys_part) hs
  · rintro ps rfl
    obtain ⟨e, rfl, he⟩ := mapM_eq_singleton hs
    exact nodup_keys_part_formatter n he

theorem nodup_keys_compositeType_iff {es : List Expr} {fo pa : Option (ObjectLiteral Expr)}
    {l : Layout} (n : String) (h : layout? (compositeType n es fo pa) o = some l) :
    (∀ ps ∈ l.objects, (ps.map Prod.fst).Nodup) ↔ ¬Repeats (compositeType n es fo pa) := by
  simp only [layout?, Option.bind_eq_bind, Option.pure_def, Option.bind_eq_some_iff] at h
  obtain ⟨objects, hs, fs, hf, as, ha, h⟩ := h
  cases h
  have hk : ([("mode", "'TwoWay'")].map Prod.fst ++
      "parts" :: (named "type" (quote n) ++ fs ++ as).map Prod.fst).Nodup := by
    rw [map_append, map_append, keys_optionProperties? hf, keys_optionProperties? ha]
    split_ifs <;> simp
  rw [nodup_keys_ofParts_iff "[" "," hk (forall_of_mapM (fun _ _ _ => nodup_keys_part) hs)]
  constructor
  case mp =>
    intro h hr
    obtain ⟨b, rfl, _⟩ := repeats_iff.mp hr
    obtain ⟨ps, rfl⟩ : ∃ ps, objects = [ps] := ⟨_, by simpa [partProperties?] using hs.symm⟩
    obtain ⟨_, he, hp⟩ := mapM_eq_singleton hs
    cases he
    exact (nodup_keys_part_compositeType n hp hf ha).mp (h ps rfl) hr
  case mpr =>
    rintro h ps rfl
    obtain ⟨x, rfl, hp⟩ := mapM_eq_singleton hs
    exact (nodup_keys_part_compositeType n hp hf ha).mpr h

end Keys

-- The objects that are written for a binding and for its parts name each of their properties once,
-- unless a composite type shares its object with a part that has a type, or options of a kind that
-- the composite type has, too.
theorem properties_repeated_iff (h : IsBinding e) (o : RenderOptions) :
    (bindingText? e o = (layout? e o).map fun l => embed o l.text) ∧
      ∀ l, layout? e o = some l →
        ((∀ ps ∈ l.objects, (ps.map Prod.fst).Nodup) ↔ ¬Repeats e) := by
  refine ⟨bindingText?_eq_layout h o, fun l hl => ?_⟩
  cases e
  case path b =>
    cases hl
    refine iff_of_true ?_ nofun
    split
    case isTrue  => exact forall_mem_singleton.mpr (nodup_keys_pathProperties b o)
    case isFalse => exact forall_mem_nil _
  case formatter n es => exact iff_of_true (nodup_keys_formatter n hl) nofun
  case compositeType n es fo pa => exact nodup_keys_compositeType_iff n hl
  all_goals contradiction

theorem properties_repeated_iff_typed :
    let b : PathBinding Expr := { path := "Amount", typeName := some "Decimal" }
    let e  := compositeType "Integer" [path b] none none
    let e' := compositeType "Integer" [path b, path b] none none
    IsBinding e ∧ IsBinding e' ∧
      (∃ l, layout? e {} = some l ∧ ¬∀ ps ∈ l.objects, (ps.map Prod.fst).Nodup) ∧
      ∃ l, layout? e' {} = some l ∧ ∀ ps ∈ l.objects, (ps.map Prod.fst).Nodup := by
  intro b e e'
  have h : IsBinding e := by simp [e, IsBinding, isSimple, isPath, kind]
  have h' : IsBinding e' := by simp [e', IsBinding, isSimple, isPath, kind]
  obtain ⟨l, hl⟩ : ∃ l, layout? e {} = some l := ⟨_, rfl⟩
  obtain ⟨l', hl'⟩ : ∃ l, layout? e' {} = some l := ⟨_, rfl⟩
  have hr : Repeats e := .type rfl
  have hr' : ¬Repeats e' := by simp [e', repeats_iff]
  have hd := (properties_repeated_iff h {}).right l hl
  have hd' := (properties_repeated_iff h' {}).right l' hl'
  exact ⟨h, h', ⟨l, hl, fun hn => hd.mp hn hr⟩, l', hl', hd'.mpr hr'⟩

-- The type of a part stands beside that of the composite type.
theorem type_repeated :
    let b : PathBinding Expr := { path := "Amount", typeName := some "Decimal" }
    let e := compositeType "Integer" [path b] none none
    IsBinding e ∧
      bindingText? e {} = some "\x7bpath: 'Amount', type: 'Decimal', type: 'Integer'\x7d" ∧
      ∃ l, layout? e {} = some l ∧ ¬∀ ps ∈ l.objects, (ps.map Prod.fst).Nodup := by
  intro b e
  refine ⟨?_, by decide +kernel, ⟨_, rfl, ?_⟩⟩
  · simp [e, IsBinding, isSimple, isPath, kind]
  · simp [Layout.ofParts, Layout.objects, partProperties, named, namedQuoted, b]

end Expr
end BindingAlgebra
