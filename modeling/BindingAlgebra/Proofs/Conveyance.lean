import BindingAlgebra.Proofs.Context
import BindingAlgebra.Proofs.Surrounding
import BindingAlgebra.Proofs.WellFormed
import BindingAlgebra.Proofs.Withheld

namespace BindingAlgebra.Expr

open List BindingText Quoted

-- What a text shows of the text of one part of an expression.

variable {ok ok' : Prop} {e e' : Expr} {o : RenderOptions} {w g g' : Expr → Option String}

def pathPart? (any : Bool) (e : Expr) (o : RenderOptions) : Option String :=
  e.path?.map (pathPart any · o)

-- The texts of an expression of some kind that others are made from. On its own, a constant may be
-- left out, and a path is written differently in a part of a formatter or a composite type.
inductive View (k : Kind) : (Expr → Option String) → Prop
  | text (o : RenderOptions) (h : o.embedded ∨ k ≠ .constant) : View k (bindingText? · o)
  | part (any : Bool) (o : RenderOptions) (h : k = .path) : View k (pathPart? any · o)

-- Whether what is made from an expression depends on one text of it only, whatever expression of its
-- kind this is, and shows this text as soon as all is right.
def Conveys (e : Expr) (ok : Prop) (g : Expr → Option String) : Prop :=
  ∃ w, ∃ j : Option String → Option String, View e.kind w ∧
    (∀ e', e'.kind = e.kind → g e' = j (w e')) ∧
    (ok → ∃ k, Surrounds k ∧ ∀ s, j (some s) = some (k s))

section Kinds

variable (h : e'.kind = e.kind)

include h

theorem asOperand_congr : asOperand e' = asOperand e := by
  have hn : needsParenthesis e' = needsParenthesis e := by
    rw [needsParenthesis, needsParenthesis, h]
  funext s
  rw [asOperand, asOperand, hn]

theorem isPath_congr : e'.isPath = e.isPath := by
  rw [isPath, isPath, h]

theorem isSimple_congr : e'.isSimple = e.isSimple := by
  rw [isSimple, isSimple, isPath_congr h, isConstant, isConstant, h]

end Kinds

section Parts

theorem partText?_of_constant (h : e.kind = .constant) :
    partText? e o = (bindingText? e o.operand).map (entry "value") := by
  cases e
  case constant => rfl
  all_goals contradiction

theorem partText?_of_path (h : e.kind = .path) : partText? e o = pathPart? false e o := by
  cases e
  case path => rfl
  all_goals contradiction

theorem formatterPart?_of_constant (h : e.kind = .constant) :
    formatterPart? e o = (bindingText? e o.operand).map fun s => .plain (entry "value" s) := by
  cases e
  case constant => rfl
  all_goals contradiction

theorem formatterPart?_of_path (h : e.kind = .path) :
    formatterPart? e o = (pathPart? true e o).map .plain := by
  cases e
  case path => rfl
  all_goals contradiction

theorem formatterPart?_of_compositeType (h : e.kind = .compositeType) :
    formatterPart? e o = (bindingText? e o.topLevel).map .composite := by
  cases e
  case compositeType => exact formatterPart?_compositeType ..
  all_goals contradiction

end Parts

namespace Conveys

theorem view (hv : View e.kind w) : Conveys e ok w :=
  ⟨w, id, hv, fun _ _ => rfl, fun _ => ⟨_, .refl, fun _ => rfl⟩⟩

theorem operand (ho : o.embedded) : Conveys e ok (bindingText? · o) :=
  view (.text o (.inl ho))

theorem none (h : ¬ok) : Conveys e ok fun _ => none :=
  ⟨_, fun _ => Option.none, .text { embedded := true } (.inl rfl), fun _ _ => rfl,
    fun hok => absurd hok h⟩

theorem mono (h : Conveys e ok g) (hok : ok' → ok) : Conveys e ok' g := by
  obtain ⟨w, j, hv, hg, hj⟩ := h
  exact ⟨w, j, hv, hg, hj ∘ hok⟩

theorem congr (h : Conveys e ok g) (hg : ∀ e', e'.kind = e.kind → g' e' = g e') :
    Conveys e ok g' := by
  obtain ⟨w, j, hv, h, hj⟩ := h
  exact ⟨w, j, hv, fun e' hk => (hg e' hk).trans (h e' hk), hj⟩

theorem carry {i : Option String → Option String} {k : String → String} (h : Conveys e ok g)
    (hk : Surrounds k) (hi : ∀ s, i (some s) = some (k s)) : Conveys e ok fun e' => i (g e') := by
  obtain ⟨w, j, hv, hg, hj⟩ := h
  refine ⟨w, i ∘ j, hv, fun e' he => congrArg i (hg e' he), fun hok => ?_⟩
  obtain ⟨k', hk', hj⟩ := hj hok
  exact ⟨_, hk.comp hk', fun s => by rw [Function.comp, hj, hi]⟩

theorem map {k : String → String} (h : Conveys e ok g) (hk : Surrounds k) :
    Conveys e ok fun e' => (g e').map k :=
  h.carry hk fun _ => rfl

-- Besides the text, something else may be needed.
theorem given {y : Option α} {g : α → Expr → Option String} (hy : ok → y.isSome)
    (h : ∀ a, Conveys e ok (g a)) : Conveys e ok fun e' => y.bind fun a => g a e' := by
  cases y
  case none   => exact none fun h => nomatch hy h
  case some a => exact h a

theorem mapM {t : α → Option β} {x : Expr → α} {p : String → β} {j : List β → String}
    {before after : List α} (h : Conveys e ok g)
    (ht : ∀ e', e'.kind = e.kind → t (x e') = (g e').map p)
    (hs : ok → ∀ a ∈ before ++ after, (t a).isSome)
    (hj : ∀ ys zs, Surrounds fun s => j (ys ++ p s :: zs)) :
    Conveys e ok fun e' => ((before ++ x e' :: after).mapM t).map j := by
  simp only [forall_mem_append, ← isSome_mapM_iff] at hs
  refine congr (given (fun h => (hs h).left) fun ys => given (fun h => (hs h).right) fun zs =>
    h.map (hj ys zs)) fun e' he => ?_
  simp only [mapM_append, mapM_cons, ht e' he, Option.map_eq_bind, Option.bind_eq_bind,
    Option.bind_assoc, Option.pure_def, Function.comp_def, Option.bind_some]
  exact congrArg _ (funext fun _ => Option.bind_comm ..)

-- Without its text, an entry is left out from among others.
theorem spliced {l : Option String → List String} {j : List String → String}
    (h : Conveys e ok g) (hs : Splices l) (hj : Joins j) :
    Conveys e ok fun e' => some (j (l (g e'))) := by
  obtain ⟨key, ss, ts, hs⟩ := hs
  refine h.carry (i := fun x => some (j (l x))) (hj ss ts _ (Surrounds.refl.entry key)) fun s => ?_
  simp [hs, entries]

-- A constant in a part is written as an operand, though the part itself is at the top level. So it
-- is embedded, and not left out.
theorem partText (hs : ok → e.isSimple) (o : RenderOptions) : Conveys e ok (partText? · o) := by
  by_cases hc : e.kind = .constant
  case pos =>
    exact ((operand rfl).map (Surrounds.refl.entry "value")).congr fun e' he =>
      partText?_of_constant (he.trans hc)
  by_cases hp : e.kind = .path
  case pos => exact (view (.part false o hp)).congr fun e' he => partText?_of_path (he.trans hp)
  case neg =>
    have hn : ¬e.isSimple := by simp [isSimple, isConstant, isPath, hc, hp]
    refine (none (mt hs hn)).congr fun e' he => Option.not_isSome_iff_eq_none.mp fun h => ?_
    exact hn (isSimple_congr he ▸ (isSome_partText?_iff.mp h).left)

theorem formatterPart (hs : ok → e.isSimple ∨ e.kind = .compositeType) (o : RenderOptions) :
    ∃ g part, Conveys e ok g ∧ Part.Surrounds part ∧
      ∀ e', e'.kind = e.kind → formatterPart? e' o = (g e').map part := by
  by_cases hc : e.kind = .constant
  case pos =>
    exact ⟨_, _, operand rfl, .plain (Surrounds.refl.entry "value"), fun e' he =>
      formatterPart?_of_constant (he.trans hc)⟩
  by_cases hp : e.kind = .path
  case pos =>
    exact ⟨_, _, view (.part true o hp), .plain .refl, fun e' he =>
      formatterPart?_of_path (he.trans hp)⟩
  by_cases ht : e.kind = .compositeType
  case pos =>
    exact ⟨_, _, view (.text o.topLevel (.inr (by simp [ht]))), .composite .refl, fun e' he =>
      formatterPart?_of_compositeType (he.trans ht)⟩
  case neg =>
    have hn : ¬(e.isSimple ∨ e.kind = .compositeType) := by
      simp [isSimple, isConstant, isPath, hc, hp, ht]
    refine ⟨fun _ => Option.none, _, .none (mt hs hn), .plain .refl, fun e' he => ?_⟩
    refine Option.not_isSome_iff_eq_none.mp fun h => hn ?_
    have hp := (isSome_formatterPart?_iff.mp h).left
    rwa [isSimple_congr he, he] at hp

section Lists

variable {before after : List Expr} {j : List String → String}
variable (hw : ok → ∀ c ∈ before ++ after, Writable c)

include hw

theorem texts (ho : o.embedded) (hj : Joins j) :
    Conveys e ok fun e' => (texts? (before ++ e' :: after) o).map j := by
  simp only [texts?_eq_mapM]
  exact mapM (p := id) (operand ho) (fun _ _ => (congrFun Option.map_id _).symm)
    (fun h c hc => (hw h c hc).isSome ho) fun ss ts => hj ss ts _ .refl

theorem operandTexts (ho : o.embedded) (hj : Joins j) :
    Conveys e ok fun e' => (operandTexts? (before ++ e' :: after) o).map j := by
  simp only [operandTexts?_eq_mapM]
  refine mapM (operand ho) (fun e' he => congrArg (Option.map · _) (asOperand_congr he)) ?_
    fun ss ts => hj ss ts _ (Surrounds.refl.asOperand e)
  intro h c hc
  rw [Option.isSome_map]
  exact (hw h c hc).isSome ho

theorem partTexts (hs : ok → ∀ c ∈ before ++ e :: after, c.isSimple) (o : RenderOptions)
    (hj : Joins j) : Conveys e ok fun e' => (partTexts? (before ++ e' :: after) o).map j := by
  simp only [forall_mem_append, forall_mem_cons] at hs hw
  simp only [partTexts?_eq_mapM]
  refine mapM (p := id) (partText (fun h => (hs h).right.left) o)
    (fun _ _ => (congrFun Option.map_id _).symm) ?_ fun ss ts => hj ss ts _ .refl
  exact fun h c hc => isSome_partText?_iff.mpr ⟨by grind, Writable.isSome (by grind) rfl⟩

theorem formatterParts
    (hs : ok → ∀ c ∈ before ++ e :: after, c.isSimple ∨ c.kind = .compositeType)
    (n : String) (o o' : RenderOptions) :
    Conveys e ok fun e' =>
      (formatterParts? (before ++ e' :: after) o).map fun ps => embed o' (formatterText n ps) := by
  simp only [forall_mem_append, forall_mem_cons] at hs hw
  obtain ⟨g, part, hg, hp, ht⟩ := formatterPart (fun h => (hs h).right.left) o
  simp only [formatterParts?_eq_mapM]
  refine mapM hg ht ?_ fun ps qs => (Surrounds.formatterText n ps qs hp).embed o'
  exact fun h c hc => isSome_formatterPart?_iff.mpr ⟨by grind, Writable.isSome (by grind) rfl⟩

omit hw in
theorem objectText {key : String} {before after : List (String × Expr)}
    (hw : ok → ∀ c ∈ (before ++ after).map Prod.snd, Writable c) (o : RenderOptions) :
    Conveys e ok fun e' => objectText? (some ⟨before ++ (key, e') :: after⟩) o := by
  have h : Conveys e ok fun e' =>
      (entryTexts? (before ++ (key, e') :: after) o.operand).map fun ss => braced (listed ss) := by
    simp only [entryTexts?_eq_mapM]
    refine mapM (operand rfl) (fun e' _ => rfl) ?_
      fun ss ts => ((Surrounds.refl.entry key).listed ss ts).braced
    intro h a ha
    rw [Option.isSome_map]
    exact (hw h a.snd (mem_map_of_mem ha)).isSome rfl
  exact h.congr fun e' _ => Option.map_eq_bind.symm

end Lists
end Conveys

-- An object in the metadata of a path that has no text, as something in it cannot be written. The
-- path does without it.
inductive Forgoes (e : Expr) : (Expr → Expr) → Prop
  | intro {place : ObjectLiteral Expr → Expr} {key : String} {before after : List (String × Expr)} :
      Place place → (place ⟨before ++ (key, e) :: after⟩).isPath →
      (∃ c ∈ (before ++ (key, e) :: after).map Prod.snd, ¬Writable c) →
      Forgoes e fun e' => place ⟨before ++ (key, e') :: after⟩

-- Whether a frame with a part in it is written, and this part with it.
structure Keeps (e : Expr) (frame : Expr → Expr) : Prop where
  writable    : Writable (frame e)
  not_forgoes : ¬Forgoes e frame

theorem Writable.part {c : Expr} (h : Writable e) (hp : ¬e.isPath) (hc : c ∈ e.parts) :
    Writable c :=
  (writable_iff.mp h).right c (required_eq_parts hp ▸ hc)

namespace Writable

section CompositeTypes

variable {n : String} {es : List Expr} {fo pa : Option (ObjectLiteral Expr)}
variable (h : Writable (compositeType n es fo pa)) (o : RenderOptions)

include h

theorem compositeParts : (partTexts? es o).isSome :=
  isSome_partTexts?_iff.mpr fun c hc =>
    isSome_partText?_iff.mpr ⟨(writable_iff.mp h).left c hc,
      (h.part Bool.false_ne_true (by simp [parts, hc])).isSome rfl⟩

theorem compositeEntries : (objectEntries? "formatOptions" fo (objectText? fo o)).isSome ∧
    (objectEntries? "parameters" pa (objectText? pa o)).isSome := by
  simp only [isSome_objectEntries?_iff]
  exact ⟨fun c hc => (h.part Bool.false_ne_true (by simp [parts, hc])).isSome rfl,
    fun c hc => (h.part Bool.false_ne_true (by simp [parts, hc])).isSome rfl⟩

end CompositeTypes
end Writable

section Frames

variable {row : List Expr → Expr} {place : ObjectLiteral Expr → Expr} {frame : Expr → Expr}

theorem Row.not_isPath (hr : Row row) (es : List Expr) : ¬(row es).isPath := by
  cases hr <;> exact Bool.false_ne_true

theorem Row.conveys (hr : Row row) (before after : List Expr) (o : RenderOptions) :
    Conveys e (Writable (row (before ++ e :: after))) fun e' =>
      bindingText? (row (before ++ e' :: after)) o := by
  have hw (h : Writable (row (before ++ e :: after))) : ∀ c ∈ before ++ after, Writable c :=
    fun c hc => h.part (hr.not_isPath _) (hr.mem_parts (by grind))
  cases hr
  case array =>
    refine (Conveys.texts (o := o.operand) hw rfl ?_).congr fun e' _ => Option.map_eq_bind.symm
    exact fun ss ts k hk => (hk.intercalate "," ss ts).around "[" "]"
  case set op =>
    refine (Conveys.operandTexts (o := o.typedOperand) hw rfl ?_).congr fun e' _ =>
      Option.map_eq_bind.symm
    exact fun ss ts k hk => (hk.intercalate _ ss ts).wrap o
  case concat =>
    refine (Conveys.operandTexts (o := o.typedOperand) hw rfl ?_).congr fun e' _ =>
      Option.map_eq_bind.symm
    exact fun ss ts k hk => (hk.intercalate _ ss ts).wrap o
  case formatter n =>
    exact (Conveys.formatterParts hw (fun h => (writable_iff.mp h).left) n o.topLevel o).congr
      fun e' _ => Option.map_eq_bind.symm
  case compositeType n fo pa =>
    have hj (options : List String) : Joins fun ss => embed o (compositeText n ss options) :=
      fun ss ts k hk => (hk.compositePart n ss ts options).embed o
    refine (Conveys.given (fun h => (h.compositeEntries o.topLevel).left) fun fo' =>
      Conveys.given (fun h => (h.compositeEntries o.topLevel).right) fun pa' =>
        Conveys.partTexts hw (fun h => (writable_iff.mp h).left) o.topLevel
          (hj (fo' ++ pa'))).congr fun e' _ => ?_
    simp only [bindingText?, Option.map_eq_bind]
    exact (Option.bind_comm ..).trans (congrArg _ (funext fun _ => Option.bind_comm ..))
  case call receiver n =>
    cases receiver
    case none =>
      refine (Conveys.texts (o := o.operand) hw rfl ?_).congr fun e' _ => Option.map_eq_bind.symm
      exact fun ss ts k hk => (hk.listed ss ts).around (n ++ "(") ")"
    case some c =>
      have hc (h : Writable (Expr.call (some c) n (before ++ e :: after))) :=
        (h.part Bool.false_ne_true mem_cons_self).isSome (o := o.operand) rfl
      have hj (s : String) : Joins fun ss => s ++ "." ++ n ++ "(" ++ listed ss ++ ")" :=
        fun ss ts k hk => (hk.listed ss ts).around (s ++ "." ++ n ++ "(") ")"
      refine (Conveys.given hc fun s => Conveys.texts (o := o.operand) hw rfl (hj s)).congr
        fun e' _ => ?_
      simp only [bindingText?, Option.map_eq_bind]
      exact Option.bind_comm ..

theorem objectEntries?_eq_map (key : String) {object : ObjectLiteral Expr} (text : Option String)
    (h : object.entries ≠ []) :
    objectEntries? key (some object) text = text.map fun s => [entry key s] := by
  rw [objectEntries?, if_neg]
  simpa [ObjectLiteral.isEmpty] using h

theorem pathText_of_hasMetadata {b : PathBinding Expr} (h : b.hasMetadata) :
    pathText b o =
      braced (listed ([entry "path" (quote b.qualified)] ++ quotedEntries "type" b.typeName ++
        quotedEntries "targetType" b.targetType ++ modeEntries b.mode ++
        entries "parameters" (objectText? b.parameters o) ++
        entries "formatOptions" (objectText? b.formatOptions o) ++
        entries "constraints" (objectText? b.constraints o))) := by
  cases b
  exact if_pos h

section Places

variable {key : String} {before after : List (String × Expr)}

theorem Place.forall_writable (hp : Place place)
    (h : Keeps e fun e' => place ⟨before ++ (key, e') :: after⟩) :
    ∀ c ∈ (before ++ (key, e) :: after).map Prod.snd, Writable c := by
  intro c hc
  by_cases hi : (place ⟨before ++ (key, e) :: after⟩).isPath
  case pos =>
    by_contra hw
    exact h.not_forgoes (.intro hp hi ⟨c, hc, hw⟩)
  case neg => exact h.writable.part hi (hp.mem_parts hc)

theorem Place.conveys_object (hp : Place place) (o : RenderOptions) :
    Conveys e (Keeps e fun e' => place ⟨before ++ (key, e') :: after⟩) fun e' =>
      objectText? (some ⟨before ++ (key, e') :: after⟩) o := by
  refine Conveys.objectText (fun h c hc => hp.forall_writable h c ?_) o
  simp only [map_append, map_cons, mem_append, mem_cons] at hc ⊢
  tauto

theorem Place.conveys (hp : Place place) (o : RenderOptions) :
    Conveys e (Keeps e fun e' => place ⟨before ++ (key, e') :: after⟩) fun e' =>
      bindingText? (place ⟨before ++ (key, e') :: after⟩) o := by
  have ht (o : RenderOptions) : Conveys e (Keeps e fun e' => place ⟨before ++ (key, e') :: after⟩)
      fun e' => objectText? (some ⟨before ++ (key, e') :: after⟩) o := hp.conveys_object o
  have hn (e' : Expr) : before ++ (key, e') :: after ≠ [] := by simp
  have hj : Joins fun ss => embed o (braced (listed ss)) :=
    fun ss ts k hk => (hk.listed ss ts).braced.embed o
  cases hp
  case value => exact ht o
  case constraints b =>
    have hm (e' : Expr) :
        { b with constraints := some ⟨before ++ (key, e') :: after⟩ }.hasMetadata := by
      simp [PathBinding.hasMetadata]
    simp only [bindingText?, pathText_of_hasMetadata (hm _), PathBinding.qualified]
    exact (ht o).spliced ((Splices.entries "constraints").prepend _) hj
  case pathOptions b =>
    have hm (e' : Expr) :
        { b with formatOptions := some ⟨before ++ (key, e') :: after⟩ }.hasMetadata := by
      simp [PathBinding.hasMetadata]
    simp only [bindingText?, pathText_of_hasMetadata (hm _), PathBinding.qualified]
    exact (ht o).spliced (((Splices.entries "formatOptions").prepend _).append _) hj
  case pathParameters b =>
    have hm (e' : Expr) :
        { b with parameters := some ⟨before ++ (key, e') :: after⟩ }.hasMetadata := by
      simp [PathBinding.hasMetadata]
    simp only [bindingText?, pathText_of_hasMetadata (hm _), PathBinding.qualified]
    exact (ht o).spliced ((((Splices.entries "parameters").prepend _).append _).append _) hj
  case typeOptions n es pa =>
    have hk (ps pa' : List String) :
        Surrounds fun s => embed o (compositeText n ps ([entry "formatOptions" s] ++ pa')) :=
      ((Surrounds.refl.entry "formatOptions").compositeOption n ps [] pa').embed o
    refine (Conveys.given (fun h => h.writable.compositeParts o.topLevel) fun ps =>
      Conveys.given (fun h => (h.writable.compositeEntries o.topLevel).right) fun pa' =>
        (ht o.topLevel).map (hk ps pa')).congr fun e' _ => ?_
    simp only [bindingText?, objectEntries?_eq_map _ _ (hn e'), Option.map_eq_bind,
      Option.bind_eq_bind, Option.bind_assoc]
    exact congrArg _ (funext fun _ => Option.bind_comm ..)
  case typeParameters n es fo =>
    have hk (ps fo' : List String) :
        Surrounds fun s => embed o (compositeText n ps (fo' ++ [entry "parameters" s])) :=
      ((Surrounds.refl.entry "parameters").compositeOption n ps fo' []).embed o
    refine (Conveys.given (fun h => h.writable.compositeParts o.topLevel) fun ps =>
      Conveys.given (fun h => (h.writable.compositeEntries o.topLevel).left) fun fo' =>
        (ht o.topLevel).map (hk ps fo')).congr fun e' _ => ?_
    simp only [bindingText?, objectEntries?_eq_map _ _ (hn e'), Option.map_eq_bind,
      Option.bind_eq_bind, Option.bind_assoc]
    rfl

theorem Place.conveys_part (hp : Place place) (hi : (place ⟨before ++ (key, e) :: after⟩).isPath)
    (any : Bool) (o : RenderOptions) :
    Conveys e (Keeps e fun e' => place ⟨before ++ (key, e') :: after⟩) fun e' =>
      pathPart? any (place ⟨before ++ (key, e') :: after⟩) o := by
  have ht : Conveys e (Keeps e fun e' => place ⟨before ++ (key, e') :: after⟩)
      fun e' => objectText? (some ⟨before ++ (key, e') :: after⟩) o := hp.conveys_object o
  have hj : Joins listed := fun ss ts _ hk => hk.listed ss ts
  cases hp <;> simp only [pathPart?, path?, Option.map_some, pathPart, partTarget?,
    PathBinding.qualified]
  case constraints =>
    exact ht.spliced ((((Splices.entries "constraints").prepend _).append _).append _) hj
  case pathOptions =>
    exact ht.spliced (((Splices.entries "formatOptions").prepend _).append _) hj
  case pathParameters =>
    exact ht.spliced ((Splices.entries "parameters").prepend _) hj
  all_goals contradiction

end Places

theorem Frame.kind_eq (hr : Frame frame) (e e' : Expr) : (frame e).kind = (frame e').kind := by
  cases hr
  case member h _ _  => cases h <;> rfl
  case entry h _ _ _ => cases h <;> rfl
  all_goals rfl

-- The cases have in common that what stands beside the hole needs a text of its own.
theorem Frame.conveys (hr : Frame frame) (o : RenderOptions) :
    Conveys e (Keeps e frame) fun e' => bindingText? (frame e') o := by
  have beside (hp : ¬(frame e).isPath) (c : Expr) (hc : c ∈ (frame e).parts)
      (h : Keeps e frame) : (bindingText? c o.operand).isSome :=
    (h.writable.part hp hc).isSome rfl
  have operand {ok : Prop} : Conveys e ok fun e' => bindingText? e' o.operand := .operand rfl
  have choice {k : String → String} (hk : Surrounds k) :
      Surrounds fun s => if o.embedded then "(" ++ k s ++ ")" else wrap o (k s) := by
    split
    case isTrue  => exact hk.around "(" ")"
    case isFalse => exact hk.wrap o
  cases hr
  case not =>
    refine (operand.map (((Surrounds.refl.asOperand e).prepend "!").wrap o)).congr fun e' he => ?_
    rw [← asOperand_congr he]
    exact Option.map_eq_bind.symm
  case truthy =>
    refine (operand.map (((Surrounds.refl.asOperand e).prepend "!!").wrap o)).congr fun e' he => ?_
    rw [← asOperand_congr he]
    exact Option.map_eq_bind.symm
  case length =>
    exact (operand.map ((Surrounds.refl.append ".length").wrap o)).congr fun e' _ =>
      Option.map_eq_bind.symm
  case left op r =>
    have hk (t : String) :
        Surrounds fun s => asOperand e s ++ " " ++ op.token ++ " " ++ asOperand r t :=
      ((((Surrounds.refl.asOperand _).append " ").append op.token).append " ").append _
    refine (Conveys.given (beside Bool.false_ne_true r (by simp [parts, children])) fun t =>
      operand.map ((hk t).wrap o)).congr fun e' he => ?_
    rw [← asOperand_congr he]
    simp only [bindingText?, Option.map_eq_bind]
    exact Option.bind_comm ..
  case right op l =>
    have hk (t : String) :
        Surrounds fun s => asOperand l t ++ " " ++ op.token ++ " " ++ asOperand e s :=
      (Surrounds.refl.asOperand _).prepend _
    refine (Conveys.given (beside Bool.false_ne_true l (by simp [parts, children])) fun t =>
      operand.map ((hk t).wrap o)).congr fun e' he => ?_
    rw [← asOperand_congr he]
    simp only [bindingText?, Option.map_eq_bind]
    rfl
  case condition t f =>
    have hk (t f : String) : Surrounds fun s => s ++ " ? " ++ t ++ " : " ++ f :=
      (((Surrounds.refl.append " ? ").append t).append " : ").append f
    refine (Conveys.given (beside Bool.false_ne_true t (by simp [parts, children])) fun t =>
      Conveys.given (beside Bool.false_ne_true f (by simp [parts, children])) fun f =>
        operand.map (choice (hk t f))).congr fun e' _ => ?_
    simp only [bindingText?, Option.map_eq_bind]
    exact (Option.bind_comm ..).trans (congrArg _ (funext fun _ => Option.bind_comm ..))
  case onTrue c f =>
    have hk (c f : String) : Surrounds fun s => c ++ " ? " ++ s ++ " : " ++ f :=
      ((Surrounds.refl.prepend (c ++ " ? ")).append " : ").append f
    refine (Conveys.given (beside Bool.false_ne_true c (by simp [parts, children])) fun c =>
      Conveys.given (beside Bool.false_ne_true f (by simp [parts, children])) fun f =>
        operand.map (choice (hk c f))).congr fun e' _ => ?_
    simp only [bindingText?, Option.map_eq_bind]
    exact congrArg _ (funext fun _ => Option.bind_comm ..)
  case onFalse c t =>
    have hk (c t : String) : Surrounds fun s => c ++ " ? " ++ t ++ " : " ++ s :=
      Surrounds.refl.prepend (c ++ " ? " ++ t ++ " : ")
    refine (Conveys.given (beside Bool.false_ne_true c (by simp [parts, children])) fun c =>
      Conveys.given (beside Bool.false_ne_true t (by simp [parts, children])) fun t =>
        operand.map (choice (hk c t))).congr fun e' _ => ?_
    simp only [bindingText?, Option.map_eq_bind]
    rfl
  case receiver n es =>
    have hs (h : Keeps e fun e' => call (some e') n es) : (texts? es o.operand).isSome :=
      isSome_texts?_iff.mpr fun c hc =>
        (h.writable.part Bool.false_ne_true (by simp [parts, children, hc])).isSome rfl
    have hk (t : String) : Surrounds fun s => s ++ "." ++ n ++ "(" ++ t ++ ")" :=
      ((((Surrounds.refl.append ".").append n).append "(").append t).append ")"
    refine (Conveys.given hs fun ss => operand.map (hk (listed ss))).congr fun e' _ => ?_
    simp only [bindingText?, Option.map_eq_bind]
    rfl
  case member h before after => exact (h.conveys before after o).mono Keeps.writable
  case entry h key before after => exact h.conveys o

theorem Frame.conveys_part (hr : Frame frame) (hi : (frame e).isPath) (any : Bool)
    (o : RenderOptions) :
    Conveys e (Keeps e frame) fun e' => pathPart? any (frame e') o := by
  cases hr
  case entry h key before after => exact h.conveys_part hi any o
  case member h _ _ => exact absurd hi (h.not_isPath _)
  all_goals contradiction

theorem Frame.conveys_view (hr : Frame frame) (hw : View (frame e).kind w) :
    Conveys e (Keeps e frame) fun e' => w (frame e') := by
  cases hw
  case text o _      => exact hr.conveys o
  case part any o hk => exact hr.conveys_part (by simp [isPath, hk]) any o

end Frames
end BindingAlgebra.Expr
