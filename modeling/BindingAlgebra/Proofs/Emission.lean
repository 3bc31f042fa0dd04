import BindingAlgebra.Proofs.Conveyance
import BindingAlgebra.Proofs.Rendering

namespace BindingAlgebra.Expr

open List BindingText

variable {ok : Prop} {c e e' : Expr} {w g : Expr → Option String} {frame context : Expr → Expr}

-- The contexts of an expression through metadata that a path does without.
inductive Dropped (e : Expr) : (Expr → Expr) → Prop
  | path {frame context : Expr → Expr} : Context context → Forgoes (context e) frame →
      Dropped e (frame ∘ context)
  | within {frame context : Expr → Expr} : Frame frame → Dropped e context →
      Dropped e (frame ∘ context)

section Writability

theorem writable_null : Writable (constant .null) :=
  .intro trivial (forall_mem_nil _)

theorem Frame.mem_parts_cases (hr : Frame frame) (hc : c ∈ (frame e).parts) :
    c = e ∨ ∀ e', c ∈ (frame e').parts := by
  cases hr
  case member h _ _ =>
    cases h <;> simp only [parts, Value.parts, children, mem_append, mem_cons] at hc ⊢ <;> grind
  case entry h _ _ _ =>
    cases h <;> simp only [parts, Value.parts, PathBinding.parts, attributesOf,
      ObjectLiteral.values, Option.elim_some, map_append, map_cons, mem_append, mem_cons] at hc ⊢ <;>
      grind
  all_goals
    simp only [parts, children, mem_cons, not_mem_nil, or_false] at hc ⊢
    grind

theorem Frame.writableNode (hr : Frame frame) (hk : e'.kind = e.kind)
    (h : WritableNode (frame e')) : WritableNode (frame e) := by
  cases hr
  case member h' _ _ =>
    cases h' <;> simp_all [WritableNode, or_imp, forall_and, isSimple_congr hk]
  case entry h' _ _ _ => cases h' <;> exact h
  all_goals exact h

-- Another part of the same kind can take the place of one, as long as it can be written, too.
theorem Frame.writable (hr : Frame frame) (hk : e'.kind = e.kind) (he : Writable e' → Writable e)
    (h : Writable (frame e')) : Writable (frame e) := by
  refine .intro (hr.writableNode hk (writable_iff.mp h).left) fun c hc => ?_
  by_cases hp : (frame e).isPath
  case pos =>
    obtain ⟨b, hb⟩ := isPath_iff.mp hp
    rw [hb] at hc
    exact absurd hc not_mem_nil
  case neg =>
    have hp' : ¬(frame e').isPath := isPath_congr (hr.kind_eq e' e) ▸ hp
    rw [required_eq_parts hp] at hc
    rcases hr.mem_parts_cases hc with rfl | hc
    case inl => exact he (h.part hp' (hr.mem_parts e'))
    case inr => exact h.part hp' (hc e')

theorem Frame.writable_hole (hr : Frame frame) (h : Keeps e frame) : Writable e := by
  by_cases hp : (frame e).isPath
  case neg => exact h.writable.part hp (hr.mem_parts e)
  case pos =>
    cases hr
    case entry h' _ _ _ => exact h'.forall_writable h e (by simp)
    case member h' _ _  => exact absurd hp (h'.not_isPath _)
    all_goals contradiction

theorem Context.kind_eq (hc : Context context) (hk : e'.kind = e.kind) :
    (context e').kind = (context e).kind := by
  cases hc
  case hole => exact hk
  case within hr _ => exact hr.kind_eq ..

theorem Context.writable (hc : Context context) (hk : e'.kind = e.kind)
    (he : Writable e' → Writable e) (h : Writable (context e')) : Writable (context e) := by
  induction hc
  case hole => exact he h
  case within hr hc ih => exact hr.writable (hc.kind_eq hk) ih h

end Writability

section Coincidence

-- Expressions that are written alike, wherever they stand.
structure Coincide (e e' : Expr) : Prop where
  kind : e.kind = e'.kind
  text (o : RenderOptions) : bindingText? e o = bindingText? e' o
  part (any : Bool) (o : RenderOptions) : e'.isPath → pathPart? any e o = pathPart? any e' o

theorem Coincide.view (h : Coincide e' e) (hw : View e.kind w) : w e' = w e := by
  cases hw
  case text o _      => exact h.text o
  case part any o hk => exact h.part any o (by simp [isPath, hk])

theorem Conveys.eq (hg : Conveys e ok g) (h : Coincide e' e) : g e' = g e := by
  obtain ⟨w, j, hw, hg, _⟩ := hg
  rw [hg e' h.kind, hg e rfl, h.view hw]

theorem Frame.coincide (hr : Frame frame) (h : Coincide e' e) : Coincide (frame e') (frame e) where
  kind          := hr.kind_eq ..
  text o        := (hr.conveys o).eq h
  part any o hp := (hr.conveys_part hp any o).eq h

theorem objectText?_eq_none {object : ObjectLiteral Expr} (h : ∃ c ∈ object.values, ¬Writable c)
    (o : RenderOptions) : objectText? (some object) o = none := by
  obtain ⟨c, hc, hw⟩ := h
  rw [← Option.not_isSome_iff_eq_none, isSome_objectText?_iff]
  exact fun h => hw (isSome_bindingText?_iff.mp (h c hc)).right

-- Metadata that a path does without is of no other effect than being there.
theorem Forgoes.coincide (h : Forgoes e frame) (he : Writable e' → Writable e) :
    Coincide (frame e') (frame e) := by
  rcases h with @⟨place, key, before, after, hp, hi, hw⟩
  have hn := objectText?_eq_none hw
  obtain ⟨c, hc, hw⟩ := hw
  have hn' : ∀ o, objectText? (some ⟨before ++ (key, e') :: after⟩) o = none := by
    refine objectText?_eq_none ?_
    simp only [ObjectLiteral.values, map_append, map_cons, mem_append, mem_cons] at hc ⊢
    rcases hc with hc | rfl | hc
    · exact ⟨c, .inl hc, hw⟩
    · exact ⟨e', .inr (.inl rfl), mt he hw⟩
    · exact ⟨c, .inr (.inr hc), hw⟩
  cases hp
  case constraints | pathOptions | pathParameters =>
    constructor
    case kind => rfl
    case text =>
      intro o
      simp only [bindingText?, pathText, PathBinding.hasMetadata, PathBinding.qualified, hn, hn',
        Option.isSome_some]
    case part =>
      intro any o _
      simp only [pathPart?, path?, Option.map_some, pathPart, partTarget?, PathBinding.qualified,
        hn, hn']
  all_goals contradiction

theorem Dropped.coincide (h : Dropped (constant .null) context) (v : Value Expr) :
    Coincide (context (constant v)) (context (constant .null)) := by
  induction h
  case path hc hf     => exact hf.coincide (hc.writable rfl fun _ => writable_null)
  case within hr _ ih => exact hr.coincide ih

end Coincidence

section Emission

-- Whether an optional text has the text of a value in it, always at the same place.
def Carries (g : Value Expr → Option String) : Prop :=
  ∃ (inner : RenderOptions) (k : String → String), inner.embedded ∧ Surrounds k ∧
    ∀ v s, valueText? v inner = some s → g v = some (k s)

theorem Conveys.carries {f : Value Expr → Expr} (hg : Conveys (f .null) ok g) (hok : ok)
    (hk : ∀ v, (f v).kind = (f .null).kind)
    (hf : ∀ w, View (f .null).kind w → Carries fun v => w (f v)) : Carries fun v => g (f v) := by
  obtain ⟨w, j, hw, hg, hj⟩ := hg
  obtain ⟨k, hs, hj⟩ := hj hok
  obtain ⟨inner, k', hi, hs', hv⟩ := hf w hw
  refine ⟨inner, _, hi, hs.comp hs', fun v s h => ?_⟩
  exact (hg (f v) (hk v)).trans ((congrArg j (hv v s h)).trans (hj _))

theorem View.carries (hw : View .constant w) : Carries fun v => w (constant v) := by
  cases hw
  case text o ho   => exact ⟨o, _, ho.resolve_right (not_not.mpr rfl), .refl, fun v s hs => hs⟩
  case part _ _ hk => exact Kind.noConfusion hk

-- By induction on the frames around it, a value is emitted unless it is in dropped metadata.
theorem Frame.carries (hr : Frame frame) (hc : Context context)
    (h : Writable (frame (context (constant .null))))
    (hd : ¬Dropped (constant .null) (frame ∘ context))
    (hg : Conveys (context (constant .null)) (Keeps (context (constant .null)) frame) g) :
    Carries fun v => g (context (constant v)) := by
  have hok : Keeps (context (constant .null)) frame := ⟨h, fun hf => hd (.path hc hf)⟩
  refine hg.carries hok (fun _ => hc.kind_eq rfl) fun w hw => ?_
  induction hc generalizing frame g w
  case hole => exact hw.carries
  case within frame' context' hr' hc' ih =>
    have hd' : ¬Dropped (constant .null) (frame' ∘ context') := fun hd' => hd (.within hr hd')
    have hok' : Keeps (context' (constant .null)) frame' :=
      ⟨hr.writable_hole hok, fun hf => hd' (.path hc' hf)⟩
    have hg' : Conveys (context' (constant .null)) _ fun e' => w (frame' e') := hr'.conveys_view hw
    exact Conveys.carries (f := fun v => context' (constant v)) hg' hok'
      (fun _ => hc'.kind_eq rfl) (ih hr' hok'.writable hd' hg' hok')

theorem compositional_eq : Compositional Eq where
  refl _ := rfl
  append h h' := by rw [h, h']

theorem eq_of_related {x y : Option String} (h : Option.Rel Eq x y) : x = y := by
  cases h
  case none   => rfl
  case some h => rw [h]

-- Whether `null` may be left out is of an effect only on a lone one that is not embedded. Anywhere
-- within an expression, `null` and `undefined` are written, at one and the same place, unless there
-- is no text at all, or they are in metadata that a path does without.
theorem bindingText?_nullable (embedded keepTargetType : Bool) :
    (∀ e, bindingText? e { embedded, keepTargetType, nullable := true } =
        bindingText? e { embedded, keepTargetType, nullable := false } ↔
      ¬(embedded = false ∧ (e = constant .undefined ∨ e = constant .null))) ∧
    (∀ n e, Occurs n e ↔ ∃ context, Context context ∧ context n = e) ∧
    ∀ nullable frame context, Frame frame → Context context →
      let e    := fun v => frame (context (constant v))
      let text := fun v => bindingText? (e v) { embedded, keepTargetType, nullable }
      ((∃ before after, text .null = some (before ++ "null" ++ after) ∧
          text .undefined = some (before ++ "undefined" ++ after)) ↔
        Writable (e .null) ∧ ¬Dropped (constant .null) (frame ∘ context)) ∧
      (¬Writable (e .null) → ∀ v, text v = none) ∧
      (Dropped (constant .null) (frame ∘ context) → ∀ v, text v = text .null) := by
  refine ⟨fun e => ⟨?mp, ?mpr⟩, fun _ _ => occurs_iff_context, ?within⟩
  case mp =>
    rintro h ⟨rfl, rfl | rfl⟩ <;> simp [bindingText?, valueText?] at h
  case mpr =>
    intro h
    have ho : ¬omitted { embedded, keepTargetType, nullable := true } e := by
      simpa [omitted_iff] using h
    have ho' : ¬omitted { embedded, keepTargetType, nullable := false } e := by simp [omitted_iff]
    exact eq_of_related (parallel compositional_eq e ⟨rfl, rfl⟩ (by simp_all))
  case within =>
    intro nullable frame context hr hc e text
    have hnone (hw : ¬Writable (e .null)) (v : Value Expr) : text v = none := by
      refine Option.not_isSome_iff_eq_none.mp fun h => hw ?_
      have hk : (constant v).kind = (constant .null).kind := rfl
      exact (Context.within hr hc).writable hk (fun _ => writable_null)
        (isSome_bindingText?_iff.mp h).right
    have hsame (hd : Dropped (constant .null) (frame ∘ context)) (v : Value Expr) :
        text v = text .null := (hd.coincide v).text _
    refine ⟨⟨?emitted, ?emits⟩, hnone, hsame⟩
    case emitted =>
      rintro ⟨before, after, hn, hu⟩
      refine ⟨by_contra fun hw => ?_, fun hd => ?_⟩
      · rw [hnone hw] at hn
        contradiction
      · rw [hsame hd, hn] at hu
        have hl := congrArg String.length (Option.some.inj hu)
        simp only [String.length_append, Nat.add_left_inj, Nat.add_right_inj] at hl
        exact absurd hl (by decide)
    case emits =>
      rintro ⟨hw, hd⟩
      obtain ⟨inner, k, hi, ⟨before, after, hk⟩, h⟩ := hr.carries hc hw hd
        (hr.conveys { embedded, keepTargetType, nullable })
      refine ⟨before, after, ?_, ?_⟩
      · exact hk "null" ▸ h .null "null" (by simp [valueText?, hi])
      · exact hk "undefined" ▸ h .undefined "undefined" (by simp [valueText?, hi])

-- A path does without its options, `null` among them, if another one cannot be written.
theorem nested_null_missing :
    let options := ObjectLiteral.mk [("empty", constant .null), ("style", unresolvable)]
    let amount  := path { path := "Amount", formatOptions := some options }
    Occurs (constant .null) amount ∧ amount ≠ constant .null ∧ bindingText? amount {} ≠ none ∧
      ∀ before after, bindingText? amount {} ≠ some (before ++ "null" ++ after) := by
  intro options amount
  have ht : bindingText? amount {} = some "\x7bpath: 'Amount'\x7d" := by decide +kernel
  refine ⟨.step mem_cons_self .here, nofun, by simp [ht], fun before after h => ?_⟩
  rw [ht, Option.some.injEq] at h
  have hl : 'l' ∉ "\x7bpath: 'Amount'\x7d".toList := by decide +kernel
  exact hl (by simp [h])

theorem bindingText?_nullable_formatter :
    let frame   := fun e => formatter "first" ([] ++ e :: [path { path := "Name" }])
    let context := (fun e => constant (.array ([] ++ e :: []))) ∘ id
    let text    := fun v => bindingText? (frame (context (constant v))) { nullable := true }
    Frame frame ∧ Context context ∧
      ∃ before after, text .null = some (before ++ "null" ++ after) ∧
        text .undefined = some (before ++ "undefined" ++ after) := by
  intro frame context text
  have hr : Frame frame := .member (.formatter "first") [] _
  have hc : Context context := .within (.member .array [] []) .hole
  have ⟨h, hnone, hsame⟩ := (bindingText?_nullable false false).right.right true frame context hr hc
  have hn : text .null ≠ none := by decide +kernel
  have ht : text (.boolean true) ≠ text .null := by decide +kernel
  exact ⟨hr, hc, h.mpr ⟨by_contra fun hw => hn (hnone hw .null), fun hd => ht (hsame hd _)⟩⟩

example :
    bindingText? (formatter "first" [constant .null]) { nullable := true } =
      some "\x7bvalue: null, formatter: 'first'\x7d" := by
  decide +kernel

end Emission
end BindingAlgebra.Expr
