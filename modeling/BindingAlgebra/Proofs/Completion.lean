import BindingAlgebra.Expr.Call
import BindingAlgebra.Proofs.Node

namespace BindingAlgebra.Expr

open List

-- A composite type completes the parts that it is given: by the keys of the entity in whose context
-- it stands, and by the path under which a customizing is looked up. What is added comes last.

-- What keys add: nothing if a part is bound to the default model anyway, and else a path for each.
inductive Keyed (es : List Expr) : Option (List String) → List Expr → Prop
  | without : Keyed es none []
  | bound : path b ∈ es → b.model = none → Keyed es (some names) []
  | added : (∀ b, path b ∈ es → b.model ≠ none) → Keyed es (some names) (names.map (pathTo ·))

-- The path at which a customizing is looked up, once and for all.
def customizingAt (target : String) : PathBinding Expr where
  path       := target
  targetType := some "any"
  mode       := some .oneTime

-- What a type adds for its customizing: nothing if a part, of whatever model, has the path already.
inductive LookedUp (n : String) (es : List Expr) : List Expr → Prop
  | without : lookupPath? n = none → LookedUp n es []
  | bound : lookupPath? n = some b.path → path b ∈ es → LookedUp n es []
  | added : lookupPath? n = some target → (∀ b, path b ∈ es → b.path ≠ target) →
      LookedUp n es [path (customizingAt target)]

variable {n target : String} {keys : Option (List String)} {es keyed looked : List Expr}

theorem any_path?_iff {p : PathBinding Expr → Bool} :
    es.any (·.path?.any p) ↔ ∃ b, path b ∈ es ∧ p b := by
  rw [any_eq_true]
  constructor
  case mp =>
    rintro ⟨e, he, hp⟩
    cases e <;> simp only [path?, Option.any_none, Option.any_some, Bool.false_eq_true] at hp
    case path b => exact ⟨b, he, hp⟩
  case mpr =>
    rintro ⟨b, hb, hp⟩
    exact ⟨path b, hb, hp⟩

theorem exists_keyed (es : List Expr) (keys : Option (List String)) :
    ∃ keyed, Keyed es keys keyed := by
  cases keys
  case none => exact ⟨[], .without⟩
  case some names =>
    by_cases h : ∃ b, path b ∈ es ∧ b.model = none
    case pos =>
      obtain ⟨b, hb, hm⟩ := h
      exact ⟨[], .bound hb hm⟩
    case neg => exact ⟨_, .added fun b hb hm => h ⟨b, hb, hm⟩⟩

theorem exists_lookedUp (n : String) (es : List Expr) : ∃ looked, LookedUp n es looked := by
  cases ht : lookupPath? n
  case none => exact ⟨[], .without ht⟩
  case some target =>
    by_cases h : ∃ b, path b ∈ es ∧ b.path = target
    case pos =>
      obtain ⟨b, hb, rfl⟩ := h
      exact ⟨[], .bound ht hb⟩
    case neg => exact ⟨_, .added ht fun b hb hp => h ⟨b, hb, hp⟩⟩

namespace Keyed

theorem withKeys_eq (h : Keyed es keys keyed) : withKeys keys es = es ++ keyed := by
  have hd : es.any bindsDefaultModel ↔ ∃ b, path b ∈ es ∧ b.model.isNone := any_path?_iff
  cases h
  case without => simp [withKeys]
  case bound b _ hb hm => rw [withKeys, if_pos (hd.mpr ⟨b, hb, by simp [hm]⟩), append_nil]
  case added names h =>
    rw [withKeys, if_neg]
    rw [hd]
    rintro ⟨b, hb, hm⟩
    exact h b hb (by simpa using hm)

theorem exists_path (h : Keyed es keys keyed) : ∀ e ∈ keyed, ∃ b, e = path b := by
  cases h
  case added => simp [pathTo]
  all_goals exact nofun

-- Keys that have been added are bound to the default model themselves. So they are not added again.
theorem again (h : Keyed es keys keyed) (more : List Expr) :
    Keyed (es ++ keyed ++ more) keys [] := by
  cases h
  case without => exact .without
  case bound hb hm => exact .bound (by simp [hb]) hm
  case added names _ =>
    cases names
    case nil =>
      obtain ⟨keyed, hk⟩ := exists_keyed (es ++ [].map (pathTo ·) ++ more) (some [])
      have hn : keyed = [] := by cases hk <;> rfl
      exact hn ▸ hk
    case cons name names => exact .bound (b := { path := name }) (by simp [pathTo]) rfl

end Keyed

namespace LookedUp

theorem withLookup_eq (h : LookedUp n es looked) : withLookup n es = es ++ looked := by
  cases h
  case without ht => simp [withLookup, ht]
  case bound b ht hb =>
    have ha : es.any (·.path?.any (·.path = b.path)) := any_path?_iff.mpr ⟨b, hb, by simp⟩
    simp only [withLookup, ht, if_pos ha, append_nil]
  case added target ht h =>
    have ha : ¬es.any (·.path?.any (·.path = target)) := by
      rw [any_path?_iff]
      rintro ⟨b, hb, hp⟩
      exact h b hb (by simpa using hp)
    simp only [withLookup, ht, if_neg ha, customizingAt]

theorem exists_path (h : LookedUp n es looked) : ∀ e ∈ looked, ∃ b, e = path b := by
  cases h
  case added => simp
  all_goals exact nofun

-- Whoever has a customizing can look it up.
theorem exists_lookup (h : LookedUp n es looked) (ht : lookupPath? n = some target) :
    ∃ b, path b ∈ es ++ looked ∧ b.path = target := by
  cases h
  case without hn => rw [hn] at ht; contradiction
  case bound b hb hm => exact ⟨b, by simp [hm], Option.some.inj (hb.symm.trans ht)⟩
  case added target' hn _ =>
    exact ⟨customizingAt target', by simp, Option.some.inj (hn.symm.trans ht)⟩

theorem again (h : LookedUp n es looked) : LookedUp n (es ++ looked) [] := by
  cases ht : lookupPath? n
  case none => exact .without ht
  case some target =>
    obtain ⟨b, hb, rfl⟩ := h.exists_lookup ht
    exact .bound ht hb

end LookedUp

theorem composite_eq (o : Option (ObjectLiteral Expr)) (hu : unresolvable ∉ es)
    (hk : Keyed es keys keyed) (hl : LookedUp n (es ++ keyed) looked) :
    composite n es keys o = compositeType n (es ++ keyed ++ looked) o none := by
  rw [composite, if_neg (mt hasUnresolvable_iff.mp hu), hk.withKeys_eq, hl.withLookup_eq]

theorem lookupPath?_of_mem
    (h : (n, target) ∈ [(unitType, unitsPath), (currencyType, currenciesPath)]) :
    lookupPath? n = some target := by
  simp only [mem_cons, Prod.mk.injEq, not_mem_nil, or_false] at h
  rcases h with ⟨rfl, rfl⟩ | ⟨rfl, rfl⟩ <;> rfl

-- What is added to the parts of a composite type is added once, and what is given stays as it is.
theorem composite_completed (n : String) (keys : Option (List String))
    (o : Option (ObjectLiteral Expr)) (h : unresolvable ∉ es) :
    ∃ keyed looked, Keyed es keys keyed ∧ LookedUp n (es ++ keyed) looked ∧
      composite n es keys o = compositeType n (es ++ keyed ++ looked) o none ∧
      (∀ target, (n, target) ∈ [(unitType, unitsPath), (currencyType, currenciesPath)] →
        ∃ b, path b ∈ es ++ keyed ++ looked ∧ b.path = target) ∧
      composite n (es ++ keyed ++ looked) keys o = composite n es keys o := by
  obtain ⟨keyed, hk⟩ := exists_keyed es keys
  obtain ⟨looked, hl⟩ := exists_lookedUp n (es ++ keyed)
  have he := composite_eq o h hk hl
  refine ⟨keyed, looked, hk, hl, he, fun target ht => hl.exists_lookup (lookupPath?_of_mem ht), ?_⟩
  have hu : unresolvable ∉ es ++ keyed ++ looked := by
    simp only [mem_append, not_or]
    refine ⟨⟨h, fun hm => ?_⟩, fun hm => ?_⟩
    case refine_1 => simpa using hk.exists_path _ hm
    case refine_2 => simpa using hl.exists_path _ hm
  have hl' : LookedUp n (es ++ keyed ++ looked ++ []) [] := append_nil _ ▸ hl.again
  rw [he, composite_eq o hu (hk.again looked) hl', append_nil, append_nil]

-- A key whose path is that of the customizing stands for the lookup, too.
theorem composite_completed_customizing_key :
    let es   := [pathTo "/weight" (some "ui")]
    let keys := some ["Product", unitsPath]
    let full := es ++ [pathTo "Product", pathTo unitsPath]
    let o    := some ⟨[("showMeasure", ofBool false)]⟩
    unresolvable ∉ es ∧ composite unitType es keys o = compositeType unitType full o none ∧
      composite unitType full keys o = compositeType unitType full o none := by
  intro es keys full o
  have hu : unresolvable ∉ es := by simp [es, pathTo]
  obtain ⟨keyed, looked, hk, hl, he, _, ha⟩ := composite_completed unitType keys o hu
  have hk : keyed = [pathTo "Product", pathTo unitsPath] := by
    change Keyed es (some ["Product", unitsPath]) keyed at hk
    cases hk
    case bound => simp_all [es, pathTo]
    case added => rfl
  have hl : looked = [] := by
    rcases hl with _ | _ | ⟨ht, hn⟩
    case added =>
      have hp := hn { path := unitsPath } (by simp [hk, pathTo])
      exact absurd (Option.some.inj ht) hp
    all_goals rfl
  rw [hk, hl, append_nil] at he ha
  exact ⟨hu, he, ha.trans he⟩

end BindingAlgebra.Expr
