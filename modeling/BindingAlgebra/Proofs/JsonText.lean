import BindingAlgebra.Json
import BindingAlgebra.Proofs.Separation

namespace BindingAlgebra.Json

open List

section Strings

variable {c d : Char} {r r' : List Char}

-- The characters that do not stand for themselves.
def escaped : List Char :=
  '\x22' :: '\x5c' :: (range 0x20).map Char.ofNat

theorem escapeChar_of_not_mem (h : c ∉ escaped) : escapeChar c = [c] := by
  simp only [escaped, mem_cons, not_or, mem_map, mem_range, not_exists, not_and] at h
  obtain ⟨hq, hb, hc⟩ := h
  have hc : ¬c.toNat < 0x20 := fun h => hc c.toNat h c.ofNat_toNat
  have hne : ∀ d : Char, d.toNat < 0x20 → c ≠ d := fun d hd he => hc (he ▸ hd)
  simp [escapeChar, hq, hb, hc, hne]

theorem head?_escapeChar (c : Char) :
    (escapeChar c).head? = some (if c ∈ escaped then '\x5c' else c) := by
  split
  case isTrue h =>
    have hb : escaped.all fun c => (escapeChar c).head? = some '\x5c' := by decide
    exact of_decide_eq_true (all_eq_true.mp hb c h)
  case isFalse h => rw [escapeChar_of_not_mem h, head?_cons]

-- No escape is the beginning of another one.
theorem escapeChar_prefix_inj (hc : c ∈ escaped) (hd : d ∈ escaped)
    (h : escapeChar c <+: escapeChar d) : c = d := by
  have hp : escaped.all fun c => escaped.all fun d => escapeChar c <+: escapeChar d → c = d := by
    decide +kernel
  exact of_decide_eq_true (all_eq_true.mp (all_eq_true.mp hp c hc) d hd) h

theorem escapeChar_append_inj (h : escapeChar c ++ r = escapeChar d ++ r') : c = d ∧ r = r' := by
  suffices he : c = d from ⟨he, by rw [he] at h; exact append_cancel_left h⟩
  have hb : '\x5c' ∈ escaped := by decide
  have hh := congrArg head? h
  simp only [head?_append, head?_escapeChar, Option.some_or, Option.some.injEq] at hh
  split at hh <;> split at hh
  case isTrue.isTrue hc hd =>
    rcases append_eq_append_iff.mp h with ⟨_, he, _⟩ | ⟨_, he, _⟩
    case inl => exact escapeChar_prefix_inj hc hd ⟨_, he.symm⟩
    case inr => exact (escapeChar_prefix_inj hd hc ⟨_, he.symm⟩).symm
  case isTrue.isFalse hd => exact absurd (hh ▸ hb) hd
  case isFalse.isTrue hc _ => exact absurd (hh ▸ hb) hc
  case isFalse.isFalse => exact hh

theorem quote_cons_ne_escapeChar_append : '\x22' :: r ≠ escapeChar c ++ r' := by
  intro h
  have hh := congrArg head? h
  simp only [head?_cons, head?_append, head?_escapeChar, Option.some_or, Option.some.injEq] at hh
  split at hh
  case isTrue => exact absurd hh (by decide)
  case isFalse hc => exact hc (hh ▸ mem_cons_self)

theorem escaped_append_inj {s s' : List Char}
    (h : s.flatMap escapeChar ++ '\x22' :: r = s'.flatMap escapeChar ++ '\x22' :: r') :
    s = s' ∧ r = r' := by
  induction s generalizing s' <;> cases s' <;>
    simp only [flatMap_nil, flatMap_cons, nil_append, append_assoc] at h
  case nil.nil => exact ⟨rfl, (cons.inj h).right⟩
  case nil.cons => exact absurd h quote_cons_ne_escapeChar_append
  case cons.nil => exact absurd h.symm quote_cons_ne_escapeChar_append
  case cons.cons c s ih d s' =>
    have ⟨hc, h⟩ := escapeChar_append_inj h
    have ⟨hs, hr⟩ := ih h
    exact ⟨by rw [hc, hs], hr⟩

theorem renderString_append_inj {s s' : String}
    (h : (renderString s).toList ++ r = (renderString s').toList ++ r') : s = s' ∧ r = r' := by
  have h : s.toList.flatMap escapeChar ++ '\x22' :: r =
      s'.toList.flatMap escapeChar ++ '\x22' :: r' := by simpa [renderString] using h
  exact (escaped_append_inj h).imp_left String.toList_inj.mp

end Strings

-- What a value is directly made of.
def items : Json → List Json
  | array js  => js
  | object fs => fs.map Prod.snd
  | _         => []

-- Values without decimals. The text of a decimal can be that of `null`, or of another decimal.
inductive Exact : Json → Prop
  | intro : (∀ x, j ≠ decimal x) → (∀ i ∈ j.items, Exact i) → Exact j

-- Values that are written as a word or a number.
inductive Bare : Json → Prop
  | null : Bare null
  | boolean (b : Bool) : Bare (boolean b)
  | integer (n : Int) : Bare (integer n)

-- What can follow the text of a value.
def Ended (text : List Char) : Prop :=
  ∀ c ∈ text.head?, c ∈ [',', ']', '\x7d']

-- Words and numbers consist of these characters.
def isBareChar (c : Char) : Bool :=
  c.isAlphanum || c = '-'

-- The character that the text of any other value begins with.
def mark : Json → Option Char
  | string _ => '\x22'
  | array _  => '['
  | object _ => '\x7b'
  | _        => none

theorem renderItems_eq_map (js : List Json) : renderItems js = js.map render := by
  induction js <;> simp_all [renderItems]

def renderField (f : String × Json) : String :=
  renderString f.1 ++ ":" ++ f.2.render

theorem renderFields_eq_map (fs : List (String × Json)) : renderFields fs = fs.map renderField := by
  induction fs <;> simp_all [renderFields, renderField]

section Values

variable {j j' : Json} {c : Char} {r r' : List Char}

theorem Ended.not_isBareChar (h : Ended r) : ∀ c ∈ r.head?, ¬isBareChar c := by
  have hb : [',', ']', '\x7d'].all (!isBareChar ·) := by decide
  intro c hc
  simpa using all_eq_true.mp hb c (h c hc)

theorem exact_iff : j.Exact ↔ (∀ x, j ≠ decimal x) ∧ ∀ i ∈ j.items, i.Exact where
  mp  := fun ⟨hd, hi⟩ => ⟨hd, hi⟩
  mpr := fun ⟨hd, hi⟩ => ⟨hd, hi⟩

theorem exact_array_iff {js : List Json} : (array js).Exact ↔ ∀ j ∈ js, j.Exact := by
  rw [exact_iff]
  simp [items]

theorem exact_object_iff {fs : List (String × Json)} :
    (object fs).Exact ↔ ∀ f ∈ fs, f.2.Exact := by
  rw [exact_iff]
  simp only [ne_eq, reduceCtorEq, not_false_eq_true, implies_true, true_and, items, forall_mem_map]

theorem exact_string (s : String) : (string s).Exact := by
  rw [exact_iff]
  simp [items]

theorem Exact.ne_decimal (h : j.Exact) (x : Binary64) : j ≠ decimal x :=
  (exact_iff.mp h).left x

theorem Exact.item (h : j.Exact) {i : Json} (hi : i ∈ j.items) : i.Exact :=
  (exact_iff.mp h).right i hi

theorem Exact.bare (h : j.Exact) (hm : j.mark = none) : j.Bare := by
  cases j
  case null => exact .null
  case boolean b => exact .boolean b
  case integer n => exact .integer n
  case decimal x => exact absurd rfl (h.ne_decimal x)
  all_goals contradiction

namespace Bare

theorem exact (h : j.Bare) : j.Exact := by
  rw [exact_iff]
  cases h <;> simp [items]

theorem render_ne_empty (h : j.Bare) : j.render ≠ "" := by
  cases h
  case null => decide
  case boolean b => cases b <;> decide
  case integer n => exact displayInt_ne_empty n

theorem isBareChar_of_mem (h : j.Bare) : ∀ c ∈ j.render.toList, isBareChar c := by
  cases h
  case null => exact all_eq_true.mp rfl
  case boolean b => cases b <;> exact all_eq_true.mp rfl
  case integer n =>
    intro c hc
    rcases isDigit_or_eq_of_mem_displayInt hc with hd | rfl
    case inl => simp [isBareChar, Char.isAlphanum, hd]
    case inr => decide

theorem render_inj (h : j.Bare) (h' : j'.Bare) (he : j.render = j'.render) : j = j' := by
  cases h <;> cases h'
  case null.null => rfl
  case boolean.boolean => rw [displayBool_inj he]
  case integer.integer => rw [displayInt_inj he]
  case null.boolean b | boolean.null b => cases b <;> exact absurd he (by decide)
  case null.integer => exact absurd he (ne_displayInt (by decide))
  case integer.null => exact absurd he.symm (ne_displayInt (by decide))
  case boolean.integer b n => exact absurd he (displayBool_ne_displayInt b n)
  case integer.boolean n b => exact absurd he.symm (displayBool_ne_displayInt b n)

end Bare

theorem head?_render (hm : j.mark = some c) : j.render.toList.head? = some c := by
  cases j <;> cases hm <;> simp [render, renderString]

-- The first character shows what sort of value it is.
theorem filter_head?_render (hj : j.Exact) :
    (j.render.toList ++ r).head?.filter (!isBareChar ·) = j.mark := by
  cases hm : j.mark
  case none =>
    have hb := hj.bare hm
    obtain ⟨c, w, hw⟩ := exists_cons_of_ne_nil (mt String.toList_eq_nil_iff.mp hb.render_ne_empty)
    have hc := hb.isBareChar_of_mem c (hw ▸ mem_cons_self)
    simp [hw, hc]
  case some c =>
    have hc : ¬isBareChar c := by cases j <;> cases hm <;> decide
    simp [head?_append, head?_render hm, hc]

theorem cons_ne_render_append (hj : j.Exact) (hc : c ∈ [',', ']', '\x7d']) :
    c :: r ≠ j.render.toList ++ r' := by
  intro h
  have hm := filter_head?_render (r := r') hj
  rw [← h] at hm
  revert c
  cases j <;> simp [mark, isBareChar]

-- Whether the text of a value can be told from that of any other, whatever follows.
def Apart (j : Json) : Prop :=
  ∀ {j' r r'}, j'.Exact → Ended r → Ended r' → j.render.toList ++ r = j'.render.toList ++ r' →
    j = j' ∧ r = r'

theorem ended_cons (hc : c ∈ [',', ']', '\x7d']) (r : List Char) : Ended (c :: r) := by
  simpa [Ended] using hc

theorem array_append_inj {js js' : List Json} (hj : ∀ j ∈ js, j.Exact) (hj' : ∀ j ∈ js', j.Exact)
    (ha : ∀ j ∈ js, j.Apart)
    (h : (array js).render.toList ++ r = (array js').render.toList ++ r') : js = js' ∧ r = r' := by
  have h : [','].intercalate (js.map (String.toList ∘ render)) ++ ']' :: r =
      [','].intercalate (js'.map (String.toList ∘ render)) ++ ']' :: r' := by
    simpa [render, renderItems_eq_map, String.toList_intercalate] using h
  exact listed_inj Ended (ended_cons (by decide)) (ended_cons (by decide)) (by decide)
    (fun j hm _ _ => cons_ne_render_append (hj j hm) (by decide))
    (fun j hm _ _ => cons_ne_render_append (hj' j hm) (by decide))
    (fun j hm j' hm' => ha j hm (hj' j' hm')) h

theorem object_append_inj {fs fs' : List (String × Json)} (hj' : ∀ f ∈ fs', f.2.Exact)
    (ha : ∀ f ∈ fs, f.2.Apart)
    (h : (object fs).render.toList ++ r = (object fs').render.toList ++ r') :
    fs = fs' ∧ r = r' := by
  have h : [','].intercalate (fs.map (String.toList ∘ renderField)) ++ '\x7d' :: r =
      [','].intercalate (fs'.map (String.toList ∘ renderField)) ++ '\x7d' :: r' := by
    simpa [render, renderFields_eq_map, String.toList_intercalate] using h
  have hc : ∀ (f : String × Json) s s', '\x7d' :: s ≠ (renderField f).toList ++ s' := by
    simp [renderField, renderString]
  refine listed_inj Ended (ended_cons (by decide)) (ended_cons (by decide)) (by decide)
    (fun f _ => hc f) (fun f _ => hc f) ?_ h
  intro f hf f' hf' s s' hs hs' h
  have h : (renderString f.1).toList ++ ':' :: (f.2.render.toList ++ s) =
      (renderString f'.1).toList ++ ':' :: (f'.2.render.toList ++ s') := by
    simpa [renderField] using h
  have ⟨hk, h⟩ := renderString_append_inj h
  have ⟨hv, hs⟩ := ha f hf (hj' f' hf') hs hs' (cons.inj h).right
  exact ⟨Prod.ext hk hv, hs⟩

-- The first character tells the sort of a value. A word or number then ends where other characters
-- begin, a string ends at its quote, and a collection, whose elements are told apart by induction,
-- ends at its bracket.
theorem Exact.apart (hj : j.Exact) : j.Apart := by
  induction hj
  case intro j hd hi ih =>
    have hj : j.Exact := ⟨hd, hi⟩
    intro j' r r' hj' hr hr' h
    have hm : j.mark = j'.mark := by
      rw [← filter_head?_render hj, h, filter_head?_render hj']
    cases j
    case string s =>
      cases j'
      case string s' => exact (renderString_append_inj h).imp_left (congrArg string)
      all_goals simp [mark] at hm
    case array js =>
      cases j'
      case array js' =>
        exact (array_append_inj hi (fun _ => hj'.item) ih h).imp_left (congrArg array)
      all_goals simp [mark] at hm
    case object fs =>
      cases j'
      case object fs' =>
        refine (object_append_inj ?_ ?_ h).imp_left (congrArg object)
        case refine_1 => exact fun f hf => hj'.item (mem_map_of_mem hf)
        case refine_2 => exact fun f hf => ih f.2 (mem_map_of_mem hf)
      all_goals simp [mark] at hm
    all_goals
      have hb := hj.bare rfl
      have hb' := hj'.bare hm.symm
      have ⟨he, hr⟩ := run_append_inj hb.isBareChar_of_mem hb'.isBareChar_of_mem
        hr.not_isBareChar hr'.not_isBareChar h
      exact ⟨hb.render_inj hb' (String.toList_inj.mp he), hr⟩

-- Two values without decimals never have the same text.
theorem render_inj (hj : j.Exact) (hj' : j'.Exact) (h : j.render = j'.render) : j = j' := by
  have ended : Ended [] := by simp [Ended]
  exact (hj.apart hj' ended ended (congrArg (·.toList ++ []) h)).left

end Values
end BindingAlgebra.Json
