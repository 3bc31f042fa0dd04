import BindingAlgebra.Text

namespace BindingAlgebra.Quoted

open List

-- What stands in a literal that has been opened, up to the first quote that ends it, and what is
-- left behind that quote. A backslash stands for the character after it.
def readBody? : List Char → Option (List Char × List Char)
  | []        => none
  | c :: text =>
    if c = quoteMark then some ([], text)
    else if c = backslash then
      match text with
      | []        => none
      | d :: text => (readBody? text).map (.map (d :: ·) id)
    else (readBody? text).map (.map (c :: ·) id)

-- The string that a literal at the beginning of a text stands for, and the rest of the text.
def read? (text : String) : Option (String × String) :=
  match text.toList with
  | []        => none
  | c :: text => if c = quoteMark then (readBody? text).map (.map .ofList .ofList) else none

-- A pass over a text that puts a backslash before every occurrence of a character.
def escapeAll (c : Char) (text : List Char) : List Char :=
  text.flatMap fun d => if d = c then [backslash, d] else [d]

theorem quoteMark_ne_backslash : quoteMark ≠ backslash := by
  decide

variable {c : Char} {s t u r : List Char}

-- The pass for backslashes comes first, since the one for quotes adds some of its own.
theorem escape_eq_escapeAll (s : List Char) :
    escape s = escapeAll quoteMark (escapeAll backslash s) := by
  induction s
  case nil => rfl
  case cons c s ih =>
    simp only [escapeAll] at ih
    by_cases hq : c = quoteMark
    case pos => simp [escape, escapeAll, hq, quoteMark_ne_backslash, ih]
    case neg =>
      by_cases hb : c = backslash
      case pos => simp [escape, escapeAll, hb, quoteMark_ne_backslash.symm, ih]
      case neg => simp [escape, escapeAll, hq, hb, ih]

example : escapeAll backslash (escapeAll quoteMark [quoteMark]) ≠ escape [quoteMark] := by decide

section Reading

theorem readBody?_quoteMark (r : List Char) : readBody? (quoteMark :: r) = some ([], r) := by
  rw [readBody?.eq_def]
  exact if_pos rfl

theorem readBody?_backslash (c : Char) (r : List Char) :
    readBody? (backslash :: c :: r) = (readBody? r).map (.map (c :: ·) id) := by
  simp [readBody?, quoteMark_ne_backslash.symm]

theorem readBody?_plain (hq : c ≠ quoteMark) (hb : c ≠ backslash) (r : List Char) :
    readBody? (c :: r) = (readBody? r).map (.map (c :: ·) id) := by
  rw [readBody?.eq_def]
  simp only [if_neg hq, if_neg hb]

theorem readBody?_escape (s r : List Char) :
    readBody? (escape s ++ quoteMark :: r) = some (s, r) := by
  induction s
  case nil => exact readBody?_quoteMark r
  case cons c s ih =>
    rw [escape]
    split
    case isTrue =>
      rw [cons_append, cons_append, readBody?_backslash, ih]
      rfl
    case isFalse h =>
      rw [not_or] at h
      rw [cons_append, readBody?_plain h.left h.right, ih]
      rfl

-- What has been read does not depend on what follows.
theorem readBody?_append (h : readBody? s = some (t, r)) (u : List Char) :
    readBody? (s ++ u) = some (t, r ++ u) := by
  fun_induction readBody? s generalizing t
  case case1 | case3 => contradiction
  case case2 =>
    cases h
    exact readBody?_quoteMark (r ++ u)
  case case4 d text _ ih =>
    obtain ⟨⟨t, r⟩, ht, he⟩ := Option.map_eq_some_iff.mp h
    cases he
    rw [cons_append, cons_append, readBody?_backslash, ih ht]
    rfl
  case case5 c text hq hb ih =>
    obtain ⟨⟨t, r⟩, ht, he⟩ := Option.map_eq_some_iff.mp h
    cases he
    rw [cons_append, readBody?_plain hq hb, ih ht]
    rfl

end Reading

theorem toList_quote_append (s rest : String) :
    (quote s ++ rest).toList = quoteMark :: (escape s.toList ++ quoteMark :: rest.toList) := by
  simp [quote]

theorem read?_quote_append (s rest : String) : read? (quote s ++ rest) = some (s, rest) := by
  simp only [read?, toList_quote_append, if_pos, readBody?_escape, Option.map_some, Prod.map_apply,
    String.ofList_toList]

theorem read?_append {text value rest : String} (h : read? text = some (value, rest))
    (others : String) : read? (text ++ others) = some (value, rest ++ others) := by
  unfold read? at h ⊢
  rw [String.toList_append]
  split at h
  case h_1 => contradiction
  case h_2 c body hc =>
    rw [hc, cons_append]
    split at h
    case isFalse => contradiction
    case isTrue hq =>
      obtain ⟨⟨t, r⟩, ht, he⟩ := Option.map_eq_some_iff.mp h
      cases he
      simp [hq, readBody?_append ht]

-- Whatever follows a quoted string, the string is read back and the rest is left. So no string
-- leaves its literal early or runs on behind it: no other beginning of the text is a literal.
theorem quote_read_back (s rest : String) :
    quote s = .ofList (quoteMark :: escapeAll quoteMark (escapeAll backslash s.toList) ++
        [quoteMark]) ∧
      read? (quote s ++ rest) = some (s, rest) ∧
      (∀ t others, quote s ++ rest = quote t ++ others → s = t ∧ rest = others) ∧
      ∀ literal others value, quote s ++ rest = literal ++ others →
        read? literal = some (value, "") → literal = quote s ∧ value = s := by
  refine ⟨?passes, read?_quote_append s rest, ?injective, ?whole⟩
  case passes => rw [quote, escape_eq_escapeAll]
  case injective =>
    intro t others h
    have ht := read?_quote_append t others
    rw [← h, read?_quote_append] at ht
    simpa using ht
  case whole =>
    intro literal others value h hv
    have hr := read?_append hv others
    rw [← h, read?_quote_append, String.empty_append] at hr
    obtain ⟨rfl, rfl⟩ : s = value ∧ rest = others := by simpa using hr
    exact ⟨(String.append_left_inj _).mp h.symm, rfl⟩

theorem quote_read_back_trailing_backslash :
    let name    := "it's \x5c"
    let literal := "'it\x5c's \x5c\x5c'"
    let rest    := ", 'x'"
    quote name ++ rest = literal ++ rest ∧ read? literal = some (name, "") ∧
      literal = quote name := by
  intro name literal rest
  have ht : quote name ++ rest = literal ++ rest := by decide +kernel
  have hv : read? literal = some (name, "") := by decide +kernel
  have ⟨_, _, _, whole⟩ := quote_read_back name rest
  exact ⟨ht, hv, (whole literal rest name ht hv).left⟩

end BindingAlgebra.Quoted
