import BindingAlgebra.Proofs.Separation
import BindingAlgebra.Text

namespace BindingAlgebra

open List Quoted

-- How far a text has been read. What is due are the closing brackets of those that are open, the
-- latest one first.
inductive Reading where
  | code (due : List Char)
  | literal (due : List Char)
  -- Right behind a backslash in a literal.
  | escaped (due : List Char)
  deriving DecidableEq

namespace Reading

def brackets : List (Char × Char) :=
  [('(', ')'), ('[', ']'), ('\x7b', '\x7d')]

-- The characters that matter outside of literals. A backslash has no place there.
def special : List Char :=
  quoteMark :: backslash :: brackets.flatMap fun (opening, closing) => [opening, closing]

def codeStep? (due : List Char) (c : Char) : Option Reading :=
  if c = quoteMark then some (literal due)
  else
    match brackets.lookup c with
    | some closing => some (code (closing :: due))
    | none         =>
      if c ∉ special then some (code due)
      else if due.head? = some c then some (code due.tail)
      else none

def step? : Reading → Char → Option Reading
  | code due, c    => codeStep? due c
  | literal due, c =>
    some (if c = quoteMark then code due else if c = backslash then escaped due else literal due)
  | escaped due, _ => some (literal due)

def read? (r : Reading) (text : List Char) : Option Reading :=
  text.foldlM step? r

end Reading

open Reading

-- Every literal is closed, every closing bracket belongs to the latest open one, and none stays
-- open.
def WellFormed (text : String) : Prop :=
  read? (code []) text.toList = some (code [])

instance (text : String) : Decidable (WellFormed text) :=
  inferInstanceAs (Decidable (_ = _))

example : WellFormed "\x7b= f('[\x5c'', [%\x7b/a\x7d])\x7d" := by decide +kernel
example : ¬WellFormed "(]" := by decide +kernel

-- Texts that leave open what was open before them, and nothing else.
def Balanced (text : String) : Prop :=
  ∀ due, read? (code due) text.toList = some (code due)

-- Texts that may stand outside of literals as they are.
def Clean (text : String) : Prop :=
  ∀ c ∈ text.toList, c ∉ special

instance (text : String) : Decidable (Clean text) :=
  decidable_of_iff (text.toList.all (· ∉ special)) (by simp [Clean])

namespace Reading

variable {c opening closing : Char} {due s t : List Char} {r : Reading}

theorem read?_cons (r : Reading) (c : Char) (t : List Char) :
    r.read? (c :: t) = (r.step? c).bind (·.read? t) :=
  foldlM_cons

theorem read?_append (r : Reading) (s t : List Char) :
    r.read? (s ++ t) = (r.read? s).bind (·.read? t) :=
  foldlM_append

theorem step?_code_of_not_special (h : c ∉ special) : (code due).step? c = some (code due) := by
  have hq : c ≠ quoteMark := fun he => h (he ▸ mem_cons_self)
  have hb : brackets.lookup c = none := by
    have hm : ∀ p ∈ brackets, p.1 ∈ special := by decide
    exact lookup_eq_none_iff.mpr fun p hp => bne_iff_ne.mpr fun he => h (he ▸ hm p hp)
  simp [step?, codeStep?, hq, hb, h]

theorem step?_code_opening (h : (opening, closing) ∈ brackets) :
    (code due).step? opening = some (code (closing :: due)) := by
  simp only [brackets, mem_cons, Prod.mk.injEq, not_mem_nil, or_false] at h
  rcases h with ⟨rfl, rfl⟩ | ⟨rfl, rfl⟩ | ⟨rfl, rfl⟩ <;> rfl

theorem step?_code_closing (h : (opening, closing) ∈ brackets) :
    (code (closing :: due)).step? closing = some (code due) := by
  simp only [brackets, mem_cons, Prod.mk.injEq, not_mem_nil, or_false] at h
  rcases h with ⟨rfl, rfl⟩ | ⟨rfl, rfl⟩ | ⟨rfl, rfl⟩ <;> rfl

theorem read?_literal_escape (s : List Char) :
    (literal due).read? (escape s) = some (literal due) := by
  induction s
  case nil => rfl
  case cons c s ih =>
    rw [escape]
    split
    case isTrue =>
      have : backslash ≠ quoteMark := by decide
      simp [read?_cons, step?, ih, this]
    case isFalse h =>
      rw [not_or] at h
      simp [read?_cons, step?, h, ih]

end Reading

namespace Balanced

variable {opening closing : Char} {text s t sep : String} {ss : List String}

theorem wellFormed (h : Balanced s) : WellFormed s :=
  h []

theorem empty : Balanced "" :=
  fun _ => rfl

theorem append (hs : Balanced s) (ht : Balanced t) : Balanced (s ++ t) := by
  intro due
  rw [String.toList_append, read?_append, hs, Option.bind_some, ht]

theorem enclose (hb : (opening, closing) ∈ brackets) (hs : s.toList = [opening])
    (ht : t.toList = [closing]) (h : Balanced text) : Balanced (s ++ text ++ t) := by
  intro due
  rw [String.toList_append, String.toList_append, hs, ht, singleton_append, cons_append,
    read?_cons, step?_code_opening hb, Option.bind_some, read?_append, h, Option.bind_some,
    read?_cons, step?_code_closing hb]
  rfl

theorem parenthesized (h : Balanced text) : Balanced ("(" ++ text ++ ")") := by
  have hb : ('(', ')') ∈ brackets := by decide
  exact enclose hb rfl rfl h

theorem bracketed (h : Balanced text) : Balanced ("[" ++ text ++ "]") := by
  have hb : ('[', ']') ∈ brackets := by decide
  exact enclose hb rfl rfl h

theorem braced (h : Balanced text) : Balanced ("\x7b" ++ text ++ "\x7d") := by
  have hb : ('\x7b', '\x7d') ∈ brackets := by decide
  exact enclose hb rfl rfl h

theorem quote (s : String) : Balanced (quote s) := by
  intro due
  have : (code due).step? quoteMark = some (literal due) := rfl
  rw [Quoted.quote, String.toList_ofList, cons_append, read?_cons, this, Option.bind_some,
    read?_append, read?_literal_escape]
  rfl

theorem intercalate (hs : Balanced sep) (h : ∀ s ∈ ss, Balanced s) :
    Balanced (sep.intercalate ss) := by
  induction ss
  case nil => exact empty
  case cons s ss ih =>
    rw [forall_mem_cons] at h
    by_cases hn : ss = []
    case pos => simpa [hn] using h.left
    case neg =>
      rw [String.intercalate_cons_of_ne_nil hn]
      exact (h.left.append hs).append (ih h.right)

end Balanced

theorem Clean.balanced {text : String} (h : Clean text) : Balanced text := by
  intro due
  unfold Clean at h
  generalize text.toList = s at h ⊢
  induction s
  case nil => rfl
  case cons c s ih =>
    have ⟨hc, hs⟩ := forall_mem_cons.mp h
    rw [read?_cons, step?_code_of_not_special hc, Option.bind_some, ih hs]

end BindingAlgebra
