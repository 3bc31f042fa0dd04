import BindingAlgebra.Binding.Text
import BindingAlgebra.Proofs.Node
import BindingAlgebra.Proofs.Separation

namespace BindingAlgebra

open List BindingText Quoted

-- What joins operands, with a blank on either side.
inductive Joint where
  | comparison (operator : ComparisonOperator)
  | logical (operator : LogicalOperator)
  | plus
  | question
  | colon

def Joint.token : Joint → String
  | comparison op => op.token
  | logical op    => op.token
  | plus          => "+"
  | question      => "?"
  | colon         => ":"

def Joint.all : List Joint :=
  ComparisonOperator.all.map comparison ++ [logical .and, logical .or, plus, question, colon]

-- The tokens of texts within expressions. The parenthesis in front of arguments belongs to the name
-- of what is called, and an opening without a name is a parenthesis that groups.
inductive Token where
  | word (text : String)
  | quoted (text : String)
  | binding (keepTargetType : Bool) (path : PathBinding Expr)
  | bang
  | opening (name : String)
  | sending (name : String)
  | closing
  | comma
  | length
  | joint (joint : Joint)

-- Characters that neither delimit tokens nor introduce them.
def isWordChar (c : Char) : Bool :=
  c ∉ [' ', '!', quoteMark, '(', ')', ',', '.', '{']

def IsWord (text : List Char) : Prop :=
  ∀ c ∈ text, isWordChar c

-- Paths that are bound by their name alone, and whose name says what they are.
structure PathBinding.Plain (b : PathBinding Expr) : Prop where
  untyped : ¬b.hasMetadata
  path    : ∀ c ∈ b.path.toList, c ∉ ['{', '}', '>']
  model   : ∀ m ∈ b.model, m ≠ "" ∧ ∀ c ∈ m.toList, c ∉ ['{', '}', '>']

namespace Token

-- The word that the text of a token begins with, which may be empty.
def lead : Token → List Char
  | word text      => text.toList
  | binding keep _ => [{ keepTargetType := keep : RenderOptions }.separator]
  | opening name   => name.toList
  | _              => []

-- What follows that word.
def rest : Token → List Char
  | word _         => []
  | quoted text    => quoteMark :: (escape text.toList ++ [quoteMark])
  | binding _ b    => '{' :: (b.qualified.toList ++ ['}'])
  | bang           => ['!']
  | opening _      => ['(']
  | sending name   => '.' :: (name.toList ++ ['('])
  | closing        => [')']
  | comma          => [',', ' ']
  | length         => '.' :: "length".toList
  | joint j        => ' ' :: (j.token.toList ++ [' '])

-- The character that follows it.
def mark : Token → Option Char
  | word _             => none
  | quoted _           => quoteMark
  | binding _ _        => '{'
  | bang               => '!'
  | opening _          => '('
  | sending _ | length => '.'
  | closing            => ')'
  | comma              => ','
  | joint _            => ' '

def text (t : Token) : List Char :=
  t.lead ++ t.rest

def Valid : Token → Prop
  | word text                   => IsWord text.toList ∧ text ≠ ""
  | binding _ b                 => b.Plain
  | opening name | sending name => IsWord name.toList
  | _                           => True

-- Tokens that have no end of their own.
def isOpen : Token → Bool
  | word _ | length => true
  | _               => false

-- Tokens that can stand behind these.
def isBreak : Token → Bool
  | sending _ | closing | comma | length | joint _ => true
  | _                                              => false

end Token

def render (ts : List Token) : List Char :=
  ts.flatMap Token.text

def Breaks (ts : List Token) : Prop :=
  ∀ t ∈ ts.head?, t.isBreak

-- Lists of tokens that stay apart in writing.
inductive Lexical : List Token → Prop
  | nil : Lexical []
  | cons : t.Valid → (t.isOpen → Breaks ts) → Lexical ts → Lexical (t :: ts)

-- A text that an open token in front of it neither continues into nor gets another meaning from.
def Parted (text : List Char) : Prop :=
  ∀ c ∈ text.head?, c ∈ [' ', ')', ',', '.']

section Characters

variable {r r' : List Char}

theorem isWord_iff {w : List Char} : IsWord w ↔ w.all isWordChar :=
  all_eq_true.symm

theorem isWordChar_of_isDigit {c : Char} (h : c.isDigit) : isWordChar c := by
  simp only [isWordChar, mem_cons, not_mem_nil, or_false, decide_eq_true_eq]
  rintro (rfl | rfl | rfl | rfl | rfl | rfl | rfl | rfl) <;> revert h <;> decide

theorem Parted.not_isWordChar (h : Parted r) : ∀ c ∈ r.head?, ¬isWordChar c := by
  have : ∀ c ∈ [' ', ')', ',', '.'], ¬isWordChar c := by simp [isWordChar]
  exact fun c hc => this c (h c hc)

-- Within quotes, only what is escaped can look like the end.
theorem escape_append_inj {s s' : List Char}
    (h : escape s ++ quoteMark :: r = escape s' ++ quoteMark :: r') : s = s' ∧ r = r' := by
  have hm : quoteMark ≠ backslash := by decide
  induction s generalizing s'
  case nil =>
    cases s' <;> simp only [escape] at h
    case nil  => simpa using h
    case cons => grind
  case cons d s ih => cases s' <;> simp only [escape] at h <;> grind

theorem Joint.find?_token (j : Joint) : all.find? (·.token = j.token) = some j := by
  cases j
  case comparison op => cases op <;> rfl
  case logical op => cases op <;> rfl
  all_goals rfl

theorem Joint.token_inj {j j' : Joint} (h : j.token = j'.token) : j = j' := by
  have := find?_token j
  rwa [h, find?_token j', Option.some.injEq, eq_comm] at this

theorem Joint.blank_not_mem_token (j : Joint) : ' ' ∉ j.token.toList := by
  cases j
  case comparison op => cases op <;> decide
  case logical op => cases op <;> decide
  all_goals decide

end Characters

namespace PathBinding.Plain

variable {b b' : PathBinding Expr}

theorem qualified_eq (h : b.Plain) {m : String} (hm : b.model = some m) :
    b.qualified.toList = m.toList ++ '>' :: b.path.toList := by
  have := (h.model m hm).left
  simp [PathBinding.qualified, hm, this]

theorem qualified_eq_path (hm : b.model = none) : b.qualified = b.path := by
  simp [PathBinding.qualified, hm]

theorem brace_not_mem (h : b.Plain) : '}' ∉ b.qualified.toList := by
  have hp : '}' ∉ b.path.toList := fun hc => h.path _ hc (by decide)
  cases hm : b.model
  case none => rwa [qualified_eq_path hm]
  case some m =>
    have hn : '}' ∉ m.toList := fun hc => (h.model m hm).right _ hc (by decide)
    simp [h.qualified_eq hm, hn, hp]

theorem path_ne (h : b.Plain) (m : List Char) (p : List Char) : b.path.toList ≠ m ++ '>' :: p := by
  intro he
  exact h.path '>' (by simp [he]) (by decide)

theorem qualified_inj (h : b.Plain) (h' : b'.Plain) (hq : b.qualified = b'.qualified) :
    b = b' := by
  have hm : b.model = b'.model ∧ b.path = b'.path := by
    have hq := congrArg String.toList hq
    cases hm : b.model <;> cases hm' : b'.model
    case none.none =>
      rw [qualified_eq_path hm, qualified_eq_path hm'] at hq
      exact ⟨rfl, String.toList_inj.mp hq⟩
    case none.some =>
      rw [qualified_eq_path hm, h'.qualified_eq hm'] at hq
      exact (h.path_ne _ _ hq).elim
    case some.none =>
      rw [h.qualified_eq hm, qualified_eq_path hm'] at hq
      exact (h'.path_ne _ _ hq.symm).elim
    case some.some m m' =>
      rw [h.qualified_eq hm, h'.qualified_eq hm'] at hq
      have hd : ∀ {b : PathBinding Expr} {m : String}, b.Plain → b.model = some m →
          '>' ∉ m.toList := fun h hm hc => (h.model _ hm).right _ hc (by decide)
      have ⟨hn, hp⟩ := delimited_append_inj (hd h hm) (hd h' hm') hq
      exact ⟨congrArg some (String.toList_inj.mp hn), String.toList_inj.mp hp⟩
  have hu := h.untyped
  have hu' := h'.untyped
  cases b
  cases b'
  simp_all [hasMetadata]

end PathBinding.Plain

namespace Token

section Text

variable (s : String)

@[simp]
theorem text_word : (word s).text = s.toList := append_nil _

@[simp]
theorem text_quoted : (quoted s).text = (quote s).toList := by
  simp [text, lead, rest, quote]

@[simp]
theorem text_binding (keep : Bool) (b : PathBinding Expr) : (binding keep b).text =
    { keepTargetType := keep : RenderOptions }.separator :: (braced b.qualified).toList := by
  simp [text, lead, rest, braced]

@[simp]
theorem text_bang : bang.text = "!".toList := rfl

@[simp]
theorem text_opening : (opening s).text = s.toList ++ "(".toList := rfl

@[simp]
theorem text_sending : (sending s).text = ".".toList ++ s.toList ++ "(".toList := rfl

@[simp]
theorem text_closing : closing.text = ")".toList := rfl

@[simp]
theorem text_comma : comma.text = ", ".toList := rfl

@[simp]
theorem text_length : length.text = ".length".toList := rfl

@[simp]
theorem text_joint (j : Joint) : (joint j).text = " ".toList ++ j.token.toList ++ " ".toList := by
  simp [text, lead, rest]

end Text

variable {t t' : Token} {r r' : List Char}

theorem valid_opening : Valid (opening "") :=
  forall_mem_nil _

theorem head?_rest (t : Token) : t.rest.head? = t.mark := by
  cases t <;> rfl

theorem isWord_lead (h : t.Valid) : IsWord t.lead := by
  cases t
  case word => exact h.left
  case opening => exact h
  case binding keep _ =>
    have : isWordChar '%' ∧ isWordChar '$' := by decide
    cases keep <;> simp [lead, IsWord, RenderOptions.separator, this]
  all_goals simp [lead, IsWord]

theorem not_isWordChar_mark (t : Token) : ∀ c ∈ t.mark, ¬isWordChar c := by
  cases t <;> simp [mark, isWordChar]

theorem eq_word_of_mark_eq_none (h : t.mark = none) : ∃ s, t = word s := by
  cases t
  case word s => exact ⟨s, rfl⟩
  all_goals contradiction

theorem not_isWordChar_rest (h : t.isOpen → Parted r) :
    ∀ c ∈ (t.rest ++ r).head?, ¬isWordChar c := by
  intro c hc
  rw [head?_append, head?_rest] at hc
  cases hm : t.mark
  case some d =>
    rw [hm] at hc
    exact not_isWordChar_mark t c (hm ▸ hc)
  case none =>
    obtain ⟨s, rfl⟩ := eq_word_of_mark_eq_none hm
    exact (h rfl).not_isWordChar c hc

-- What begins with the same word as a word that ends where a text goes on is that word.
theorem mark_eq_none (ht : t.Valid) (hr : t.isOpen → Parted r) (hm : t.mark = none)
    (hl : t.lead = t'.lead) (hs : t.rest ++ r = t'.rest ++ r') : t'.mark = none := by
  obtain ⟨s, rfl⟩ := eq_word_of_mark_eq_none hm
  have hn : t'.lead ≠ [] := by
    rw [← hl]
    simpa [lead] using ht.right
  have hp : ∀ c ∈ t'.mark, c ∈ [' ', ')', ',', '.'] := by
    intro c hc
    refine hr rfl c ?_
    have : r = t'.rest ++ r' := hs
    rw [this, head?_append, head?_rest, hc]
    rfl
  cases t'
  case word => rfl
  case binding | opening => exact absurd (hp _ rfl) (by decide)
  all_goals contradiction

theorem mark_eq (ht : t.Valid) (ht' : t'.Valid) (hr : t.isOpen → Parted r)
    (hr' : t'.isOpen → Parted r') (hl : t.lead = t'.lead) (hs : t.rest ++ r = t'.rest ++ r') :
    t.mark = t'.mark := by
  have hh := congrArg head? hs
  rw [head?_append, head?_append, head?_rest, head?_rest] at hh
  cases hm : t.mark <;> cases hm' : t'.mark
  case none.none => rfl
  case none.some => simp [mark_eq_none ht hr hm hl hs] at hm'
  case some.none => simp [mark_eq_none ht' hr' hm' hl.symm hs.symm] at hm
  case some.some => simpa [hm, hm'] using hh

theorem paren_not_mem {n : List Char} (h : IsWord n) : '(' ∉ n :=
  fun hm => absurd (h _ hm) (by decide)

theorem sending_ne_length {n : String} (hn : IsWord n.toList) (hr' : Parted r') :
    (sending n).rest ++ r ≠ length.rest ++ r' := by
  intro h
  have hw : IsWord "length".toList := isWord_iff.mpr (by decide)
  have h : n.toList ++ '(' :: r = "length".toList ++ r' := by simpa [rest] using h
  have ⟨_, hs⟩ := run_append_inj hn hw (by simp; decide) hr'.not_isWordChar h
  simp [← hs, Parted] at hr'

theorem text_append_inj (ht : t.Valid) (ht' : t'.Valid) (hr : t.isOpen → Parted r)
    (hr' : t'.isOpen → Parted r') (h : t.text ++ r = t'.text ++ r') : t = t' ∧ r = r' := by
  rw [text, text, append_assoc, append_assoc] at h
  have ⟨hl, hs⟩ := run_append_inj (isWord_lead ht) (isWord_lead ht') (not_isWordChar_rest hr)
    (not_isWordChar_rest hr') h
  clear h
  have hm := mark_eq ht ht' hr hr' hl hs
  cases t <;> cases t'
  case word.word s =>
    exact ⟨congrArg word (String.toList_inj.mp hl), hs⟩
  case quoted.quoted s s' =>
    have hs : escape s.toList ++ quoteMark :: r = escape s'.toList ++ quoteMark :: r' := by
      simpa [rest] using hs
    have ⟨he, hr⟩ := escape_append_inj hs
    exact ⟨congrArg quoted (String.toList_inj.mp he), hr⟩
  case opening.opening =>
    exact ⟨congrArg opening (String.toList_inj.mp hl), by simpa [rest] using hs⟩
  case sending.sending n n' =>
    have hs : n.toList ++ '(' :: r = n'.toList ++ '(' :: r' := by simpa [rest] using hs
    have ⟨he, hr⟩ := delimited_append_inj (paren_not_mem ht) (paren_not_mem ht') hs
    exact ⟨congrArg sending (String.toList_inj.mp he), hr⟩
  case joint.joint j j' =>
    have hs : j.token.toList ++ ' ' :: r = j'.token.toList ++ ' ' :: r' := by
      simpa [rest] using hs
    have ⟨he, hr⟩ := delimited_append_inj j.blank_not_mem_token j'.blank_not_mem_token hs
    exact ⟨congrArg joint (Joint.token_inj (String.toList_inj.mp he)), hr⟩
  case sending.length => exact (sending_ne_length ht (hr' rfl) hs).elim
  case length.sending => exact (sending_ne_length ht' (hr rfl) hs.symm).elim
  case binding.binding keep b keep' b' =>
    have hs : b.qualified.toList ++ '}' :: r = b'.qualified.toList ++ '}' :: r' := by
      simpa [rest] using hs
    have ⟨he, hr⟩ := delimited_append_inj ht.brace_not_mem ht'.brace_not_mem hs
    have hk : keep = keep' := by
      cases keep <;> cases keep' <;> simp [lead, RenderOptions.separator] at hl ⊢
    exact ⟨by rw [hk, ht.qualified_inj ht' (String.toList_inj.mp he)], hr⟩
  case bang.bang | closing.closing | comma.comma | length.length => simpa [rest] using hs
  all_goals simp [mark, quoteMark] at hm

theorem text_ne_nil (h : t.Valid) : t.text ≠ [] := by
  cases t
  case word => simpa [text, lead, rest] using h.right
  all_goals simp [text, rest]

end Token

theorem Breaks.parted_render {ts : List Token} (h : Breaks ts) : Parted (render ts) := by
  cases ts
  case nil => exact nofun
  case cons t ts =>
    have hb := h t rfl
    cases t
    case sending | closing | comma | length | joint =>
      simp [render, Token.text, Token.lead, Token.rest, Parted]
    all_goals contradiction

@[simp]
theorem render_nil : render [] = [] := rfl

@[simp]
theorem render_cons (t : Token) (ts : List Token) : render (t :: ts) = t.text ++ render ts :=
  flatMap_cons

@[simp]
theorem render_append (ts ts' : List Token) : render (ts ++ ts') = render ts ++ render ts' :=
  flatMap_append

-- Tokens can be told from their text.
theorem render_inj {ts ts' : List Token} (h : Lexical ts) (h' : Lexical ts')
    (hr : render ts = render ts') : ts = ts' := by
  induction h generalizing ts' <;> cases h'
  case nil.nil => rfl
  case nil.cons ht _ _ => simp [Token.text_ne_nil ht] at hr
  case cons.nil ht _ _ _ => simp [Token.text_ne_nil ht] at hr
  case cons.cons ht ho _ ih _ _ ht' ho' hl' =>
    rw [render_cons, render_cons] at hr
    have ⟨he, hr⟩ := Token.text_append_inj ht ht' (fun h => (ho h).parted_render)
      (fun h => (ho' h).parted_render) hr
    rw [he, ih hl' hr]

end BindingAlgebra
