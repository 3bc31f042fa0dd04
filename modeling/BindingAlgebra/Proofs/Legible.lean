import BindingAlgebra.Proofs.Token

namespace BindingAlgebra

open List BindingText Quoted

-- Values with a text that is a word or stands in quotes.
inductive Value.Literal : Value Expr → Prop
  | undefined : Literal undefined
  | null : Literal null
  | boolean (b : Bool) : Literal (boolean b)
  | integer (n : Int) : Literal (integer n)
  | string (s : String) : Literal (string s)

def Value.token : Value Expr → Token
  | string s => .quoted s
  | v        => .word v.display

section Token

variable (v : Value Expr) (keep : Bool) (b : PathBinding Expr) (n : String)

@[simp]
theorem Value.token_ne_binding : v.token ≠ .binding keep b := by
  cases v <;> nofun

@[simp]
theorem Value.binding_ne_token : .binding keep b ≠ v.token :=
  (v.token_ne_binding keep b).symm

@[simp]
theorem Value.token_ne_opening : v.token ≠ .opening n := by
  cases v <;> nofun

@[simp]
theorem Value.opening_ne_token : .opening n ≠ v.token :=
  (v.token_ne_opening n).symm

end Token

namespace Value.Literal

variable {v v' : Value Expr}

theorem valid_token (h : v.Literal) : v.token.Valid := by
  have hw : ∀ s : String, s ≠ "" → s.toList.all isWordChar → (Token.word s).Valid :=
    fun s hs hw => ⟨isWord_iff.mpr hw, hs⟩
  cases h
  case string => trivial
  case undefined | null => exact hw _ (by decide) (by decide)
  case boolean b => cases b <;> exact hw _ (by decide) (by decide)
  case integer n =>
    refine ⟨fun c hc => ?_, displayInt_ne_empty n⟩
    rcases isDigit_or_eq_of_mem_displayInt hc with hd | rfl
    case inl => exact isWordChar_of_isDigit hd
    case inr => decide

-- Different literals are different tokens.
theorem token_inj (h : v.Literal) (h' : v'.Literal) (ht : v.token = v'.token) : v = v' := by
  have number : ∀ {n : Int} {s : String}, ¬s.toList.all (fun c => c.isDigit || c = '-') →
      Token.word s ≠ .word (displayInt n) := fun hs h => ne_displayInt hs (Token.word.inj h)
  cases h <;> cases h'
  case undefined.undefined | null.null => rfl
  case integer.integer => rw [displayInt_inj (Token.word.inj ht)]
  case string.string => rw [Token.quoted.inj ht]
  case undefined.integer | null.integer => exact absurd ht (number (by decide))
  case integer.undefined | integer.null => exact absurd ht.symm (number (by decide))
  case boolean.integer b n => cases b <;> exact absurd ht (number (by decide))
  case integer.boolean n b => cases b <;> exact absurd ht.symm (number (by decide))
  case boolean.boolean b c => cases b <;> cases c <;> simp_all [token, display, displayBool]
  case undefined.boolean b | null.boolean b | boolean.undefined b | boolean.null b =>
    cases b <;> simp [token, display, displayBool] at ht
  all_goals simp [token, display] at ht

theorem valueText?_eq {o : RenderOptions} (h : v.Literal) (ho : o.embedded) :
    Expr.valueText? v o = some (.ofList v.token.text) := by
  cases h <;> simp [Expr.valueText?, ho, token, display]

end Value.Literal

-- The kinds of operator expressions.
def Kind.isOperator : Kind → Bool
  | not | truthy | set | comparison | concat => true
  | _                                        => false

namespace Expr

-- Literals, plain paths and their lengths, and what operators make of them.
def ElementaryNode : Expr → Prop
  | constant v                                         => v.Literal
  | path b                                             => b.Plain
  | length e                                           => e.isPath
  | set _ es | concat es                               => 2 ≤ es.length
  | not _ | truthy _ | comparison _ _ _ | ifElse _ _ _ => True
  | _                                                  => False

-- Calls of functions whose names are words can be added to these.
def CallingNode : Expr → Prop
  | call _ n _ => n ≠ "" ∧ IsWord n.toList
  | e          => ElementaryNode e

-- What a call is upon is no operator expression.
def Received : Expr → Prop
  | call (some e) _ _ => ¬e.kind.isOperator
  | _                 => True

def LegibleNode (e : Expr) : Prop :=
  CallingNode e ∧ Received e

abbrev Elementary (e : Expr) : Prop :=
  AllNodes ElementaryNode e

abbrev Calling (e : Expr) : Prop :=
  AllNodes CallingNode e

abbrev Legible (e : Expr) : Prop :=
  AllNodes LegibleNode e

theorem ElementaryNode.legible {e : Expr} (h : ElementaryNode e) : LegibleNode e := by
  cases e
  case call => contradiction
  all_goals exact ⟨h, trivial⟩

theorem Elementary.legible {e : Expr} (h : Elementary e) : Legible e :=
  fun n hn => (h n hn).legible

theorem Legible.calling {e : Expr} (h : Legible e) : Calling e :=
  fun n hn => (h n hn).left

def grouped (e : Expr) (ts : List Token) : List Token :=
  if needsParenthesis e then .opening "" :: (ts ++ [.closing]) else ts

mutual

-- The tokens that a text within an expression consists of.
def tokens : Expr → Bool → List Token
  | constant v, _          => [v.token]
  | path b, keep           => [.binding keep b]
  | length e, keep         => e.tokens keep ++ [.length]
  | not e, keep            => .bang :: grouped e (e.tokens keep)
  | truthy e, keep         => .bang :: .bang :: grouped e (e.tokens keep)
  | comparison op l r, keep =>
    grouped l (l.tokens keep) ++ .joint (.comparison op) :: grouped r (r.tokens keep)
  | set op es, _           => [.joint (.logical op)].intercalate (groupedAll es true)
  | concat es, _           => [.joint .plus].intercalate (groupedAll es true)
  | ifElse c t f, keep     =>
    .opening "" :: (c.tokens keep ++ .joint .question :: (t.tokens keep ++
      .joint .colon :: (f.tokens keep ++ [.closing])))
  | call none n es, keep     =>
    .opening n :: ([.comma].intercalate (tokensAll es keep) ++ [.closing])
  | call (some e) n es, keep =>
    e.tokens keep ++ .sending n :: ([.comma].intercalate (tokensAll es keep) ++ [.closing])
  | _, _ => []
termination_by structural e => e

def tokensAll : List Expr → Bool → List (List Token)
  | [], _         => []
  | e :: es, keep => e.tokens keep :: tokensAll es keep
termination_by structural es => es

def groupedAll : List Expr → Bool → List (List Token)
  | [], _         => []
  | e :: es, keep => grouped e (e.tokens keep) :: groupedAll es keep
termination_by structural es => es

end

def operandTokens (e : Expr) (keep : Bool) : List Token :=
  grouped e (e.tokens keep)

theorem tokensAll_eq_map (es : List Expr) (keep : Bool) :
    tokensAll es keep = es.map (·.tokens keep) := by
  induction es <;> simp_all [tokensAll]

theorem groupedAll_eq_map (es : List Expr) (keep : Bool) :
    groupedAll es keep = es.map (·.operandTokens keep) := by
  induction es <;> simp_all [groupedAll, operandTokens]

theorem render_intercalate (t : Token) (tss : List (List Token)) :
    render ([t].intercalate tss) = t.text.intercalate (tss.map render) := by
  cases tss
  case nil => rfl
  case cons ts tss =>
    simp only [intercalate_cons_eq_append, render_append, map_cons, flatMap_map]
    simp [render, flatMap_assoc]

section Written

variable {e : Expr} {es : List Expr} {o : RenderOptions} {keep : Bool}

theorem toList_asOperand (ts : List Token) :
    (asOperand e (.ofList (render ts))).toList = render (grouped e ts) := by
  rw [asOperand, grouped]
  split <;> simp

theorem texts?_eq
    (h : ∀ e ∈ es, bindingText? e o = some (.ofList (render (e.tokens keep)))) :
    texts? es o = some ((tokensAll es keep).map (.ofList ∘ render)) := by
  induction es
  case nil => rfl
  case cons e es ih => simp_all [texts?, tokensAll]

theorem operandTexts?_eq
    (h : ∀ e ∈ es, bindingText? e o = some (.ofList (render (e.tokens keep)))) :
    operandTexts? es o = some ((groupedAll es keep).map (.ofList ∘ render)) := by
  induction es
  case nil => rfl
  case cons e es ih => simp_all [operandTexts?, groupedAll, ← toList_asOperand]

theorem toList_intercalate_map (t : Token) (tss : List (List Token)) (s : String)
    (ht : t.text = s.toList) :
    (s.intercalate (tss.map (.ofList ∘ render))).toList = render ([t].intercalate tss) := by
  have : String.toList ∘ .ofList ∘ render = render := by
    funext ts
    simp
  rw [String.toList_intercalate, render_intercalate, ht, map_map, this]

theorem pathText_eq {b : PathBinding Expr} (h : b.Plain) : pathText b o = braced b.qualified := by
  rw [pathText]
  exact if_neg h.untyped

-- A text within an expression is made of the tokens of the expression.
theorem bindingText?_eq (h : Calling e) (ho : o.embedded) :
    bindingText? e o = some (.ofList (render (e.tokens o.keepTargetType))) := by
  induction e using children_induction generalizing o
  case step e ih =>
    replace ih : ∀ c ∈ e.children, ∀ o : RenderOptions, o.embedded →
        bindingText? c o = some (.ofList (render (c.tokens o.keepTargetType))) :=
      fun c hc o ho => ih c hc (h.child hc) ho
    have some_eq : ∀ {s : String} {cs : List Char}, s.toList = cs → some s = some (.ofList cs) := by
      rintro s _ rfl
      simp
    have hn := h.node
    cases e
    case constant v => simpa [bindingText?, tokens] using hn.valueText?_eq ho
    case path b =>
      rw [bindingText?, pathText_eq hn, embed, if_pos ho]
      apply some_eq
      simp [tokens, RenderOptions.separator]
    case not e | truthy e =>
      simp only [bindingText?, ih e mem_cons_self o.operand rfl, wrap, if_pos ho]
      apply some_eq
      simp [toList_asOperand, tokens]
    case length e =>
      simp only [bindingText?, ih e mem_cons_self o.operand rfl, wrap, if_pos ho]
      apply some_eq
      simp [tokens]
    case comparison op l r =>
      have hl := ih l (by simp [children]) o.operand rfl
      have hr := ih r (by simp [children]) o.operand rfl
      simp only [bindingText?, hl, hr, wrap, if_pos ho]
      apply some_eq
      simp [toList_asOperand, tokens, Joint.token]
    case set op es =>
      have hs := operandTexts?_eq fun e (he : e ∈ es) => ih e he o.typedOperand rfl
      simp only [bindingText?, hs, wrap, if_pos ho]
      apply some_eq
      exact toList_intercalate_map _ _ _ (by simp [Joint.token])
    case concat es =>
      have hs := operandTexts?_eq fun e (he : e ∈ es) => ih e he o.typedOperand rfl
      simp only [bindingText?, hs, wrap, if_pos ho]
      apply some_eq
      exact toList_intercalate_map _ _ _ (by simp [Joint.token])
    case ifElse c t f =>
      have hc := ih c (by simp [children]) o.operand rfl
      have ht := ih t (by simp [children]) o.operand rfl
      have hf := ih f (by simp [children]) o.operand rfl
      simp only [bindingText?, hc, ht, hf, if_pos ho]
      apply some_eq
      simp [tokens, Joint.token]
    case call receiver n es =>
      have hs := texts?_eq fun e (he : e ∈ es) => ih e (by simp [children, he]) o.operand rfl
      have hl : (listed ((tokensAll es o.keepTargetType).map (.ofList ∘ render))).toList =
          render ([.comma].intercalate (tokensAll es o.keepTargetType)) :=
        toList_intercalate_map _ _ _ rfl
      cases receiver
      case none =>
        simp only [bindingText?, hs]
        apply some_eq
        simp [tokens, hl]
      case some e =>
        have he := ih e (by simp [children]) o.operand rfl
        simp only [bindingText?, hs, he]
        apply some_eq
        simp [tokens, hl]
    all_goals contradiction

end Written

-- Tokens that stay apart in front of what breaks off.
def Joinable (ts : List Token) : Prop :=
  ∀ r, Breaks r → Lexical r → Lexical (ts ++ r)

namespace Joinable

variable {t : Token} {ts us : List Token} {tss : List (List Token)}

theorem single (ht : t.Valid) : Joinable [t] :=
  fun _ hb hr => .cons ht (fun _ => hb) hr

theorem cons (ht : t.Valid) (ho : t.isOpen = false) (h : Joinable ts) : Joinable (t :: ts) :=
  fun r hb hr => .cons ht (by simp [ho]) (h r hb hr)

theorem append (h : Joinable ts) (ht : t.isBreak) (hu : Joinable (t :: us)) :
    Joinable (ts ++ t :: us) := by
  intro r hb hr
  rw [append_assoc]
  exact h _ (by simpa [Breaks] using ht) (hu r hb hr)

theorem closed (h : Joinable ts) : Joinable (ts ++ [.closing]) :=
  h.append rfl (single trivial)

theorem grouped (e : Expr) (h : Joinable ts) : Joinable (grouped e ts) := by
  rw [Expr.grouped]
  split
  case isTrue  => exact h.closed.cons Token.valid_opening rfl
  case isFalse => exact h

theorem intercalate (ht : t.Valid) (ho : t.isOpen = false) (hb : t.isBreak)
    (h : ∀ ts ∈ tss, Joinable ts) : Joinable ([t].intercalate tss) := by
  induction tss
  case nil => exact fun _ _ hr => hr
  case cons ts tss ih =>
    have ⟨hs, h⟩ := forall_mem_cons.mp h
    cases tss
    case nil => simpa using hs
    case cons => simpa [intercalate_cons_cons] using hs.append hb ((ih h).cons ht ho)

end Joinable

theorem joinable_tokens {e : Expr} {keep : Bool} (h : Legible e) :
    Joinable (e.tokens keep) := by
  induction e using children_induction generalizing keep
  case step e ih =>
    replace ih : ∀ c ∈ e.children, ∀ keep, Joinable (c.tokens keep) :=
      fun c hc keep => ih c hc (h.child hc)
    have hn := h.node.left
    cases e
    case constant v => exact .single (Value.Literal.valid_token hn)
    case path b => exact .single hn
    case not e => exact .cons trivial rfl ((ih e mem_cons_self _).grouped e)
    case truthy e =>
      exact .cons trivial rfl (.cons trivial rfl ((ih e mem_cons_self _).grouped e))
    case length e => exact (ih e mem_cons_self _).append rfl (.single trivial)
    case comparison op l r =>
      have hl := ih l (by simp [children]) keep
      have hr := ih r (by simp [children]) keep
      exact (hl.grouped l).append rfl (.cons trivial rfl (hr.grouped r))
    case ifElse c t f =>
      have hc := ih c (by simp [children]) keep
      have ht := ih t (by simp [children]) keep
      have hf := ih f (by simp [children]) keep
      have hb : Joinable (t.tokens keep ++ .joint .colon :: (f.tokens keep ++ [.closing])) :=
        ht.append rfl (.cons trivial rfl hf.closed)
      exact .cons Token.valid_opening rfl (hc.append rfl (.cons trivial rfl hb))
    case set | concat =>
      rw [tokens, groupedAll_eq_map]
      refine .intercalate trivial rfl rfl fun ts hts => ?_
      obtain ⟨e, he, rfl⟩ := mem_map.mp hts
      exact (ih e he _).grouped e
    case call receiver n es =>
      have hw : IsWord n.toList := hn.right
      have hs : Joinable ([.comma].intercalate (tokensAll es keep) ++ [.closing]) := by
        rw [tokensAll_eq_map]
        refine .closed (.intercalate trivial rfl rfl fun ts hts => ?_)
        obtain ⟨e, he, rfl⟩ := mem_map.mp hts
        exact ih e (by simp [children, he]) keep
      cases receiver
      case none => exact .cons hw rfl hs
      case some e => exact (ih e (by simp [children]) keep).append rfl (.cons hw rfl hs)
    all_goals contradiction

end Expr
end BindingAlgebra
