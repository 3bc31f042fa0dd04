import BindingAlgebra.Proofs.Legible

namespace BindingAlgebra

-- Tokens that an operand begins with.
def Token.isStart : Token → Bool
  | word _ | quoted _ | binding _ _ | opening _ => true
  | _                                           => false

-- Tokens that an expression does not continue with.
def Token.isEnd : Token → Bool
  | closing | comma | joint .question | joint .colon => true
  | _                                                => false

namespace Expr

open List BindingText

-- A call upon something, or upon the length of it.
structure Message where
  measured  : Bool
  function  : String
  arguments : List Expr

-- What comes first in a chain of calls upon each other's results, and the calls that follow.

def callee : Expr → Expr
  | call (some (length e)) _ _ => e
  | call (some e) _ _          => e.callee
  | e                          => e
termination_by structural e => e

def messages : Expr → List Message
  | call (some (length _)) n es => [⟨true, n, es⟩]
  | call (some e) n es          => e.messages ++ [⟨false, n, es⟩]
  | _                           => []
termination_by structural e => e

def Message.send (e : Expr) (m : Message) : Expr :=
  call (some (if m.measured then length e else e)) m.function m.arguments

def Message.tokens (keep : Bool) (m : Message) : List Token :=
  (if m.measured then [.length] else []) ++
    .sending m.function :: ([.comma].intercalate (tokensAll m.arguments keep) ++ [.closing])

-- What a chain can begin with.
inductive Head : Expr → Prop
  | constant : v.Literal → Head (constant v)
  | path (b : PathBinding Expr) : Head (path b)
  | ifElse (c t f : Expr) : Head (ifElse c t f)
  | call (es : List Expr) : n ≠ "" → Head (call none n es)
  | grouped : needsParenthesis e → Head e

-- Of what begins with an operand, the operand and the tokens behind it.

def lead : Expr → Expr
  | set _ (e :: _)   => e
  | concat (e :: _)  => e
  | comparison _ l _ => l
  | length e         => e
  | e                => e

def trail (keep : Bool) : Expr → List Token
  | set op (_ :: es)  => es.flatMap fun e => .joint (.logical op) :: e.operandTokens true
  | concat (_ :: es)  => es.flatMap fun e => .joint .plus :: e.operandTokens true
  | comparison op _ r => .joint (.comparison op) :: r.operandTokens keep
  | length _          => [.length]
  | _                 => []

-- The nodes that go on behind their first operand.
inductive Continued : Expr → Prop
  | set (op : LogicalOperator) (x y : Expr) (es : List Expr) : Continued (set op (x :: y :: es))
  | concat (x y : Expr) (es : List Expr) : Continued (concat (x :: y :: es))
  | comparison (op : ComparisonOperator) (l r : Expr) : Continued (comparison op l r)
  | length (b : PathBinding Expr) : Continued (length (path b))

-- The nodes that do not begin with an operand.
def isBang : Expr → Bool
  | not _ | truthy _ => true
  | _                => false

def Sends : List Token → Prop
  | .sending _ :: _            => True
  | .length :: .sending _ :: _ => True
  | _                          => False

def Ends (ts : List Token) : Prop :=
  ∀ t ∈ ts.head?, t.isEnd

-- Whether the beginning of a text can be read as one operand only, unless it goes on with a call.
def ReadsOperand (e : Expr) : Prop :=
  ∀ ⦃e' : Expr⦄ ⦃keep keep' : Bool⦄ ⦃r r' : List Token⦄, Legible e' → ¬Sends r → ¬Sends r' →
    e.operandTokens keep ++ r = e'.operandTokens keep' ++ r' → e = e' ∧ r = r'

-- Whether it can be read as one expression only.
def ReadsNode (e : Expr) : Prop :=
  ∀ ⦃e' : Expr⦄ ⦃keep keep' : Bool⦄ ⦃r r' : List Token⦄, Legible e' → Ends r → Ends r' →
    e.tokens keep ++ r = e'.tokens keep' ++ r' → e = e' ∧ r = r'

section Ends

variable {r : List Token} {t : Token}

theorem ends_nil : Ends [] := by
  simp [Ends]

theorem ends_cons (h : t.isEnd) : Ends (t :: r) := by
  rintro _ ⟨⟩
  exact h

theorem Ends.head?_ne (h : Ends r) (ht : ¬t.isEnd) : r.head? ≠ some t :=
  fun hr => ht (h t hr)

theorem Ends.not_sends (h : Ends r) : ¬Sends r := by
  fun_cases Sends r
  case case1 | case2 => exact fun _ => nomatch h _ rfl
  case case3         => exact id

theorem Ends.not_sends_length (h : Ends r) : ¬Sends (.length :: r) := by
  unfold Sends
  split
  case h_2 hs =>
    cases hs
    cases h _ rfl
  all_goals simp_all

end Ends

section Chains

variable {c e : Expr} {keep : Bool}

theorem foldl_send_messages (e : Expr) : e.messages.foldl Message.send e.callee = e := by
  induction e using children_induction
  case step e ih =>
    unfold callee messages
    split
    case h_1 e n es => rfl
    case h_2 e n es _ =>
      rw [foldl_append, ih e (by simp [children])]
      rfl
    case h_3 => rfl

-- A chain that begins with the length of a path begins with the path.
theorem operandTokens_eq (h : Legible e) : e.operandTokens keep =
    e.callee.operandTokens keep ++ e.messages.flatMap (Message.tokens keep) := by
  induction e using children_induction
  case step e ih =>
    unfold callee messages
    split
    case h_1 e n es =>
      have hp : e.isPath := (h.child (c := length e) (by simp [children])).node.left
      obtain ⟨b, rfl⟩ := isPath_iff.mp hp
      simp [operandTokens, grouped, needsParenthesis, kind, tokens, Message.tokens]
    case h_2 e n es hl =>
      have hc : Legible e := h.child (by simp [children])
      have hn : ¬needsParenthesis e := by
        have ho : ¬e.kind.isOperator := h.node.right
        have hn := hc.node.left
        cases e
        case constant | path | ifElse | call => exact Bool.false_ne_true
        case not | truthy | set | comparison | concat => exact absurd rfl ho
        case length e => exact (hl e rfl).elim
        all_goals contradiction
      have ih := ih e (by simp [children]) hc
      rw [operandTokens, grouped, if_neg hn] at ih
      simp [operandTokens, grouped, needsParenthesis, kind, tokens, Message.tokens, ih]
    case h_3 => simp

theorem callee_legible (h : Legible e) : Legible e.callee := by
  induction e using children_induction
  case step e ih =>
    unfold callee
    split
    case h_1 e n es =>
      have hl : Legible (length e) := h.child (by simp [children])
      exact hl.child (by simp [children])
    case h_2 e n es _ => exact ih e (by simp [children]) (h.child (by simp [children]))
    case h_3 => exact h

-- What the calls are upon is all there is, or a part of it.
theorem callee_eq_or_lt (e : Expr) : e.callee = e ∨ sizeOf e.callee < sizeOf e := by
  induction e using children_induction
  case step e ih =>
    unfold callee
    split
    case h_1 e n es => exact .inr (by simp; omega)
    case h_2 e n es _ =>
      have hc : e ∈ (call (some e) n es).children := by simp [children]
      have hs := sizeOf_lt_of_mem_children hc
      rcases ih e hc with he | hl
      case inl => exact .inr (by rwa [he])
      case inr => exact .inr (by omega)
    case h_3 => exact .inl rfl

theorem sizeOf_lt_of_mem_children_callee (h : c ∈ e.callee.children) : sizeOf c < sizeOf e := by
  have hs := sizeOf_lt_of_mem_children h
  rcases callee_eq_or_lt e with he | hl
  case inl => rwa [he] at hs
  case inr => omega

theorem mem_messages {m : Message} (hm : m ∈ e.messages) (hc : c ∈ m.arguments) :
    sizeOf c < sizeOf e ∧ (Legible e → Legible c) := by
  have argument : ∀ {r : Expr} {n : String} {es : List Expr}, c ∈ es →
      sizeOf c < sizeOf (call (some r) n es) ∧ (Legible (call (some r) n es) → Legible c) := by
    intro r n es hc
    have hm : c ∈ (call (some r) n es).children := by simp [children, hc]
    exact ⟨sizeOf_lt_of_mem_children hm, fun h => h.child hm⟩
  induction e using children_induction
  case step e ih =>
    unfold messages at hm
    split at hm
    case h_1 e n es =>
      obtain rfl := mem_singleton.mp hm
      exact argument hc
    case h_2 e n es _ =>
      have he : e ∈ (call (some e) n es).children := by simp [children]
      rcases mem_append.mp hm with hm | hm
      case inl =>
        obtain ⟨hs, hl⟩ := ih e he hm
        have := sizeOf_lt_of_mem_children he
        exact ⟨by omega, fun h => hl (h.child he)⟩
      case inr =>
        obtain rfl := mem_singleton.mp hm
        exact argument hc
    case h_3 => cases hm

theorem head_callee (h : Legible e) : Head e.callee := by
  induction e using children_induction
  case step e ih =>
    have hn := h.node.left
    unfold callee
    split
    case h_1 e n es =>
      have hp : e.isPath := (h.child (c := length e) (by simp [children])).node.left
      obtain ⟨b, rfl⟩ := isPath_iff.mp hp
      exact .path b
    case h_2 e n es _ => exact ih e (by simp [children]) (h.child (by simp [children]))
    case h_3 _ hl hc =>
      cases e
      case constant => exact .constant hn
      case path b => exact .path b
      case ifElse c t f => exact .ifElse c t f
      case call receiver n es =>
        cases receiver
        case none   => exact .call es hn.left
        case some e => exact (hc e n es rfl).elim
      case not | truthy | set | comparison | concat | length => exact .grouped rfl
      all_goals contradiction

end Chains

section Start

variable {e : Expr} {keep : Bool} {r r' : List Token}

@[simp]
theorem operandTokens_constant (v : Value Expr) : (constant v).operandTokens keep = [v.token] := rfl

@[simp]
theorem operandTokens_path (b : PathBinding Expr) :
    (path b).operandTokens keep = [.binding keep b] := rfl

@[simp]
theorem operandTokens_call (n : String) (es : List Expr) : (call none n es).operandTokens keep =
    .opening n :: ([.comma].intercalate (tokensAll es keep) ++ [.closing]) := rfl

@[simp]
theorem operandTokens_ifElse (c t f : Expr) : (ifElse c t f).operandTokens keep =
    .opening "" :: (c.tokens keep ++ .joint .question :: (t.tokens keep ++
      .joint .colon :: (f.tokens keep ++ [.closing]))) := rfl

theorem operandTokens_of_needsParenthesis (h : needsParenthesis e) :
    e.operandTokens keep = .opening "" :: (e.tokens keep ++ [.closing]) :=
  if_pos h

theorem Head.start (h : Head e) (keep : Bool) : ∃ t ∈ (e.operandTokens keep).head?, t.isStart := by
  cases h
  case constant v _ => cases v <;> exact ⟨_, rfl, rfl⟩
  case grouped h =>
    rw [operandTokens_of_needsParenthesis h]
    exact ⟨_, rfl, rfl⟩
  all_goals exact ⟨_, rfl, rfl⟩

theorem operandTokens_start (h : Legible e) (keep : Bool) :
    ∃ t ∈ (e.operandTokens keep).head?, t.isStart := by
  have ⟨t, ht, hs⟩ := (head_callee h).start keep
  refine ⟨t, ?_, hs⟩
  rw [operandTokens_eq h, head?_append, Option.mem_def.mp ht]
  rfl

theorem tokens_eq (h : Legible e) (hb : ¬e.isBang) (keep : Bool) :
    ∃ keep', e.tokens keep = e.lead.operandTokens keep' ++ e.trail keep := by
  have hn := h.node.left
  cases e
  case not | truthy => contradiction
  case set _ es | concat es =>
    cases es
    case nil => simp [CallingNode, ElementaryNode] at hn
    case cons =>
      refine ⟨true, ?_⟩
      simp [tokens, groupedAll_eq_map, intercalate_cons_eq_append, flatMap_map, lead, trail]
  case comparison => exact ⟨keep, rfl⟩
  case length e =>
    obtain ⟨b, rfl⟩ := isPath_iff.mp hn
    exact ⟨keep, rfl⟩
  case constant | path | ifElse | call => exact ⟨keep, (append_nil _).symm⟩
  all_goals contradiction

theorem lead_legible (h : Legible e) : Legible e.lead := by
  have hl : e.lead = e ∨ e.lead ∈ e.children := by
    unfold lead
    split <;> simp [children]
  rcases hl with he | hc
  case inl => rwa [he]
  case inr => exact h.child hc

theorem exists_tokens_of_isBang (h : e.isBang) (keep : Bool) :
    ∃ ts, e.tokens keep = .bang :: ts := by
  cases e
  case not | truthy => exact ⟨_, rfl⟩
  all_goals contradiction

theorem needsParenthesis_of_isBang (h : e.isBang) : needsParenthesis e := by
  cases e
  case not | truthy => rfl
  all_goals contradiction

theorem tokens_start (h : Legible e) (keep : Bool) :
    ∃ t ∈ (e.tokens keep).head?, t.isStart ∨ t = .bang := by
  by_cases hb : e.isBang
  case pos =>
    have ⟨ts, ht⟩ := exists_tokens_of_isBang hb keep
    exact ⟨.bang, by rw [ht]; rfl, .inr rfl⟩
  case neg =>
    have ⟨keep', he⟩ := tokens_eq h hb keep
    have ⟨t, ht, hs⟩ := operandTokens_start (lead_legible h) keep'
    refine ⟨t, ?_, .inl hs⟩
    rw [he, head?_append, Option.mem_def.mp ht]
    rfl

theorem closing_ne_tokens (h : Legible e) : .closing :: r ≠ e.tokens keep ++ r' := by
  intro hs
  have ⟨t, ht, hc⟩ := tokens_start h keep
  have := congrArg head? hs
  rw [head?_append, Option.mem_def.mp ht] at this
  cases this
  simp [Token.isStart] at hc

theorem bang_ne_operandTokens (h : Legible e) : .bang :: r ≠ e.operandTokens keep ++ r' := by
  intro hs
  have ⟨t, ht, hc⟩ := operandTokens_start h keep
  have := congrArg head? hs
  rw [head?_append, Option.mem_def.mp ht] at this
  cases this
  cases hc

theorem tokens_ne_tokens {e' : Expr} {keep' : Bool} (h : Legible e) (hb : ¬e.isBang)
    (hb' : e'.isBang) : e.tokens keep ++ r ≠ e'.tokens keep' ++ r' := by
  have ⟨k, he⟩ := tokens_eq h hb keep
  have ⟨ts, ht⟩ := exists_tokens_of_isBang hb' keep'
  rw [he, ht, append_assoc]
  exact (bang_ne_operandTokens (lead_legible h)).symm

end Start

section Lists

variable {es es' : List Expr} {keep keep' : Bool} {r r' : List Token}

-- Lists of arguments end at the same parenthesis.
theorem arguments_inj (h : ∀ e ∈ es, Legible e ∧ ReadsNode e) (h' : ∀ e ∈ es', Legible e)
    (hs : [.comma].intercalate (tokensAll es keep) ++ .closing :: r =
      [.comma].intercalate (tokensAll es' keep') ++ .closing :: r') : es = es' ∧ r = r' := by
  rw [tokensAll_eq_map, tokensAll_eq_map] at hs
  refine listed_inj Ends (fun _ => ends_cons rfl) (fun _ => ends_cons rfl) (by simp) ?_
    ?_ (fun e hm e' hm' _ _ => (h e hm).right (h' e' hm')) hs
  · exact fun e he _ _ => closing_ne_tokens (h e he).left
  · exact fun e he _ _ => closing_ne_tokens (h' e he)

theorem Message.sends_tokens (m : Message) : Sends (m.tokens keep ++ r) := by
  obtain ⟨_ | _, n, es⟩ := m <;> trivial

theorem messages_inj {ms ms' : List Message}
    (h : ∀ m ∈ ms, ∀ c ∈ m.arguments, Legible c ∧ ReadsNode c)
    (h' : ∀ m ∈ ms', ∀ c ∈ m.arguments, Legible c) (hr : ¬Sends r) (hr' : ¬Sends r')
    (hs : ms.flatMap (Message.tokens keep) ++ r = ms'.flatMap (Message.tokens keep') ++ r') :
    ms = ms' ∧ r = r' := by
  induction ms generalizing ms' <;> cases ms'
  case nil.nil => exact ⟨rfl, hs⟩
  case nil.cons m ms =>
    simp only [flatMap_nil, nil_append, flatMap_cons, append_assoc] at hs
    exact (hr (hs ▸ m.sends_tokens)).elim
  case cons.nil m ms _ =>
    simp only [flatMap_nil, nil_append, flatMap_cons, append_assoc] at hs
    exact (hr' (hs ▸ m.sends_tokens)).elim
  case cons.cons m ms ih m' ms' =>
    obtain ⟨b, n, es⟩ := m
    obtain ⟨b', n', es'⟩ := m'
    simp only [flatMap_cons, Message.tokens, append_assoc] at hs
    obtain rfl : b = b' := by cases b <;> cases b' <;> first | rfl | simp at hs
    simp only [append_cancel_left_eq, cons_append, append_assoc, nil_append, cons.injEq,
      Token.sending.injEq] at hs
    have ⟨hn, hs⟩ := hs
    have ⟨hes, hs⟩ := arguments_inj (h _ mem_cons_self) (h' _ mem_cons_self) hs
    have ⟨hms, hr⟩ := ih (fun m hm => h m (.tail _ hm)) (fun m hm => h' m (.tail _ hm)) hs
    obtain rfl : es = es' := hes
    exact ⟨by rw [hn, hms], hr⟩

end Lists

section Operands

variable {e e' : Expr} {keep keep' : Bool} {r r' : List Token}

-- A parenthesis that groups may belong to an operator or to a conditional. Which one it is shows
-- only behind the expression that comes first in it.
theorem head_inj (h : Head e) (h' : Head e') (hl : Legible e) (hl' : Legible e')
    (hn : needsParenthesis e → ReadsNode e) (hc : ∀ c ∈ e.children, ReadsNode c)
    (he : e.operandTokens keep ++ r = e'.operandTokens keep' ++ r') : e = e' ∧ r = r' := by
  cases h <;> cases h' <;>
    simp only [operandTokens_constant, operandTokens_path, operandTokens_call, operandTokens_ifElse,
      operandTokens_of_needsParenthesis, cons_append, nil_append, append_assoc, cons.injEq, *] at he
  case constant.constant hv v' hv' => exact ⟨congrArg _ (hv.token_inj hv' he.left), he.right⟩
  case path.path => exact ⟨congrArg _ (Token.binding.inj he.left).right, he.right⟩
  case call.call n es _ n' es' _ =>
    have hc : ∀ e ∈ es, Legible e ∧ ReadsNode e := fun e he => ⟨hl.child he, hc e he⟩
    have hl' : ∀ e ∈ es', Legible e := fun _ => hl'.child
    obtain ⟨hes, hr⟩ := arguments_inj hc hl' he.right
    exact ⟨by rw [Token.opening.inj he.left, hes], hr⟩
  case ifElse.ifElse c t f c' t' f' =>
    obtain ⟨hc, ht, hf⟩ : ReadsNode c ∧ ReadsNode t ∧ ReadsNode f := by simpa [children] using hc
    obtain ⟨hc', ht', hf'⟩ := hl'.branches
    obtain ⟨hec, he⟩ := hc hc' (ends_cons rfl) (ends_cons rfl) he.right
    obtain ⟨het, he⟩ := ht ht' (ends_cons rfl) (ends_cons rfl) (cons.inj he).right
    obtain ⟨hef, he⟩ := hf hf' (ends_cons rfl) (ends_cons rfl) (cons.inj he).right
    exact ⟨by rw [hec, het, hef], (cons.inj he).right⟩
  case ifElse.grouped c t f hg =>
    obtain ⟨_, he⟩ := hc c mem_cons_self hl' (ends_cons rfl) (ends_cons rfl) he.right
    cases he
  case grouped.ifElse hg c t f =>
    obtain ⟨_, he⟩ := hn hg hl'.branches.left (ends_cons rfl) (ends_cons rfl) he.right
    cases he
  case grouped.grouped hg _ =>
    obtain ⟨he, hr⟩ := hn hg hl' (ends_cons rfl) (ends_cons rfl) he.right
    exact ⟨he, (cons.inj hr).right⟩
  -- The others begin with different tokens.
  all_goals simp [*] at he

theorem readsOperand (h : Legible e) (hn : needsParenthesis e.callee → ReadsNode e.callee)
    (hc : ∀ c, sizeOf c < sizeOf e → Legible c → ReadsNode c) : ReadsOperand e := by
  intro e' keep keep' r r' h' hr hr' hs
  have hl := callee_legible h
  have hl' := callee_legible h'
  have children : ∀ c ∈ e.callee.children, ReadsNode c :=
    fun c hm => hc c (sizeOf_lt_of_mem_children_callee hm) (hl.child hm)
  have arguments : ∀ m ∈ e.messages, ∀ c ∈ m.arguments, Legible c ∧ ReadsNode c := by
    intro m hm c hcm
    have ⟨hs, hl⟩ := mem_messages hm hcm
    exact ⟨hl h, hc c hs (hl h)⟩
  have arguments' : ∀ m ∈ e'.messages, ∀ c ∈ m.arguments, Legible c :=
    fun m hm c hcm => (mem_messages hm hcm).right h'
  rw [operandTokens_eq h, operandTokens_eq h', append_assoc, append_assoc] at hs
  have ⟨hh, hs⟩ := head_inj (head_callee h) (head_callee h') hl hl' hn children hs
  have ⟨hm, hs⟩ := messages_inj arguments arguments' hr hr' hs
  exact ⟨by rw [← foldl_send_messages e, ← foldl_send_messages e', hh, hm], hs⟩

end Operands

section Nodes

variable {e e' : Expr} {keep keep' : Bool} {r r' : List Token}

namespace Continued

theorem not_ends (h : Continued e) : ¬Ends (e.trail keep ++ r) := by
  intro he
  cases h <;> cases he _ rfl

theorem not_sends (h : Continued e) (hr : Ends r) : ¬Sends (e.trail keep ++ r) := by
  cases h
  case length => exact hr.not_sends_length
  all_goals exact id

theorem needsParenthesis (h : Continued e) : needsParenthesis e := by
  cases h <;> rfl

theorem not_isBang (h : Continued e) : ¬e.isBang := by
  cases h <;> exact nofun

theorem lead_mem (h : Continued e) : e.lead ∈ e.children := by
  cases h <;> simp [lead, children]

end Continued

theorem continued_or (h : Legible e) :
    Continued e ∨ (e.lead = e ∧ ∀ keep, e.trail keep = []) ∧ (needsParenthesis e → e.isBang) := by
  have hn := h.node.left
  cases e
  case set op es =>
    match es, hn with
    | x :: y :: es, _ => exact .inl (.set op x y es)
  case concat es =>
    match es, hn with
    | x :: y :: es, _ => exact .inl (.concat x y es)
  case comparison op l r => exact .inl (.comparison op l r)
  case length e =>
    obtain ⟨b, rfl⟩ := isPath_iff.mp hn
    exact .inl (.length b)
  case not | truthy => exact .inr ⟨⟨rfl, fun _ => rfl⟩, fun _ => rfl⟩
  case constant | path | ifElse | call => exact .inr ⟨⟨rfl, fun _ => rfl⟩, nofun⟩
  all_goals contradiction

theorem not_sends_trail (h : Legible e) (hr : Ends r) : ¬Sends (e.trail keep ++ r) := by
  rcases continued_or h with hc | ⟨⟨_, ht⟩, _⟩
  case inl => exact hc.not_sends hr
  case inr =>
    rw [ht]
    exact hr.not_sends

theorem joined_inj {es es' : List Expr} {j : Joint} (hj : ¬(Token.joint j).isEnd)
    (h : ∀ e ∈ es, ReadsOperand e) (h' : ∀ e ∈ es', Legible e) (hr : Ends r) (hr' : Ends r')
    (hs : es.flatMap (fun e => .joint j :: e.operandTokens true) ++ r =
      es'.flatMap (fun e => .joint j :: e.operandTokens true) ++ r') : es = es' ∧ r = r' :=
  separated_inj (¬Sends ·) (by simp [Sends]) hr.not_sends hr'.not_sends (hr.head?_ne hj)
    (hr'.head?_ne hj) (fun e he e' he' _ _ => h e he (h' e' he')) hs

-- The tokens behind the first operand tell what the whole is.
theorem trail_inj (h : Legible e) (h' : Legible e') (hc : ∀ c ∈ e.children, ReadsOperand c)
    (hr : Ends r) (hr' : Ends r') (he : e.lead = e'.lead)
    (hs : e.trail keep ++ r = e'.trail keep' ++ r') : e = e' ∧ r = r' := by
  rcases continued_or h with hx | ⟨⟨hl, ht⟩, _⟩ <;>
    rcases continued_or h' with hx' | ⟨⟨hl', ht'⟩, _⟩
  case inr.inr =>
    rw [ht, ht'] at hs
    exact ⟨by rw [← hl, he, hl'], hs⟩
  case inl.inr =>
    rw [ht', nil_append] at hs
    exact (hx.not_ends (hs ▸ hr')).elim
  case inr.inl =>
    rw [ht, nil_append] at hs
    exact (hx'.not_ends (hs ▸ hr)).elim
  case inl.inl =>
    have hh := congrArg head? hs
    cases hx
    case set op x y es =>
      cases hx' <;> cases hh
      case set.refl x' y' es' =>
        obtain rfl : x = x' := he
        obtain ⟨hes, hr⟩ := joined_inj (by simp [Token.isEnd]) (fun e he => hc e (.tail _ he))
          (fun e he => h'.child (.tail _ he)) hr hr' hs
        exact ⟨congrArg _ (congrArg _ hes), hr⟩
    case concat x y es =>
      cases hx' <;> cases hh
      case concat.refl x' y' es' =>
        obtain rfl : x = x' := he
        obtain ⟨hes, hr⟩ := joined_inj (by simp [Token.isEnd]) (fun e he => hc e (.tail _ he))
          (fun e he => h'.child (.tail _ he)) hr hr' hs
        exact ⟨congrArg _ (congrArg _ hes), hr⟩
    case comparison op a b =>
      cases hx' <;> cases hh
      case comparison.refl a' b' =>
        obtain rfl : a = a' := he
        have hb : ReadsOperand b := hc b (by simp [children])
        have hb' : Legible b' := h'.child (by simp [children])
        obtain ⟨hbb, hr⟩ := hb hb' hr.not_sends hr'.not_sends (cons.inj hs).right
        exact ⟨congrArg _ hbb, hr⟩
    case length b =>
      cases hx' <;> cases hh
      case length.refl b' =>
        obtain rfl : b = b' := path.inj he
        exact ⟨rfl, (cons.inj hs).right⟩

theorem readsNode_of_lead (h : Legible e) (hb : ¬e.isBang) (hl : ReadsOperand e.lead)
    (hc : ∀ c ∈ e.children, ReadsOperand c) : ReadsNode e := by
  intro e' keep keep' r r' h' hr hr' hs
  by_cases hb' : e'.isBang
  case pos => exact (tokens_ne_tokens h hb hb' hs).elim
  case neg =>
    have ⟨k, hk⟩ := tokens_eq h hb keep
    have ⟨k', hk'⟩ := tokens_eq h' hb' keep'
    rw [hk, hk', append_assoc, append_assoc] at hs
    have ⟨he, hs⟩ := hl (lead_legible h') (not_sends_trail h hr) (not_sends_trail h' hr') hs
    exact trail_inj h h' hc hr hr' he hs

theorem readsNode_of_bang (h : Legible e) (hb : e.isBang) (hc : ∀ c ∈ e.children, ReadsOperand c) :
    ReadsNode e := by
  intro e' keep keep' r r' h' hr hr' hs
  by_cases hb' : e'.isBang
  case neg => exact (tokens_ne_tokens h' hb' hb hs.symm).elim
  case pos =>
    cases e
    case not c =>
      have ho := hc c mem_cons_self
      cases e'
      case not c' =>
        have hl' : Legible c' := h'.child mem_cons_self
        have ⟨he, hr⟩ := ho hl' hr.not_sends hr'.not_sends (cons.inj hs).right
        exact ⟨congrArg _ he, hr⟩
      case truthy c' =>
        have hl : Legible c := h.child mem_cons_self
        exact (bang_ne_operandTokens hl (cons.inj hs).right.symm).elim
      all_goals contradiction
    case truthy c =>
      have ho := hc c mem_cons_self
      cases e'
      case not c' =>
        have hl' : Legible c' := h'.child mem_cons_self
        exact (bang_ne_operandTokens hl' (cons.inj hs).right).elim
      case truthy c' =>
        have hl' : Legible c' := h'.child mem_cons_self
        have hs := (cons.inj (cons.inj hs).right).right
        have ⟨he, hr⟩ := ho hl' hr.not_sends hr'.not_sends hs
        exact ⟨congrArg _ he, hr⟩
      all_goals contradiction
    all_goals contradiction

-- What is legible can be read in one way only. An operator expression is an operand by way of being
-- a node in parentheses, and whatever needs none is a node by way of being an operand.
theorem reads (h : Legible e) : ReadsOperand e ∧ ReadsNode e := by
  induction hs : sizeOf e using Nat.strongRecOn generalizing e
  case ind n ih =>
    subst hs
    have part : ∀ c, sizeOf c < sizeOf e → Legible c → ReadsOperand c ∧ ReadsNode c :=
      fun c hs hl => ih _ hs hl rfl
    have child : ∀ c ∈ e.children, ReadsOperand c :=
      fun c hc => (part c (sizeOf_lt_of_mem_children hc) (h.child hc)).left
    have node : needsParenthesis e → ReadsNode e := by
      intro hp
      rcases continued_or h with hc | ⟨_, hb⟩
      case inl => exact readsNode_of_lead h hc.not_isBang (child _ hc.lead_mem) child
      case inr => exact readsNode_of_bang h (hb hp) child
    have operand : ReadsOperand e := by
      refine readsOperand h ?_ fun c hs hl => (part c hs hl).right
      rcases callee_eq_or_lt e with he | hs
      case inl => rwa [he]
      case inr => exact fun _ => (part _ hs (callee_legible h)).right
    refine ⟨operand, ?_⟩
    by_cases hp : needsParenthesis e
    case pos => exact node hp
    case neg =>
      have hb : ¬e.isBang := fun hb => hp (needsParenthesis_of_isBang hb)
      have ⟨⟨he, _⟩, _⟩ := (continued_or h).resolve_left (hp ·.needsParenthesis)
      exact readsNode_of_lead h hb (he.symm ▸ operand) child

end Nodes

section Texts

variable {e e' : Expr} {o : RenderOptions}

theorem lexical_tokens (h : Legible e) (keep : Bool) : Lexical (e.tokens keep) := by
  simpa using joinable_tokens h [] nofun .nil

theorem bindingText?_inj (h : Legible e) (h' : Legible e') (ho : o.embedded)
    (hs : bindingText? e o = bindingText? e' o) : e = e' := by
  rw [bindingText?_eq h.calling ho, bindingText?_eq h'.calling ho, Option.some.injEq,
    String.ofList_inj] at hs
  have ht := render_inj (lexical_tokens h _) (lexical_tokens h' _) hs
  exact ((reads h).right h' ends_nil ends_nil (congrArg (· ++ []) ht)).left

-- What operators make of literals, plain paths and their lengths has a text within an expression
-- that no other such tree has.
theorem elementary_text_inj (h : Elementary e) (h' : Elementary e') (ho : o.embedded) :
    (∃ s, bindingText? e o = some s) ∧ (bindingText? e o = bindingText? e' o → e = e') :=
  ⟨⟨_, bindingText?_eq h.legible.calling ho⟩, bindingText?_inj h.legible h'.legible ho⟩

theorem elementary_text_inj_quoted_operator :
    let p  := not (path { path := "Active" })
    let e  := set .and [constant (.string "a' || 'b"), p]
    let e' := set .and [set .or [constant (.string "a"), constant (.string "b")], p]
    Elementary e ∧ Elementary e' ∧
      bindingText? e { embedded := true } ≠ bindingText? e' { embedded := true } := by
  intro p e e'
  have hp : ({ path := "Active" } : PathBinding Expr).Plain := ⟨nofun, by simp, nofun⟩
  have h : Elementary e := by
    simp [Elementary, AllNodes, nodes, nodesAll, e, p, ElementaryNode, Value.Literal.string, hp]
  have h' : Elementary e' := by
    simp [Elementary, AllNodes, nodes, nodesAll, e', p, ElementaryNode, Value.Literal.string, hp]
  refine ⟨h, h', fun hs => ?_⟩
  have he := (elementary_text_inj h h' rfl).right hs
  simp [e, e'] at he

end Texts
end Expr
end BindingAlgebra
