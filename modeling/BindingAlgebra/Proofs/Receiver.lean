import BindingAlgebra.Proofs.Unambiguous
import BindingAlgebra.Proofs.Visited

namespace BindingAlgebra.Expr

open List BindingText

variable {e x : Expr} {es init : List Expr} {keep : Bool}

-- The tokens that a call adds to those of what it is upon.
def sent (n : String) (es : List Expr) (keep : Bool) : List Token :=
  .sending n :: ([.comma].intercalate (tokensAll es keep) ++ [.closing])

theorem intercalate_append_last (j : List Token) (tss : List (List Token)) (ts us : List Token) :
    j.intercalate (tss ++ [ts ++ us]) = j.intercalate (tss ++ [ts]) ++ us := by
  induction tss
  case nil => simp
  case cons t tss ih =>
    cases tss
    case nil => simp [intercalate_cons_cons]
    case cons => simpa [intercalate_cons_cons] using ih

theorem operandTokens_call_some (n : String) (es : List Expr) (keep : Bool)
    (hx : ¬needsParenthesis x) :
    (call (some x) n es).operandTokens keep = x.operandTokens keep ++ sent n es keep := by
  rw [operandTokens, operandTokens, grouped, grouped, if_neg hx]
  exact if_neg Bool.false_ne_true

-- A call upon an operator expression has the tokens that the expression has with the call upon its
-- last operand in place of this operand.
theorem tokens_call_operator (n : String) (ho : e.kind.isOperator) (hc : e.children = init ++ [x])
    (hx : ¬needsParenthesis x) (hs : sent n es keep = sent n es true) :
    (call (some e) n es).tokens keep =
      (e.withChildren (init ++ [call (some x) n es])).tokens keep := by
  have operand := operandTokens_call_some n es keep hx
  cases e
  case not e =>
    obtain ⟨rfl, rfl⟩ : init = [] ∧ x = e := by
      cases init <;> simp_all [children]
    exact congrArg (.bang :: ·) operand.symm
  case truthy e =>
    obtain ⟨rfl, rfl⟩ : init = [] ∧ x = e := by
      cases init <;> simp_all [children]
    exact congrArg (.bang :: .bang :: ·) operand.symm
  case comparison op l r =>
    obtain ⟨rfl, rfl⟩ : init = [l] ∧ x = r := by
      rcases init with _ | ⟨_, _ | ⟨_, _⟩⟩ <;> simp_all [children]
    change l.operandTokens keep ++ .joint (.comparison op) :: x.operandTokens keep ++
      sent n es keep = l.operandTokens keep ++ .joint (.comparison op) :: _
    rw [append_assoc, cons_append, ← operand]
    rfl
  case set | concat =>
    obtain rfl := hc
    change _ ++ sent n es keep = _
    simp [tokens, withChildren, groupedAll_eq_map, operandTokens_call_some n es true hx,
      intercalate_append_last, hs]
  all_goals contradiction

theorem legible_iff : Legible e ↔ Calling e ∧ AllNodes Received e := by
  simp only [AllNodes, LegibleNode, forall_and]

theorem CallingNode.withChildren (h : CallingNode e) (ho : e.kind.isOperator)
    (hl : es.length = e.children.length) : CallingNode (e.withChildren es) := by
  cases e
  case not =>
    obtain ⟨d, rfl⟩ := length_eq_one_iff.mp hl
    trivial
  case truthy =>
    obtain ⟨d, rfl⟩ := length_eq_one_iff.mp hl
    trivial
  case comparison =>
    obtain ⟨l, r, rfl⟩ := length_eq_two.mp hl
    trivial
  case set es' | concat es' =>
    change 2 ≤ es.length
    rw [hl]
    exact h
  all_goals contradiction

theorem calling_path_iff {b : PathBinding Expr} : Calling (path b) ↔ b.Plain := by
  simp [allNodes_iff (e := path b), CallingNode, ElementaryNode, children]

theorem calling_set_iff {op : LogicalOperator} :
    Calling (set op es) ↔ 2 ≤ es.length ∧ ∀ c ∈ es, Calling c :=
  allNodes_iff

theorem calling_call_some_iff {n : String} :
    Calling (call (some e) n es) ↔
      (n ≠ "" ∧ IsWord n.toList) ∧ Calling e ∧ ∀ c ∈ es, Calling c := by
  simp [allNodes_iff (e := call (some e) n es), CallingNode, children]

theorem calling_withChildren {n : String} (h : Calling (call (some e) n es))
    (ho : e.kind.isOperator) (hc : e.children = init ++ [x]) :
    Calling (e.withChildren (init ++ [call (some x) n es])) := by
  obtain ⟨hn, he, hes⟩ := calling_call_some_iff.mp h
  obtain ⟨hi, hx⟩ : (∀ c ∈ init, Calling c) ∧ Calling x := by
    simpa [hc, or_imp, forall_and] using (allNodes_iff.mp he).right
  have hl : (init ++ [call (some x) n es]).length = e.children.length := by simp [hc]
  refine allNodes_iff.mpr ⟨he.node.withChildren ho hl, ?_⟩
  rw [children_withChildren hl, forall_mem_append, forall_mem_singleton]
  exact ⟨hi, calling_call_some_iff.mpr ⟨hn, hx, hes⟩⟩

-- Calls can be told apart by their texts within an expression as long as none is upon an operator
-- expression. A call upon one has the text of the expression in which the call is upon the last
-- operand, unless this operand takes parentheses or the arguments are written in another way there.
theorem calling_text_inj {o : RenderOptions} (ho : o.embedded) :
    (∀ e e', Calling e → Calling e' → (∃ s, bindingText? e o = some s) ∧
      (AllNodes Received e → AllNodes Received e' → bindingText? e o = bindingText? e' o →
        e = e')) ∧
    ∀ e n es init x, Calling (call (some e) n es) → e.kind.isOperator →
      e.children = init ++ [x] → ¬needsParenthesis x → o.keepTargetType ∨ es = [] →
      let e' := e.withChildren (init ++ [call (some x) n es])
      Calling e' ∧ e' ≠ call (some e) n es ∧
        bindingText? e' o = bindingText? (call (some e) n es) o := by
  constructor
  case left =>
    intro e e' h h'
    refine ⟨⟨_, bindingText?_eq h ho⟩, fun hr hr' => ?_⟩
    exact bindingText?_inj (legible_iff.mpr ⟨h, hr⟩) (legible_iff.mpr ⟨h', hr'⟩) ho
  case right =>
    intro e n es init x h hk hc hx hs e'
    have h' : Calling e' := calling_withChildren h hk hc
    refine ⟨h', fun he => ?_, ?_⟩
    case refine_1 =>
      have he : e.kind = .call := by
        rw [← kind_withChildren e (init ++ [call (some x) n es])]
        exact congrArg kind he
      rw [he] at hk
      contradiction
    case refine_2 =>
      have hs : sent n es o.keepTargetType = sent n es true := by
        rcases hs with hk | rfl
        case inl => rw [hk]
        case inr => rfl
      rw [bindingText?_eq h' ho, bindingText?_eq h ho, tokens_call_operator n hk hc hx hs]

theorem calling_text_inj_alternative :
    let a := path { path := "A" }
    let b := path { path := "B" }
    let e  := call (some (set .or [a, b])) "f" []
    let e' := set .or [a, call (some b) "f" []]
    let d  := set .and [a, call (some b) "f" []]
    let o  := { embedded := true : RenderOptions }
    Calling e ∧ Calling e' ∧ Calling d ∧ AllNodes Received e' ∧ AllNodes Received d ∧
      (∃ s, bindingText? e' o = some s) ∧ bindingText? e' o ≠ bindingText? d o ∧ e' ≠ e ∧
      bindingText? e' o = bindingText? e o := by
  intro a b e e' d o
  have ha : Calling a := calling_path_iff.mpr ⟨nofun, by simp, nofun⟩
  have hb : Calling b := calling_path_iff.mpr ⟨nofun, by simp, nofun⟩
  have hf : IsWord ['f'] := isWord_iff.mpr rfl
  have h : Calling e := by simp [e, calling_call_some_iff, calling_set_iff, ha, hb, hf]
  have hd : Calling d := by simp [d, calling_call_some_iff, calling_set_iff, ha, hb, hf]
  have hr : AllNodes Received e' ∧ AllNodes Received d := by
    simp [AllNodes, nodes, nodesAll, e', d, a, b, Received, kind, Kind.isOperator]
  obtain ⟨told, alike⟩ := calling_text_inj (o := o) rfl
  have hx : ¬needsParenthesis b := Bool.false_ne_true
  obtain ⟨h', hne, hs⟩ := alike (set .or [a, b]) "f" [] [a] b h rfl rfl hx (.inr rfl)
  obtain ⟨ht, hi⟩ := told e' d h' hd
  refine ⟨h, h', hd, hr.left, hr.right, ht, fun hs => ?_, hne, hs⟩
  have he := hi hr.left hr.right hs
  simp [e', d] at he

-- What the call is upon makes a difference that the text does not show.
theorem receiver_not_grouped :
    let a := path { path := "A" }
    let b := path { path := "B" }
    let e  := call (some (set .or [a, b])) "f" []
    let e' := set .or [a, call (some b) "f" []]
    Calling e ∧ Calling e' ∧ e ≠ e' ∧ ∀ o : RenderOptions, o.embedded →
      bindingText? e o = some "$\x7bA\x7d || $\x7bB\x7d.f()" ∧
      bindingText? e' o = some "$\x7bA\x7d || $\x7bB\x7d.f()" := by
  intro a b e e'
  have ha : Calling a := calling_path_iff.mpr ⟨nofun, by simp, nofun⟩
  have hb : Calling b := calling_path_iff.mpr ⟨nofun, by simp, nofun⟩
  have hf : IsWord ['f'] := isWord_iff.mpr rfl
  have h : Calling e := by simp [e, calling_call_some_iff, calling_set_iff, ha, hb, hf]
  have h' : Calling e' := by simp [e', calling_call_some_iff, calling_set_iff, ha, hb, hf]
  refine ⟨h, h', nofun, ?_⟩
  rintro ⟨_, keep, nullable⟩ rfl
  exact ⟨rfl, rfl⟩

end BindingAlgebra.Expr
