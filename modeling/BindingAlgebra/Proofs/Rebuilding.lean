import BindingAlgebra.Proofs.Ordinary
import Mathlib.Data.List.TakeWhile

namespace BindingAlgebra.Expr

open List

-- What the operation for nodes of a kind makes of all that such a node consists of.
def remade : Expr → Expr
  | constant v             => ofValue v
  | length e               => lengthOf e
  | formatter n es         => format n es none true
  | compositeType n es o _ => composite n es none o
  | e                      => rebuildWith outline e e.children

-- What operations have done to the data and to the parameters of a node, and need not do again.
def Prepared : Expr → Prop
  | constant v             => ofValue v = constant v
  | formatter n _          => '#' ∉ n.toList
  | compositeType n es _ p => withLookup n es = es ∧ p = none
  | _                      => True

section Prepared

variable {e : Expr} {es : List Expr}

theorem ofValue_eq_self_of_scalar {v : Value Expr} (h : v.parts = []) :
    ofValue v = constant v := by
  cases v
  case object o =>
    obtain ⟨entries⟩ := o
    obtain rfl : entries = [] := by simpa [Value.parts, ObjectLiteral.values] using h
    rfl
  all_goals rfl

theorem ordinary_prepared : Ordinary Prepared where
  plain e h := by cases e <;> trivial
  scalar _ h := ofValue_eq_self_of_scalar h
  outline _ _ := by
    have : '#' ∉ standardFormatter.toList := by decide
    exact this

theorem prepared_ofValue (v : Value Expr) : Prepared (ofValue v) := by
  cases v
  case object o => simp [ofValue, Prepared, ObjectLiteral.filter, filter_filter]
  all_goals rfl

theorem prepared_formatCall (name : String) (es : List Expr) : Prepared (formatCall name es) := by
  rw [formatCall]
  split
  case isTrue => trivial
  case isFalse =>
    intro hm
    rw [String.toList_ofList] at hm
    simpa using mem_takeWhile_imp hm

theorem withLookup_withLookup (typeName : String) (es : List Expr) :
    withLookup typeName (withLookup typeName es) = withLookup typeName es := by
  obtain ⟨looked, hl⟩ := exists_lookedUp typeName es
  rw [hl.withLookup_eq, hl.again.withLookup_eq, append_nil]

theorem prepared_composite (typeName : String) (keys : Option (List String))
    (options : Option (ObjectLiteral Expr)) (es : List Expr) :
    Prepared (composite typeName es keys options) := by
  rw [composite]
  split
  case isTrue  => trivial
  case isFalse => exact ⟨withLookup_withLookup .., rfl⟩

theorem formatCall_eq_formatter {name : String} (hn : '#' ∉ name.toList)
    (hu : ¬hasUnresolvable es) : formatCall name es = formatter name es := by
  have hc : ∀ c ∈ name.toList, decide (c ≠ '#') := by
    intro c hc
    simp only [decide_eq_true_eq]
    rintro rfl
    exact hn hc
  have ht : name.toList.takeWhile (· ≠ '#') = name.toList := takeWhile_eq_self_iff.mpr hc
  have hd : name.toList.dropWhile (· ≠ '#') = [] := dropWhile_eq_nil_iff.mpr hc
  rw [formatCall, if_neg hu, ht, hd]
  simp

end Prepared

theorem Built.prepared {e : Expr} (h : Built e) : AllNodes Prepared e := by
  have hq := ordinary_prepared
  induction h
  case ofValue v _ _ => exact allNodes_iff.mpr ⟨prepared_ofValue v, by cases v <;> exact nofun⟩
  case resolvePath source model navigation visitor =>
    exact hq.resolvePath source model navigation visitor
  case annotate change _ ih => exact hq.annotate change ih
  case reference => exact hq.of_plain rfl (forall_mem_nil _)
  case ofBindingText text targetType => exact hq.ofBindingText text targetType
  case negate ih => exact hq.inherited.negated ih
  case truthOf ih => exact hq.truthOf ih
  case allOf ih => exact hq.inherited.allOf ih
  case anyOf ih => exact hq.inherited.anyOf ih
  case relate op _ _ ihl ihr => exact hq.relate op ihl ihr
  case equal ihl ihr => exact hq.equal ihl ihr
  case notEqual ihl ihr => exact hq.inherited.negated (hq.equal ihl ihr)
  case isEmpty ih => exact hq.isEmpty ih
  case choose hc ht hf ihc iht ihf =>
    exact hq.choose hc.simplified ht.simplified hf.simplified ihc iht ihf
  case join h ih => exact hq.join (fun e he => (h e he).simplified) ih
  case lengthOf e _ _ => exact hq.lengthOf e
  case format name keys ignoreComplex h ih =>
    exact hq.format (fun _ => prepared_formatCall _ _) (fun e he => (h e he).simplified) ih
  case composite ih _ => exact hq.composite (prepared_composite ..) ih
  case invoke function _ _ ih ihr => exact hq.invoke function ih ihr
  case outline all h _ => exact hq.outlined all h.simplified

section Remade

variable {e : Expr} {es : List Expr}

theorem rebuildWith_children (inner : Outlining) (h : Normal e) :
    rebuildWith inner e e.children = e := by
  have hw := withChildren_children e
  rw [rebuildWith_eq_withChildren (hw.symm ▸ h) rfl, hw]

theorem remade_eq_self (h : Normal e) (hp : Prepared e) : e.remade = e := by
  have hu : ¬hasUnresolvable e.children := Normal.not_hasUnresolvable fun _ => h.child
  cases e
  case constant => exact hp
  case length d =>
    have hl : d.isPath := h.node
    obtain ⟨b, rfl⟩ := isPath_iff.mp hl
    rfl
  case formatter n es =>
    have hc : formatCall n es = formatter n es := formatCall_eq_formatter hp hu
    calc
      format n es none true = formatCall n es := if_neg hu
      _ = formatter n es := hc
  case compositeType n es o p =>
    obtain ⟨hl, rfl⟩ := hp
    calc
      composite n es none o = compositeType n (withLookup n es) o none := if_neg hu
      _ = compositeType n es o none := by rw [hl]
  all_goals exact rebuildWith_children outline h

theorem setOf_singleton (op : LogicalOperator) (h : Simplified e) : setOf op [e] = e := by
  rcases h with rfl | h
  case inl => rfl
  case inr =>
    by_cases hs : ∃ es, e = set op es
    case pos =>
      obtain ⟨es, rfl⟩ := hs
      have hn : NormalSet op es := h.node
      have hf : flatten op [set op es] = flatten op es := by
        rw [flatten_eq_self hn.not_nested hn.distinct]
        simp [flatten, operandsIn, distinct_eq_self hn.distinct]
      rw [setOf, setWith, hf]
      exact setOf_eq_set h
    case neg =>
      push Not at hs
      have hu : ¬hasUnresolvable [e] := Normal.not_hasUnresolvable (by simpa using h)
      have hf : flatten op [e] = [e] := flatten_eq_self (by simpa using hs) (by simp)
      rw [setOf, setWith, hf, if_neg hu]
      rfl

end Remade

section Run

variable {σ : Type} {inner : Outlining} {kind : Kind} {f : Expr → StateM σ Expr} {all : Bool}
  {e : Expr} {es : List Expr}

theorem exists_run_replaceAllWith (h : ∀ e ∈ es, ∀ s, ∃ s',
    (replaceWith inner kind f all e).run s = pure (e, s')) (s : σ) :
    ∃ s', (replaceAllWith inner kind f all es).run s = pure (es, s') := by
  induction es generalizing s
  case nil => exact ⟨s, rfl⟩
  case cons e es ih =>
    have ⟨s₁, he⟩ := h e mem_cons_self s
    have ⟨s₂, hs⟩ := ih (fun d hd => h d (mem_cons_of_mem _ hd)) s₁
    exact ⟨s₂, by simp [replaceAllWith, he, hs]⟩

theorem exists_run_settle {rebuilt : StateM σ Expr} {s : σ}
    (hf : ∀ e s, ((f e).run s).1 = e) (h : ∃ s', rebuilt.run s = pure (e, s')) :
    ∃ s', (settle kind f e rebuilt).run s = pure (e, s') := by
  obtain ⟨s', h⟩ := h
  simp only [settle, StateT.run_bind, h, pure_bind]
  split
  case isTrue  => exact ⟨((f e).run s').2, Prod.ext (hf e s') rfl⟩
  case isFalse => exact ⟨s', rfl⟩

-- In a normal tree there is nothing to simplify as long as its nodes are replaced by themselves.
theorem exists_run_replaceWith (h : Normal e) (hf : ∀ e s, ((f e).run s).1 = e) (s : σ) :
    ∃ s', (replaceWith inner kind f all e).run s = pure (e, s') := by
  induction h generalizing s
  case intro e hn hc ih =>
    rw [replaceWith_eq]
    split
    case isFalse => exact exists_run_settle hf ⟨s, rfl⟩
    case isTrue =>
      have ⟨s', hs⟩ := exists_run_replaceAllWith ih s
      have hb := rebuildWith_children inner ⟨hn, hc⟩
      exact exists_run_settle hf ⟨s', by simp [hs, hb]⟩

end Run

namespace Built

variable {σ : Type} {e : Expr} {f : Expr → StateM σ Expr}

-- Replacing nodes by themselves changes nothing in what has been built: each node is just what the
-- operation for its kind makes of its parts, and sets of one operand are that operand.
theorem replace_by_itself (h : Built e) (hf : ∀ e s, ((f e).run s).1 = e) (kind : Kind)
    (all : Bool) (s : σ) :
    ((replace kind f all e).run s).1 = e ∧ (∀ n ∈ e.nodes, n.remade = n) ∧
      Expr.allOf [e] = e ∧ Expr.anyOf [e] = e := by
  refine ⟨?replaced, ?remade, setOf_singleton .and h.simplified, setOf_singleton .or h.simplified⟩
  case replaced =>
    have hr : ∃ s', (replace kind f all e).run s = pure (e, s') := by
      rcases h.simplified with rfl | hn
      case inl => exact exists_run_settle hf ⟨s, rfl⟩
      case inr => exact exists_run_replaceWith hn hf s
    have ⟨s', hs⟩ := hr
    exact congrArg Prod.fst hs
  case remade =>
    rcases h.simplified with rfl | hn
    case inl => simp [nodes, Expr.remade, rebuildWith, withChildren]
    case inr => exact fun n hm => remade_eq_self (hn.of_mem_nodes n hm) (h.prepared n hm)

theorem replace_by_itself_counting :
    let e := Expr.choose (.pathTo "Active") (.ofString "x") (.lengthOf (.pathTo "Items"))
    let count : Expr → StateM Nat Expr := fun e => modifyGet fun n => (e, n + 1)
    Built e ∧ (∀ e n, ((count e).run n).1 = e) ∧ ((replace .path count true e).run 0).1 = e := by
  intro e count
  have hb : Built e := by
    refine .choose (.pathTo "Active" none) ?_ (.lengthOf (.pathTo "Items" none))
    exact .ofValue (v := .string "x") nofun
  have hc : ∀ e n, ((count e).run n).1 = e := fun _ _ => rfl
  exact ⟨hb, hc, (hb.replace_by_itself hc .path true 0).left⟩

end Built
end BindingAlgebra.Expr
