import BindingAlgebra.Expr.Path
import BindingAlgebra.Expr.Wire
import BindingAlgebra.Proofs.JsonText
import BindingAlgebra.Proofs.Occurrence

namespace BindingAlgebra

open List ObjectLiteral

theorem ObjectLiteral.valueAt?_append (key : String) (xs ys : List (String × ε)) :
    valueAt? key (xs ++ ys) = (valueAt? key xs).or (valueAt? key ys) := by
  induction xs
  case nil => rfl
  case cons x xs ih => by_cases h : x.1 = key <;> simp [valueAt?, h, ih]

theorem BindingMode.name_inj {m m' : BindingMode} (h : m.name = m'.name) : m = m' := by
  cases m <;> cases m' <;> simp_all [name]

namespace Expr

-- Whether no other expression has the same JSON form.
def Recognizable (e : Expr) : Prop :=
  ∀ f : Expr, e.wire = f.wire → e = f

section Fields

variable {key : String} {k k' : Kind} {x y : Option Json} {fs gs : List (String × Json)}

theorem valueAt?_field? (k key : String) (x : Option Json) :
    valueAt? k (field? key x) = if key = k then x else none := by
  cases x <;> simp [field?, valueAt?]

theorem field?_inj (h : field? key x = field? key y) : x = y := by
  cases x <;> cases y <;> simp_all [field?]

theorem tagged_inj (h : tagged k fs = tagged k' gs) : k = k' ∧ fs = gs := by
  simp only [tagged, Json.object.injEq, cons.injEq, Prod.mk.injEq, Json.string.injEq, true_and] at h
  have hk := congrArg Kind.ofName? h.left
  rw [Kind.ofName?_name, Kind.ofName?_name] at hk
  exact ⟨Option.some.inj hk, h.right⟩

theorem wire_eq_tagged (e : Expr) : ∃ fs, e.wire = tagged e.kind fs := by
  cases e
  case call receiver _ _ => cases receiver <;> exact ⟨_, rfl⟩
  all_goals exact ⟨_, rfl⟩

theorem kind_eq_of_wire_eq {e f : Expr} (h : e.wire = f.wire) : e.kind = f.kind := by
  obtain ⟨_, he⟩ := e.wire_eq_tagged
  obtain ⟨_, hf⟩ := f.wire_eq_tagged
  exact (tagged_inj (he ▸ hf ▸ h)).left

end Fields

section Data

theorem map_inj_of_forall {g : α → β} {xs ys : List α} (hx : ∀ x ∈ xs, ∀ y, g x = g y → x = y)
    (h : xs.map g = ys.map g) : xs = ys := by
  induction xs generalizing ys
  case nil => exact (map_eq_nil_iff.mp h.symm).symm
  case cons x xs ih =>
    obtain ⟨y, ys, rfl, hy, hys⟩ := map_eq_cons_iff.mp h.symm
    have := hx x mem_cons_self y hy.symm
    have := ih (fun x hm => hx x (.tail _ hm)) hys.symm
    congr

theorem wireAll_eq_map (es : List Expr) : wireAll es = es.map wire := by
  induction es <;> simp_all [wireAll]

theorem wireEntries_eq_map (es : List (String × Expr)) :
    wireEntries es = es.map fun (k, e) => (k, e.wire) := by
  induction es <;> simp_all [wireEntries]

theorem wireAll_inj {es es' : List Expr} (he : ∀ e ∈ es, e.Recognizable)
    (h : wireAll es = wireAll es') : es = es' := by
  rw [wireAll_eq_map, wireAll_eq_map] at h
  exact map_inj_of_forall he h

theorem wireEntries_inj {o o' : ObjectLiteral Expr} (ho : ∀ e ∈ o.values, e.Recognizable)
    (h : wireEntries o.entries = wireEntries o'.entries) : o = o' := by
  rw [wireEntries_eq_map, wireEntries_eq_map] at h
  refine congrArg ObjectLiteral.mk (map_inj_of_forall (fun x hx y hxy => ?_) h)
  have ⟨hk, hv⟩ := Prod.mk.inj hxy
  exact Prod.ext hk (ho x.2 (mem_map_of_mem hx) y.2 hv)

theorem wireObject?_inj {o o' : Option (ObjectLiteral Expr)}
    (ho : ∀ e ∈ attributesOf o, e.Recognizable)
    (h : wireObject? o = wireObject? o') : o = o' := by
  cases o <;> cases o' <;> simp only [wireObject?, reduceCtorEq] at h
  case none.none => rfl
  case some.some =>
    rw [Option.some.injEq, Json.object.injEq] at h
    rw [wireEntries_inj ho h]

theorem wireValue?_inj {v v' : Value Expr} (hv : ∀ e ∈ v.parts, e.Recognizable)
    (h : wireValue? v = wireValue? v') : v = v' := by
  cases v <;> cases v' <;> simp only [wireValue?, reduceCtorEq, Option.some.injEq] at h
  case undefined.undefined | null.null => rfl
  case boolean.boolean => rw [Json.boolean.inj h]
  case integer.integer => rw [Json.integer.inj h]
  case decimal.decimal => rw [Json.decimal.inj h]
  case string.string => rw [Json.string.inj h]
  case array.array => exact congrArg Value.array (wireAll_inj hv (Json.array.inj h))
  case object.object => exact congrArg Value.object (wireEntries_inj hv (Json.object.inj h))

theorem map_string_inj {s s' : Option String} (h : s.map Json.string = s'.map Json.string) :
    s = s' :=
  Option.map_injective (fun _ _ => Json.string.inj) h

theorem wirePath_inj {b b' : PathBinding Expr} (hb : ∀ e ∈ b.parts, e.Recognizable)
    (h : wirePath b = wirePath b') : b = b' := by
  -- An absent field leaves no trace, so that each field is looked up by its key.
  have field := fun key => congrArg (valueAt? key) h
  have hp := field "path"
  have hm := field "modelName"
  have ht := field "type"
  have hg := field "targetType"
  have hd := field "mode"
  have hc := field "constraints"
  have hf := field "formatOptions"
  have ha := field "parameters"
  clear h field
  cases b
  cases b'
  simp only [PathBinding.parts, forall_mem_append] at hb
  simp [wirePath, valueAt?_append, valueAt?_field?, valueAt?] at hp hm ht hg hd hc hf ha
  rw [PathBinding.mk.injEq]
  exact ⟨hp, map_string_inj hm, map_string_inj ht, map_string_inj hg,
    Option.map_injective (fun _ _ h => BindingMode.name_inj (Json.string.inj h)) hd,
    wireObject?_inj hb.left.left hc, wireObject?_inj hb.left.right hf, wireObject?_inj hb.right ha⟩

end Data

section Nodes

variable {n n' : String} {es es' : List Expr}

theorem call_inj {receiver receiver' : Option Expr} (hr : ∀ e ∈ receiver, e.Recognizable)
    (hes : ∀ e ∈ es, e.Recognizable)
    (h : (call receiver n es).wire = (call receiver' n' es').wire) :
    call receiver n es = call receiver' n' es' := by
  cases receiver <;> cases receiver' <;> simp only [wire] at h <;>
    replace h := (tagged_inj h).right <;>
    simp only [cons.injEq, Prod.mk.injEq, Json.string.injEq, Json.array.injEq, String.reduceEq,
      reduceCtorEq, true_and, and_true, false_and] at h
  case none.none => rw [h.left, wireAll_inj hes h.right]
  case some.some e e' =>
    obtain ⟨he, hn, h⟩ := h
    rw [hr e rfl e' he, hn, wireAll_inj hes h]

theorem compositeType_inj {o p o' p' : Option (ObjectLiteral Expr)}
    (hes : ∀ e ∈ es, e.Recognizable) (ho : ∀ e ∈ attributesOf o, e.Recognizable)
    (hp : ∀ e ∈ attributesOf p, e.Recognizable)
    (h : (compositeType n es o p).wire = (compositeType n' es' o' p').wire) :
    compositeType n es o p = compositeType n' es' o' p' := by
  have field := fun key => congrArg (valueAt? key) (tagged_inj h).right
  have hn := field "type"
  have ha := field "parameters"
  have hf := field "formatOptions"
  have hb := field "bindingParameters"
  simp [valueAt?_append, valueAt?_field?, valueAt?] at hn ha hf hb
  rw [hn, wireAll_inj hes ha, wireObject?_inj ho hf, wireObject?_inj hp hb]

end Nodes

-- The tag tells the kind of a node, and each field what the node is made of.
theorem recognizable (e : Expr) : e.Recognizable := by
  induction e using parts_induction
  case step e ih =>
    intro f h
    have hk := kind_eq_of_wire_eq h
    cases e <;> cases f <;> simp only [kind, reduceCtorEq] at hk <;>
      simp only [parts, children, forall_mem_cons, forall_mem_append, Option.mem_toList] at ih
    case unresolvable.unresolvable => rfl
    case call.call => exact call_inj ih.left ih.right h
    case compositeType.compositeType =>
      exact compositeType_inj ih.left.left ih.left.right ih.right h
    all_goals
      simp only [wire] at h
      replace h := (tagged_inj h).right
    case constant.constant => rw [wireValue?_inj ih (field?_inj h)]
    case path.path => rw [wirePath_inj ih h]
    all_goals
      simp only [cons.injEq, Prod.mk.injEq, Json.string.injEq, Json.array.injEq, true_and,
        and_true] at h
    case embeddedBinding.embeddedBinding | embeddedExpression.embeddedExpression => rw [h]
    case reference.reference s s' => cases s <;> cases s' <;> simp_all
    case not.not | truthy.truthy | length.length => rw [ih.left _ h]
    case concat.concat => rw [wireAll_inj ih h]
    case formatter.formatter => rw [h.left, wireAll_inj ih h.right]
    case set.set => rw [LogicalOperator.token_inj h.left, wireAll_inj ih h.right]
    case comparison.comparison =>
      obtain ⟨ho, hl, hr⟩ := h
      rw [ComparisonOperator.token_inj ho, ih.left _ hl, ih.right.left _ hr]
    case ifElse.ifElse =>
      obtain ⟨hc, ht, hf⟩ := h
      rw [ih.left _ hc, ih.right.left _ ht, ih.right.right.left _ hf]

theorem wire_inj {e f : Expr} (h : e.wire = f.wire) : e = f :=
  e.recognizable f h

section Exact

open Json

-- No decimal is anywhere in an expression.
def DecimalFree (e : Expr) : Prop :=
  ∀ n, Occurs n e → ∀ x, n ≠ constant (.decimal x)

theorem decimalFree_iff {e : Expr} : DecimalFree e ↔
    (∀ x, e ≠ constant (.decimal x)) ∧ ∀ c ∈ e.parts, DecimalFree c :=
  Reaches.forall_iff

theorem exact_tagged_iff {k : Kind} {fs : List (String × Json)} :
    (tagged k fs).Exact ↔ ∀ f ∈ fs, f.2.Exact := by
  simp only [tagged, exact_object_iff, forall_mem_cons, exact_string, true_and]

theorem exact_field?_iff {key : String} {x : Option Json} :
    (∀ f ∈ field? key x, f.2.Exact) ↔ ∀ j ∈ x, j.Exact := by
  cases x <;> simp [field?]

theorem exact_wireAll_iff {es : List Expr} :
    (array (wireAll es)).Exact ↔ ∀ e ∈ es, e.wire.Exact := by
  rw [exact_array_iff, wireAll_eq_map, forall_mem_map]

theorem exact_wireEntries_iff {o : ObjectLiteral Expr} :
    (object (wireEntries o.entries)).Exact ↔ ∀ e ∈ o.values, e.wire.Exact := by
  rw [exact_object_iff, wireEntries_eq_map, forall_mem_map, ObjectLiteral.values, forall_mem_map]

theorem exact_wireObject?_iff {o : Option (ObjectLiteral Expr)} :
    (∀ j ∈ wireObject? o, j.Exact) ↔ ∀ e ∈ attributesOf o, e.wire.Exact := by
  cases o
  case none => simp [wireObject?, attributesOf]
  case some o => simp [wireObject?, attributesOf, exact_wireEntries_iff]

theorem exact_wireValue?_iff {v : Value Expr} :
    (∀ j ∈ wireValue? v, j.Exact) ↔ (∀ x, v ≠ .decimal x) ∧ ∀ e ∈ v.parts, e.wire.Exact := by
  cases v
  case undefined => simp [wireValue?, Value.parts]
  case null => simp [wireValue?, Value.parts, Bare.null.exact]
  case boolean b => simp [wireValue?, Value.parts, (Bare.boolean b).exact]
  case integer n => simp [wireValue?, Value.parts, (Bare.integer n).exact]
  case decimal x => simpa [wireValue?, Value.parts] using fun h => Exact.ne_decimal h x rfl
  case string s => simp [wireValue?, Value.parts, exact_string]
  case array => simp [wireValue?, exact_wireAll_iff, Value.parts]
  case object => simp [wireValue?, exact_wireEntries_iff, Value.parts]

theorem exact_wirePath_iff {b : PathBinding Expr} :
    (∀ f ∈ wirePath b, f.2.Exact) ↔ ∀ e ∈ b.parts, e.wire.Exact := by
  have hs : ∀ s : Option String, (∀ j ∈ s.map string, j.Exact) ↔ True := by
    intro s
    cases s <;> simp [exact_string]
  have hd : ∀ d : Option BindingMode, (∀ j ∈ d.map (string ·.name), j.Exact) ↔ True := by
    intro d
    cases d <;> simp [exact_string]
  cases b
  simp only [wirePath, forall_mem_append, forall_mem_singleton, exact_string, exact_field?_iff,
    hs, hd, exact_wireObject?_iff, PathBinding.parts, true_and]

-- Decimals in the form of a tree are decimals in the tree.
theorem exact_wire_iff {e : Expr} : e.wire.Exact ↔ DecimalFree e := by
  induction e using parts_induction
  case step e ih =>
    rw [decimalFree_iff, ← forall₂_congr ih]
    cases e
    case constant =>
      simp only [wire, exact_tagged_iff, exact_field?_iff, exact_wireValue?_iff, parts, ne_eq,
        constant.injEq]
    case path =>
      simp only [wire, exact_tagged_iff, exact_wirePath_iff, parts, ne_eq, reduceCtorEq,
        not_false_eq_true, implies_true, true_and]
    case reference s =>
      cases s <;> simp [wire, exact_tagged_iff, exact_string, Bare.null.exact, parts, children]
    case call receiver n es =>
      cases receiver <;> simp [wire, exact_tagged_iff, exact_string, exact_wireAll_iff, parts,
        children]
    all_goals
      simp only [wire, exact_tagged_iff, exact_field?_iff, exact_string, exact_wireAll_iff,
        exact_wireObject?_iff, parts, children, forall_mem_cons, forall_mem_append, not_mem_nil,
        false_imp_iff, ne_eq, reduceCtorEq, not_false_eq_true, implies_true, true_and, and_true,
        and_assoc]

end Exact

-- A tree is known from the text in which it is handed on, unless there are decimals in it.
theorem written_inj {e f : Expr} (he : e.DecimalFree) (hf : f.DecimalFree)
    (h : e.written = f.written) : e = f :=
  wire_inj (Json.render_inj (exact_wire_iff.mpr he) (exact_wire_iff.mpr hf) h)

theorem written_inj_amount :
    let style  := ObjectLiteral.mk [("style", ofString "it's \"x\"\n"), ("", constant .undefined)]
    let bare   := pathTo "Amount" "orders"
    let amount := annotate (fun b => { b with mode := some .twoWay, formatOptions := style }) bare
    let same   := path ⟨"Amount", "orders", none, none, some .twoWay, none, style, none⟩
    amount.DecimalFree ∧ same.DecimalFree ∧ amount.written = same.written ∧ amount = same := by
  intro style bare amount same
  have scalar : ∀ v : Value Expr, v.parts = [] → (∀ x, v ≠ .decimal x) →
      DecimalFree (constant v) := by
    intro v hp hd
    refine decimalFree_iff.mpr ⟨by simpa using hd, ?_⟩
    simp [parts, hp]
  have hd : amount.DecimalFree := by
    refine decimalFree_iff.mpr ⟨by simp [amount, bare, pathTo, annotate], ?_⟩
    have hp : amount.parts = [ofString "it's \"x\"\n", constant .undefined] := rfl
    simp only [hp, forall_mem_cons]
    exact ⟨scalar _ rfl (by simp), scalar _ rfl (by simp), forall_mem_nil _⟩
  have hw : amount.written = same.written := rfl
  exact ⟨hd, hd, hw, written_inj hd hd hw⟩

end Expr
end BindingAlgebra
