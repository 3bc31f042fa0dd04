import BindingAlgebra.Proofs.Built

namespace BindingAlgebra.Expr

open List

-- The paths that replacements miss are those below nodes that they do not enter.
inductive Missed (all : Bool) (b : PathBinding Expr) : Expr → Prop
  | skipped : ¬e.kind.entered all → c ∈ e.children → path b ∈ c.nodes → Missed all b e
  | entered : e.kind.entered all → c ∈ e.children → Missed all b c → Missed all b e

section Missed

variable {all : Bool} {g : Nat → PathBinding Expr} {n : Nat} {b : PathBinding Expr}
  {e : Expr} {es : List Expr}

theorem missed_of_entered_iff (h : e.kind.entered all) :
    Missed all b e ↔ ∃ c ∈ e.children, Missed all b c where
  mp  := by
    intro hm
    cases hm
    case skipped => contradiction
    case entered => exact ⟨_, ‹_›, ‹_›⟩
  mpr := by
    intro ⟨c, hc, hm⟩
    exact .entered h hc hm

theorem missed_of_not_entered_iff (h : ¬e.kind.entered all) :
    Missed all b e ↔ ∃ c ∈ e.children, path b ∈ c.nodes where
  mp  := by
    intro hm
    cases hm
    case skipped => exact ⟨_, ‹_›, ‹_›⟩
    case entered => contradiction
  mpr := by
    intro ⟨c, hc, hb⟩
    exact .skipped h hc hb

theorem mem_visitedPathsAll_iff :
    b ∈ visitedPathsAll all es ↔ ∃ e ∈ es, b ∈ e.visitedPaths all := by
  induction es <;> simp_all [visitedPathsAll]

-- Every path of a tree is visited or missed.
theorem path_mem_nodes_iff (all : Bool) (b : PathBinding Expr) (e : Expr) :
    path b ∈ e.nodes ↔ b ∈ e.visitedPaths all ∨ Missed all b e := by
  induction e using children_induction
  case step e ih =>
    rw [mem_nodes_iff]
    cases meeting all e
    case path c => simp [children, visitedPaths, missed_of_not_entered_iff, kind, Kind.entered]
    case enter he =>
      have hb : path b ≠ e := by
        rintro rfl
        contradiction
      rw [visitedPaths_of_entered he, missed_of_entered_iff he, mem_visitedPathsAll_iff]
      simp only [hb, false_or, ← exists_or, ← and_or_left]
      exact exists_congr fun c => and_congr_right fun hc => ih c hc
    case leave hp hn =>
      have hb : path b ≠ e := by
        rintro rfl
        exact hp rfl
      rw [visitedPaths_of_not_entered hp hn, missed_of_not_entered_iff hn]
      simp [hb]

theorem missed_relabel_iff (e : Expr) : Missed all b (e.relabel all g n) ↔ Missed all b e := by
  induction e using children_induction generalizing n
  case step e ih =>
    cases meeting all e
    case path c => simp [relabel, missed_of_not_entered_iff, kind, Kind.entered, children]
    case leave hp hn => rw [relabel_of_not_entered hp hn]
    case enter he =>
      have he' : (e.relabel all g n).kind.entered all := by rwa [kind_relabel]
      rw [missed_of_entered_iff he', missed_of_entered_iff he, children_relabel he]
      constructor
      case mp =>
        rintro ⟨d, hd, hm⟩
        obtain ⟨c, hc, m, _, hr⟩ := mem_relabelAll hd
        exact ⟨c, hc, (ih c hc).mp (hr ▸ hm)⟩
      case mpr =>
        rintro ⟨c, hc, hm⟩
        obtain ⟨m, hd⟩ := exists_mem_relabelAll all g n hc
        exact ⟨_, hd, (ih c hc).mpr hm⟩

end Missed

-- The parts of an outline are the name of the evaluating method, the tree without its visited paths
-- in writing, and these paths in their order. From them the tree can be put together again.
theorem outline_restorable {e : Expr} (h : Built e) (all : Bool) :
    let hoisted := e.visitedPaths all
    let rest    := e.relabel all placeholder 0
    outline e all = formatter standardFormatter
        (ofString "evaluateComplexExpression" :: ofString rest.written :: hoisted.map path) ∧
      rest.visitedPaths all = (range hoisted.length).map placeholder ∧
      rest.relabel all (fun k => hoisted.getD k (placeholder k)) 0 = e := by
  refine ⟨outline_eq all h.simplified, ?_, ?_⟩
  · rw [visitedPaths_relabel, range_eq_range']
  · rw [relabel_relabel]
    apply relabel_eq_self
    apply ext_getElem <;> simp +contextual

theorem outline_restorable_greeting :
    let e    := join [pathTo "Name", ofString ", ", pathTo "Name"]
    let rest := concat [path (placeholder 0), ofString ", ", path (placeholder 1)]
    Built e ∧
      outline e false = formatter standardFormatter
        [ofString "evaluateComplexExpression", ofString rest.written, pathTo "Name",
          pathTo "Name"] ∧
      rest.relabel false ([{ path := "Name" }, { path := "Name" }].getD · (placeholder 2)) 0 =
        e := by
  intro e rest
  have h : Built e := by
    refine .join fun d hd => ?_
    simp only [mem_cons, not_mem_nil, or_false] at hd
    rcases hd with rfl | rfl | rfl
    case inr.inl => exact .ofValue (v := .string _) nofun
    all_goals exact .pathTo "Name" none
  have ⟨ho, _⟩ := outline_restorable h false
  exact ⟨h, ho, rfl⟩

-- What operations outline, and whether they have logic and conditionals entered on the way.
inductive Outlined : Expr → Expr → Bool → Prop
  | outline : Built e → Outlined (outline e true) e true
  | choose : Built c → Built t → Built f → ¬hasUnresolvable [c, t, f] →
      canonical c t f = (c', t', f') → collapse? c' t' f' = none →
      c'.isComplex || t'.isComplex || f'.isComplex →
      Outlined (choose c t f) (formatCall ifElseFormatter [c', t', f']) true
  | join : (∀ e ∈ es, Built e) → ¬hasUnresolvable es → joinConstants? es = none →
      es.any isComplex → Outlined (join es) (formatCall concatFormatter es) false
  | format (name : String) (keys : Option (List String)) : (∀ e ∈ es, Built e) →
      ¬hasUnresolvable es → (withKeys keys es).any (fun e => !e.isConstant && !e.isPath) →
      Outlined (format name es keys false) (formatCall name (withKeys keys es)) true

namespace Outlined

variable {outlined e : Expr} {all : Bool}

theorem simplified (h : Outlined outlined e all) : Simplified e := by
  cases h
  case outline h => exact h.simplified
  case choose c t f c' t' f' hc ht hf hu hp hs hx =>
    have ⟨hc, ht, hf⟩ := Simplified.all_normal_three hu hc.simplified ht.simplified hf.simplified
    have ⟨hc', ht', hf'⟩ := Simplified.canonical_normal hp hc ht hf
    exact .formatCall _ (by simp [Simplified, hc', ht', hf'])
  case join es hb _ _ _ => exact .formatCall _ fun e he => (hb e he).simplified
  case format name keys hb _ _ =>
    have hs := forall_mem_withKeys keys (fun b => .inr (.path b)) fun e he => (hb e he).simplified
    exact .formatCall name hs

theorem eq_outline (h : Outlined outlined e all) : outlined = Expr.outline e all := by
  cases h
  case outline => rfl
  case choose hu hp hs hx => rw [Expr.choose, chooseWith_eq hu hp, hs, Option.getD_none, if_pos hx]
  case join hu hj hx => rw [Expr.join, joinWith, if_neg hu, hj, if_pos hx]
  case format hu hx => rw [Expr.format, formatWith, if_neg hu]; simp [hx]

-- The rest of an outlined tree binds nothing but placeholders if, and only if, no other path is
-- missed: one that a length measures, or one below logic or a conditional that is not entered.
theorem every_path_hoisted_iff (h : Outlined outlined e all) :
    let hoisted := e.visitedPaths all
    let rest    := e.relabel all placeholder 0
    outlined = formatter standardFormatter
        (ofString "evaluateComplexExpression" :: ofString rest.written :: hoisted.map path) ∧
      ((∀ b, path b ∈ rest.nodes → ∃ k < hoisted.length, b = placeholder k) ↔
        ∀ b, Missed all b e → ∃ k < hoisted.length, b = placeholder k) := by
  intro hoisted rest
  refine ⟨by rw [h.eq_outline]; exact outline_eq all h.simplified, ?_⟩
  have hb : ∀ b, path b ∈ rest.nodes ↔
      (∃ k < hoisted.length, b = placeholder k) ∨ Missed all b e := by
    intro b
    rw [path_mem_nodes_iff all, missed_relabel_iff, visitedPaths_relabel, ← range_eq_range']
    simp [hoisted, eq_comm]
  constructor
  case mp =>
    intro ha b hm
    exact ha b ((hb b).mpr (.inr hm))
  case mpr =>
    intro ha b hp
    cases (hb b).mp hp
    case inl hk => exact hk
    case inr hm => exact ha b hm

theorem every_path_hoisted_iff_negated :
    let e := formatter "my.Formatter" [not (path { path := "Items" })]
    Outlined (Expr.format "my.Formatter" [.negate (.pathTo "Items")] none false) e true ∧
      ∀ b, path b ∈ (e.relabel true placeholder 0).nodes → ∃ k < 1, b = placeholder k := by
  intro e
  have ho :
      Outlined (Expr.format "my.Formatter" [.negate (.pathTo "Items")] none false) e true := by
    refine .format "my.Formatter" none (fun d hd => ?_) (by decide) rfl
    obtain rfl := mem_singleton.mp hd
    exact .negate (.pathTo "Items" none)
  have ⟨_, hi⟩ := ho.every_path_hoisted_iff
  refine ⟨ho, hi.mpr fun b hm => ?_⟩
  rw [missed_of_entered_iff rfl] at hm
  have ⟨c, hc, hm⟩ := hm
  rw [mem_singleton.mp hc, missed_of_entered_iff rfl] at hm
  have ⟨d, hd, hm⟩ := hm
  rw [mem_singleton.mp hd, missed_of_not_entered_iff (by decide)] at hm
  have ⟨_, hn, _⟩ := hm
  cases hn

-- A path that is measured stays where it is.
theorem measured_path_not_hoisted :
    let e := formatter "my.Formatter" [length (path { path := "Items" })]
    Outlined (Expr.format "my.Formatter" [.lengthOf (.pathTo "Items")] none false) e true ∧
      ¬∀ b, path b ∈ (e.relabel true placeholder 0).nodes →
        ∃ k < (e.visitedPaths true).length, b = placeholder k := by
  intro e
  constructor
  case left =>
    refine .format "my.Formatter" none (fun d hd => ?_) (by decide) rfl
    obtain rfl := mem_singleton.mp hd
    exact .lengthOf (.pathTo "Items" none)
  case right =>
    intro h
    have hb : path { path := "Items" } ∈ (e.relabel true placeholder 0).nodes := by
      simp [e, relabel, relabelAll, nodes, nodesAll]
    obtain ⟨k, hk, _⟩ := h _ hb
    exact absurd hk k.not_lt_zero

end Outlined
end BindingAlgebra.Expr
