import BindingAlgebra.Expr.Outline
import BindingAlgebra.Proofs.Relabeling

namespace BindingAlgebra

namespace Expr

open List

section Rebuilding

-- What replacements make of a node whose children have been replaced.
def rebuildWith (outline : Outlining) : Expr → List Expr → Expr
  | not _, [e]                => negate e
  | truthy _, [e]             => truthOf e
  | set op _, es              => setOf op es
  | comparison op _ _, [l, r] => relate op l r
  | ifElse _ _ _, [c, t, f]   => chooseWith outline c t f
  | concat _, es              => joinWith outline es
  | formatter n _, es         => if hasUnresolvable es then unresolvable else formatter n es
  | compositeType n _ o p, es =>
    if hasUnresolvable es then unresolvable else compositeType n es o p
  | call none n _, es         => invoke n es none
  | call (some _) n _, e :: es => invoke n es (some e)
  | e, es                     => e.withChildren es

theorem replaceWith_eq {σ : Type} (outline : Outlining) (kind : Kind) (f : Expr → StateM σ Expr)
    (all : Bool) (e : Expr) :
    replaceWith outline kind f all e = settle kind f e (
      if e.kind.entered all then do
        let es ← replaceAllWith outline kind f all e.children
        return rebuildWith outline e es
      else return e) := by
  cases e
  case call receiver _ _ =>
    cases receiver <;>
      simp [replaceWith, replaceAllWith, rebuildWith, children, Expr.kind, Kind.entered]
  all_goals
    cases all <;>
      simp [replaceWith, replaceAllWith, rebuildWith, children, Expr.kind, Kind.entered]

theorem rebuildWith_eq_withChildren {outline : Outlining} {e : Expr} {es : List Expr}
    (h : Normal (e.withChildren es)) (hl : es.length = e.children.length) :
    rebuildWith outline e es = e.withChildren es := by
  cases e
  case call receiver _ _ =>
    cases receiver
    case none => exact invoke_eq_call h
    case some =>
      obtain ⟨d, ds, rfl⟩ := exists_cons_of_length_eq_add_one hl
      exact invoke_eq_call h
  case not =>
    obtain ⟨d, rfl⟩ := length_eq_one_iff.mp hl
    exact negate_eq_not h
  case truthy =>
    obtain ⟨d, rfl⟩ := length_eq_one_iff.mp hl
    exact truthOf_eq_truthy h
  case comparison =>
    obtain ⟨l, r, rfl⟩ := length_eq_two.mp hl
    exact relate_eq_comparison h
  case ifElse =>
    obtain ⟨c, t, f, rfl⟩ := length_eq_three.mp hl
    exact chooseWith_eq_ifElse h
  case set => exact setOf_eq_set h
  case concat => exact joinWith_eq_concat h
  case formatter | compositeType => exact if_neg (Normal.not_hasUnresolvable fun _ => h.child)
  all_goals rfl

end Rebuilding

-- The path that takes the place of the path number `n` that is set aside.
def placeholder (n : Nat) : PathBinding Expr where
  path  := "$" ++ displayInt n
  model := placeholderModel

theorem samePath_placeholder (i j : Nat) (h : samePath (placeholder i) (placeholder j)) :
    i = j := by
  have hp : "$" ++ displayInt i = "$" ++ displayInt j := path_eq_of_samePath h
  exact Int.ofNat_inj.mp (displayInt_inj (by simpa using hp))

section Run

variable {inner : Outlining} {all : Bool} {e : Expr} {es : List Expr}

theorem run_replaceAllWith (aside : List Expr)
    (ih : ∀ e ∈ es, ∀ aside, (replaceWith inner .path setAside all e).run aside =
      pure (e.relabel all placeholder aside.length, aside ++ (e.visitedPaths all).map path)) :
    (replaceAllWith inner .path setAside all es).run aside =
      pure (
        relabelAll all placeholder aside.length es,
        aside ++ (visitedPathsAll all es).map path) := by
  induction es generalizing aside
  case nil => simp [replaceAllWith, relabelAll, visitedPathsAll]
  case cons e es ih' =>
    have he := ih e mem_cons_self aside
    have hs := ih' (aside ++ (e.visitedPaths all).map path) fun f hf => ih f (mem_cons_of_mem _ hf)
    simp only [length_append, length_map] at hs
    simp [replaceAllWith, relabelAll, visitedPathsAll, he, hs]

-- Setting paths aside numbers them in their order and leaves all else as it is: in a normal tree
-- there is nothing left to simplify, and that does not change as its paths become distinct.
theorem run_replaceWith (h : Normal e) (aside : List Expr) :
    (replaceWith inner .path setAside all e).run aside =
      pure (e.relabel all placeholder aside.length, aside ++ (e.visitedPaths all).map path) := by
  induction h generalizing aside
  case intro e hn hc ih =>
    have hr : Normal (e.relabel all placeholder aside.length) :=
      Normal.relabel samePath_placeholder ⟨hn, hc⟩
    rw [replaceWith_eq]
    cases meeting all e
    case path b => rfl
    case enter he =>
      have hp : ¬e.kind = .path := Kind.ne_path_of_entered he
      rw [relabel_of_entered he] at hr ⊢
      rw [visitedPaths_of_entered he]
      simp [settle, he, hp, run_replaceAllWith aside ih,
        rebuildWith_eq_withChildren hr (length_relabelAll _)]
    case leave hp he =>
      rw [relabel_of_not_entered hp he, visitedPaths_of_not_entered hp he]
      have hp : ¬e.kind = .path := by simpa [isPath] using hp
      simp [settle, he, hp]

end Run

theorem formatCall_evaluateFormatter {es : List Expr} (h : ¬hasUnresolvable es) :
    formatCall evaluateFormatter es =
      formatter standardFormatter (ofString "evaluateComplexExpression" :: es) := by
  have ho : evaluateFormatter.toList.takeWhile (· ≠ '#') = standardFormatter.toList := by decide
  have hm : (evaluateFormatter.toList.dropWhile (· ≠ '#')).drop 1 =
      "evaluateComplexExpression".toList := by decide
  rw [formatCall, if_neg h, ho, hm]
  simp

-- The outline of a normal tree.
theorem outline_eq {e : Expr} (all : Bool) (h : e = unresolvable ∨ Normal e) :
    outline e all = formatter standardFormatter
      (ofString "evaluateComplexExpression" ::
        ofString (e.relabel all placeholder 0).written :: (e.visitedPaths all).map path) := by
  have hr : (replaceWith (outlineAt 1) .path setAside all e).run [] =
      pure (e.relabel all placeholder 0, (e.visitedPaths all).map path) := by
    rcases h with rfl | h
    case inl => rfl
    case inr => exact run_replaceWith h []
  have hu : ¬hasUnresolvable
      (ofString (e.relabel all placeholder 0).written :: (e.visitedPaths all).map path) := by
    simp [hasUnresolvable_iff, ofString]
  calc
    outline e all = formatCall evaluateFormatter
        (ofString (e.relabel all placeholder 0).written :: (e.visitedPaths all).map path) := by
      rw [outline, outlineAt, outlineWith, hr]
      rfl
    _ = _ := formatCall_evaluateFormatter hu

end Expr
end BindingAlgebra
