import BindingAlgebra.Proofs.Absorption

namespace BindingAlgebra.Expr

open List Position

-- Nothing unresolvable stands where replacements come by.
def Cleared (all : Bool) (e : Expr) : Prop :=
  ¬∃ p, Stands (·.kind.entered all) unresolvable p e

variable {inner : Outlining} {all : Bool} {e : Expr}

section Cleared

theorem cleared_iff : Cleared all e ↔
    e ≠ unresolvable ∧ (e.kind.entered all → ∀ c ∈ e.children, Cleared all c) := by
  rw [Cleared, Stands.exists_iff]
  simp [Cleared]

theorem pervasive_cleared (all : Bool) : Pervasive all (Cleared all) where
  leave hu hn := cleared_iff.mpr ⟨hu, fun he => absurd he hn⟩
  enter he _ h := by
    refine cleared_iff.mpr ⟨?_, fun _ => h⟩
    rintro rfl
    cases he
  child h := (cleared_iff.mp h).right

-- Setting paths aside does not make anything unresolvable.
theorem cleared_run_setAside (ho : ∀ e all, IsOutline (inner e all)) (h : Cleared all e)
    (aside : List Expr) :
    Cleared all ((replaceWith inner .path setAside all e).run aside).1 := by
  have hp := pervasive_cleared all
  have hr : Replaces (fun e all => some (inner e all)) inner .path setAside all
      (fun _ => True) (fun e e' => Cleared all e → Cleared all e') (fun _ => True) := {
    child    := fun _ _ _ _ => trivial
    left     := fun _ h => h
    replaced := fun _ _ => ⟨fun _ => hp.leave nofun nofun, trivial⟩
    answered := fun _ _ _ _ => rfl
    rebuilt  := fun _ he hes h => hp.rebuildWith he hes.length_eq.symm ho
      (forall_mem_of_forall₂ hes fun c hc _ hcc => hcc (hp.child h he c hc))
  }
  obtain ⟨rest, aside', _, ht, hc, _⟩ := hr.run (e := e) (s := aside) trivial trivial
  rw [ht]
  exact hc h

end Cleared

section Aside

theorem run_answers_setAside (ms : List (Position × Expr)) (aside : List Expr) :
    ∃ as, (answers setAside ms).run aside = pure (as, aside ++ ms.map Prod.snd) := by
  induction ms generalizing aside
  case nil => exact ⟨[], by simp [answers]⟩
  case cons m ms ih =>
    obtain ⟨as, ha⟩ := ih (aside ++ [m.2])
    exact ⟨_ :: as, by simp [answers_cons, setAside, ha]; rfl⟩

theorem map_snd_numbered_met {es : List Expr}
    (ih : ∀ e ∈ es, (e.met .path all).map Prod.snd = (e.visitedPaths all).map path) (k : Nat) :
    (numbered k (es.map (met .path all))).map Prod.snd = (visitedPathsAll all es).map path := by
  induction es generalizing k
  case nil => rfl
  case cons e es ih' =>
    obtain ⟨he, hes⟩ := forall_mem_cons.mp ih
    simp [numbered, visitedPathsAll, Function.comp_def, ih' hes, he]

theorem map_snd_met_path (all : Bool) (e : Expr) :
    (e.met .path all).map Prod.snd = (e.visitedPaths all).map path := by
  induction e using children_induction
  case step e ih =>
    rw [met_eq]
    cases meeting all e
    case path b => rfl
    case enter he =>
      rw [if_pos he, if_neg (Kind.ne_path_of_entered he), append_nil, visitedPaths_of_entered he,
        map_snd_numbered_met ih]
    case leave hp hn =>
      have hk : e.kind ≠ .path := by simpa [isPath] using hp
      rw [if_neg hn, if_neg hk, visitedPaths_of_not_entered hp hn]
      rfl

theorem run_replace_setAside (e : Expr) (all : Bool) :
    ((replace .path setAside all e).run []).2 = (e.visitedPaths all).map path := by
  obtain ⟨rest, as, aside, ht, ha, _⟩ := asks_replaceWith outline .path setAside all e []
  obtain ⟨bs, hb⟩ := run_answers_setAside (e.met .path all) []
  cases ha.symm.trans hb
  rw [replace, ht, ← map_snd_met_path]
  rfl

end Aside

section Outline

-- What is left of a tree whose paths are set aside is unresolvable just if something unresolvable
-- stands where replacements come by. Its outline does not take notice of that: it is the call of a
-- formatter, whatever is left.
theorem outline_never_unresolvable (e : Expr) (all : Bool) :
    let rest := ((replace .path setAside all e).run []).1
    (rest = unresolvable ↔ ∃ p, Stands (·.kind.entered all) unresolvable p e) ∧
      outline e all = formatter standardFormatter
        (ofString "evaluateComplexExpression" :: ofString rest.written ::
          (e.visitedPaths all).map path) := by
  intro rest
  refine ⟨⟨fun hu => ?_, fun ⟨p, hs⟩ => ?_⟩, ?_⟩
  · by_contra hn
    have ho : ∀ e all, IsOutline (outline e all) := by
      rw [outline_eq_outlineWith]
      exact isOutline_outlineWith _
    exact (cleared_iff.mp (cleared_run_setAside ho hn [])).left hu
  · have hp : Stands (Passed .path all) unresolvable p e :=
      hs.mono fun _ he => ⟨he, Kind.ne_path_of_entered he⟩
    have hk : Kind.path ≠ .unresolvable := nofun
    exact run_replaceWith_of_stands hk hp []
  · have hu : ¬hasUnresolvable (ofString rest.written :: (e.visitedPaths all).map path) := by
      simp [hasUnresolvable_iff, ofString]
    calc outline e all
      _ = formatCall evaluateFormatter
          (ofString rest.written :: ((replace .path setAside all e).run []).2) := by
        rw [outline_eq_outlineWith]
        rfl
      _ = _ := by rw [run_replace_setAside, formatCall_evaluateFormatter hu]

-- The formatter is handed the unresolvable rest in writing.
theorem unresolvable_outlined :
    ((replace .path setAside true unresolvable).run []).1 = unresolvable ∧
      outline unresolvable true = formatter standardFormatter
        [ofString "evaluateComplexExpression",
          ofString "\x7b\x22_type\x22:\x22Unresolvable\x22\x7d"] ∧
      outline unresolvable true ≠ unresolvable := by
  have hw : unresolvable.written = "\x7b\x22_type\x22:\x22Unresolvable\x22\x7d" := by
    decide +kernel
  have ho : outline unresolvable true = formatter standardFormatter
      [ofString "evaluateComplexExpression", ofString unresolvable.written] := by
    exact outline_eq true (.inl rfl)
  exact ⟨rfl, hw ▸ ho, by rw [ho]; nofun⟩

end Outline
end BindingAlgebra.Expr
