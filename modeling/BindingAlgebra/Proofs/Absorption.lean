import BindingAlgebra.Proofs.Calls
import BindingAlgebra.Proofs.Settled
import BindingAlgebra.Proofs.Distinct

namespace BindingAlgebra.Expr

open List Position

variable {σ : Type} {f : Expr → StateM σ Expr} {outline : Outlining} {kind : Kind} {all : Bool}
  {e c n : Expr} {es : List Expr} {p : Position} {s : σ}

section Children

-- Whatever replacements enter takes up what is unresolvable among its children.
theorem rebuildWith_unresolvable (outline : Outlining) (he : e.kind.entered all)
    (hl : es.length = e.children.length) (hu : unresolvable ∈ es) :
    rebuildWith outline e es = unresolvable := by
  have hm : hasUnresolvable es := hasUnresolvable_iff.mpr hu
  cases e
  case call | formatter | compositeType =>
    rw [rebuildWith_call outline (by simp [Expr.kind]) hl, if_pos hm]
  case concat => simp [rebuildWith, joinWith, hm]
  case set => exact setOf_unresolvable hu
  case not | truthy =>
    obtain ⟨d, rfl⟩ := length_eq_one_iff.mp hl
    cases mem_singleton.mp hu
    rfl
  case comparison =>
    obtain ⟨l, r, rfl⟩ := length_eq_two.mp hl
    simp [rebuildWith, relate, hm]
  case ifElse =>
    obtain ⟨c, t, f, rfl⟩ := length_eq_three.mp hl
    simp [rebuildWith, chooseWith, hm]
  all_goals contradiction

theorem run_replaceAllWith_cons (outline : Outlining) (kind : Kind) (f : Expr → StateM σ Expr)
    (all : Bool) (e : Expr) (es : List Expr) (s : σ) :
    (replaceAllWith outline kind f all (e :: es)).run s =
      let (e', s')   := (replaceWith outline kind f all e).run s
      let (es', s'') := (replaceAllWith outline kind f all es).run s'
      (e' :: es', s'') := by
  rw [replaceAllWith]
  rfl

theorem length_run_replaceAllWith (outline : Outlining) (kind : Kind) (f : Expr → StateM σ Expr)
    (all : Bool) (es : List Expr) (s : σ) :
    ((replaceAllWith outline kind f all es).run s).1.length = es.length := by
  induction es generalizing s
  case nil => rfl
  case cons e es ih =>
    rw [run_replaceAllWith_cons]
    exact congrArg Nat.succ (ih _)

-- The answers within the first of the children come first, and leave the state in which the others
-- have their turns.
theorem mem_answers_numbered_cons_iff (outline : Outlining) {k : Nat} {t : Position × Expr × Expr} :
    t ∈ ((answers f (numbered k ((e :: es).map (met kind all)))).run s).1 ↔
      t ∈ ((answers f (e.met kind all)).run s).1.map (Prod.map (k :: ·) id) ∨
        t ∈ ((answers f (numbered (k + 1) (es.map (met kind all)))).run
          ((replaceWith outline kind f all e).run s).2).1 := by
  obtain ⟨e', as, s', ht, ha, _⟩ := asks_replaceWith outline kind f all e s
  obtain ⟨bs, s'', hb⟩ : ∃ bs s'', (answers f (numbered (k + 1) (es.map (met kind all)))).run s' =
    pure (bs, s'') := ⟨_, _, rfl⟩
  have hr : (answers f (numbered k ((e :: es).map (met kind all)))).run s =
      pure (as.map (Prod.map (k :: ·) id) ++ bs, s'') := by
    simp [numbered, answers_append, answers_shift, ha, hb]
  have hs : ((replaceWith outline kind f all e).run s).2 = s' := congrArg Prod.snd ht
  rw [hr, ha, hs, hb]
  exact mem_append

-- What becomes of one among the children depends on the state in which its turn comes, and so do
-- the answers of the callback within it.
theorem exists_run_child (outline : Outlining) {i : Nat} (hc : es[i]? = some c) (k : Nat) (s : σ) :
    ∃ s', ((replaceWith outline kind f all c).run s').1 ∈
        ((replaceAllWith outline kind f all es).run s).1 ∧
      ∀ p n a, ((k + i) :: p, n, a) ∈
          ((answers f (numbered k (es.map (met kind all)))).run s).1 →
        (p, n, a) ∈ ((answers f (c.met kind all)).run s').1 := by
  induction es generalizing i k s
  case nil => cases hc
  case cons e es ih =>
    rw [run_replaceAllWith_cons]
    cases i
    case zero =>
      cases hc
      refine ⟨s, mem_cons_self, fun p n a hm => ?_⟩
      rcases (mem_answers_numbered_cons_iff outline).mp hm with hm | hm
      case inl =>
        obtain ⟨⟨q, m, b⟩, hm, he⟩ := mem_map.mp hm
        cases he
        exact hm
      case inr =>
        obtain ⟨i, _, _, _, _, he⟩ := mem_numbered_iff.mp (mem_of_mem_answers hm)
        have := (cons_eq_cons.mp he).left
        omega
    case succ i =>
      obtain ⟨s', hm, hs⟩ := ih hc (k + 1) ((replaceWith outline kind f all e).run s).2
      refine ⟨s', mem_cons_of_mem _ hm, fun p n a hp => hs p n a ?_⟩
      rcases (mem_answers_numbered_cons_iff outline).mp hp with hp | hp
      case inl =>
        obtain ⟨m, _, he⟩ := mem_map.mp hp
        have := (cons_eq_cons.mp (congrArg Prod.fst he)).left
        omega
      case inr => rwa [show k + 1 + i = k + (i + 1) by omega]

end Children

-- Nodes that replacements enter and leave in their places.
def Passed (kind : Kind) (all : Bool) (e : Expr) : Prop :=
  e.kind.entered all ∧ e.kind ≠ kind

section Propagation

theorem run_replaceWith_of_passed (h : Passed kind all e)
    (hu : unresolvable ∈ ((replaceAllWith outline kind f all e.children).run s).1) :
    ((replaceWith outline kind f all e).run s).1 = unresolvable := by
  obtain ⟨he, hk⟩ := h
  obtain ⟨es, s', hs⟩ : ∃ es s', (replaceAllWith outline kind f all e.children).run s =
    pure (es, s') := ⟨_, _, rfl⟩
  have hl := length_run_replaceAllWith outline kind f all e.children s
  rw [hs] at hu hl
  have hr : (replaceWith outline kind f all e).run s = pure (rebuildWith outline e es, s') := by
    simp [replaceWith_eq, settle, he, hk, hs]
  rw [hr]
  exact rebuildWith_unresolvable outline he hl hu

theorem run_replaceWith_of_stands (hk : kind ≠ .unresolvable)
    (h : Stands (Passed kind all) unresolvable p e) (s : σ) :
    ((replaceWith outline kind f all e).run s).1 = unresolvable := by
  induction h generalizing s
  case here =>
    have hr : (replaceWith outline kind f all unresolvable).run s = pure (unresolvable, s) := by
      simp [replaceWith, settle, Expr.kind, hk.symm]
    rw [hr]
    rfl
  case down he hc _ ih =>
    obtain ⟨s', hm, _⟩ := exists_run_child outline hc 0 s
    exact run_replaceWith_of_passed he (ih s' ▸ hm)

-- The node itself is the last one that the callback is given, when its children are done with.
theorem run_replaceWith_of_root {a : Expr}
    (h : ([], n, a) ∈ ((answers f (n.met kind all)).run s).1) :
    ((replaceWith outline kind f all n).run s).1 = a := by
  have hk : n.kind = kind := (mem_met_iff.mp (mem_of_mem_answers h)).right
  obtain ⟨e', as, s', hx, hs, _⟩ :=
    asks_rebuilt (fun c (_ : c ∈ n.children) => asks_replaceWith outline kind f all c) s
  obtain ⟨b, s'', hf⟩ : ∃ b s'', (f n).run s' = pure (b, s'') := ⟨_, _, rfl⟩
  have hr : (replaceWith outline kind f all n).run s = pure (b, s'') := by
    rw [replaceWith_eq, settle, StateT.run_bind, hx, pure_bind, if_pos hk, hf]
  have ha : (answers f (n.met kind all)).run s = pure (as ++ [([], n, b)], s'') := by
    rw [met_eq, if_pos hk, answers_append]
    simp [hs, answers_singleton, hf]
  rw [ha] at h
  rw [hr]
  rcases mem_append.mp h with h | h
  case inl =>
    have hn := mem_of_mem_answers (f := f) (s := s) (by rwa [hs])
    split at hn
    case isTrue =>
      obtain ⟨_, _, _, _, _, he⟩ := mem_numbered_iff.mp hn
      cases he
    case isFalse => cases hn
  case inr =>
    cases mem_singleton.mp h
    rfl

theorem run_replaceWith_of_answer (h : Stands (Passed kind all) n p e)
    (ha : (p, n, unresolvable) ∈ ((answers f (e.met kind all)).run s).1) :
    ((replaceWith outline kind f all e).run s).1 = unresolvable := by
  induction h generalizing s
  case here => exact run_replaceWith_of_root ha
  case down he hc _ ih =>
    obtain ⟨s', hm, hs⟩ := exists_run_child outline hc 0 s
    refine run_replaceWith_of_passed he (ih (hs _ _ _ ?_) ▸ hm)
    rw [met_eq, if_pos he.left, if_neg he.right, append_nil] at ha
    simpa using ha

-- What is unresolvable, or becomes so as it is replaced, takes everything above it with it, unless
-- that is replaced in its turn.
theorem unresolvable_propagates (h : Stands (Passed kind all) n p e)
    (hn : kind ≠ .unresolvable ∧ n = unresolvable ∨
      ((p, n), (n, unresolvable)) ∈ (e.met kind all).zip (calls kind f all e s)) :
    ((replace kind f all e).run s).1 = unresolvable := by
  rcases hn with ⟨hk, rfl⟩ | hn
  case inl => exact run_replaceWith_of_stands hk h s
  case inr =>
    refine run_replaceWith_of_answer h ?_
    rw [zip_met_calls] at hn
    obtain ⟨⟨q, m, a⟩, hm, he⟩ := mem_map.mp hn
    cases he
    exact hm

-- The callback fails at the second path, below a set that an operand decides by itself.
theorem unresolvable_propagates_second :
    let e := set .and [ofBool false, pathTo "A", pathTo "B"]
    let f : Expr → StateM Nat Expr := fun n => modifyGet fun k =>
      (if k = 1 then unresolvable else n, k + 1)
    Stands (Passed .path true) (pathTo "B") [2] e ∧
      (([2], pathTo "B"), (pathTo "B", unresolvable)) ∈
        (e.met .path true).zip (calls .path f true e 0) ∧
      ((replace .path f true e).run 0).1 = unresolvable := by
  intro e f
  have hs : Stands (Passed .path true) (pathTo "B") [2] e := .down ⟨rfl, nofun⟩ rfl .here
  have hm : e.met .path true = [([1], pathTo "A"), ([2], pathTo "B")] := by
    simp [e, met_eq, numbered, children, kind, Kind.entered, ofBool, pathTo]
  have hc : calls .path f true e 0 = [(pathTo "A", pathTo "A"), (pathTo "B", unresolvable)] := rfl
  have hz : (([2], pathTo "B"), (pathTo "B", unresolvable)) ∈
      (e.met .path true).zip (calls .path f true e 0) := by
    rw [hm, hc]
    exact .tail _ mem_cons_self
  exact ⟨hs, hz, unresolvable_propagates hs (.inr hz)⟩

end Propagation
end BindingAlgebra.Expr
