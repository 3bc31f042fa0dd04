import BindingAlgebra.Proofs.Hoisting
import BindingAlgebra.Proofs.Position

namespace BindingAlgebra.Expr

open List Position

-- What a callback answers if it is given nodes one after the other.
def answers (f : Expr → StateM σ Expr) (ms : List (Position × Expr)) :
    StateM σ (List (Position × Expr × Expr)) :=
  ms.mapM fun (p, n) => do
    let a ← f n
    return (p, n, a)

-- A callback that keeps a record of what it is given and what it answers.
def recorded (f : Expr → StateM σ Expr) (n : Expr) : StateM (List (Expr × Expr) × σ) Expr :=
  modifyGet fun (record, s) =>
    let (a, s') := (f n).run s
    (a, (record ++ [(n, a)], s'))

-- The calls of a callback while nodes are replaced.
def calls (kind : Kind) (f : Expr → StateM σ Expr) (all : Bool) (e : Expr) (s : σ) :
    List (Expr × Expr) :=
  ((replace kind (recorded f) all e).run ([], s)).2.1

-- That a computation gives the callback certain nodes, one after the other, and does nothing else
-- to its state; and that another one does the same with the callback recorded.
def Asks (f : Expr → StateM σ Expr) (ms : List (Position × Expr)) (x : StateM σ α)
    (x' : StateM (List (Expr × Expr) × σ) α) : Prop :=
  ∀ s, ∃ a as s', x.run s = pure (a, s') ∧ (answers f ms).run s = pure (as, s') ∧
    ∀ record, x'.run (record, s) = pure (a, (record ++ as.map Prod.snd, s'))

variable {σ : Type} {f : Expr → StateM σ Expr} {outline : Outlining} {kind : Kind} {all : Bool}
  {e : Expr} {es : List Expr}

section Answers

variable {ms ns : List (Position × Expr)} {as : List (Position × Expr × Expr)} {s s' : σ}

theorem answers_cons (m : Position × Expr) (ms : List (Position × Expr)) :
    answers f (m :: ms) = do
      let a ← f m.2
      return (m.1, m.2, a) :: (← answers f ms) := by
  simp [answers]

theorem answers_append : answers f (ms ++ ns) = do return (← answers f ms) ++ (← answers f ns) :=
  mapM_append

theorem answers_singleton (p : Position) (n : Expr) :
    answers f [(p, n)] = do return [(p, n, ← f n)] := by
  simp [answers]

theorem answers_shift (k : Nat) : answers f (ms.map (Prod.map (k :: ·) id)) =
    map (Prod.map (k :: ·) id) <$> answers f ms := by
  induction ms
  case nil => simp [answers]
  case cons m ms ih => simp_all [answers]

theorem map_answers (h : (answers f ms).run s = pure (as, s')) :
    as.map (fun (p, n, _) => (p, n)) = ms := by
  induction ms generalizing s as
  case nil =>
    cases h
    rfl
  case cons m ms ih =>
    obtain ⟨a, s₁, hf⟩ : ∃ a s₁, (f m.2).run s = pure (a, s₁) := ⟨_, _, rfl⟩
    obtain ⟨bs, s₂, hs⟩ : ∃ bs s₂, (answers f ms).run s₁ = pure (bs, s₂) := ⟨_, _, rfl⟩
    have hr : (answers f (m :: ms)).run s = pure ((m.1, m.2, a) :: bs, s₂) := by
      simp [answers_cons, hf, hs]
    cases hr.symm.trans h
    rw [map_cons, ih hs]

theorem mem_of_mem_answers {p : Position} {n a : Expr}
    (h : (p, n, a) ∈ ((answers f ms).run s).1) : (p, n) ∈ ms := by
  obtain ⟨as, s', ha⟩ : ∃ as s', (answers f ms).run s = pure (as, s') := ⟨_, _, rfl⟩
  rw [ha] at h
  rw [← map_answers ha]
  exact mem_map_of_mem (f := fun (p, n, _) => (p, n)) h

end Answers

namespace Asks

variable {ms ns : List (Position × Expr)} {x : StateM σ α} {x' : StateM (List (Expr × Expr) × σ) α}
  {y : α → StateM σ β} {y' : α → StateM (List (Expr × Expr) × σ) β}

theorem pure (a : α) : Asks f [] (pure a) (pure a) :=
  fun s => ⟨a, [], s, rfl, rfl, fun record => by simp⟩

theorem call (p : Position) (n : Expr) : Asks f [(p, n)] (f n) (recorded f n) :=
  fun s => ⟨((f n).run s).1, [(p, n, ((f n).run s).1)], ((f n).run s).2, rfl, rfl,
    fun _ => rfl⟩

theorem bind (h : Asks f ms x x') (hy : ∀ a, Asks f ns (y a) (y' a)) :
    Asks f (ms ++ ns) (x >>= y) (x' >>= y') := by
  intro s
  obtain ⟨a, as, s₁, hx, ha, hr⟩ := h s
  obtain ⟨b, bs, s₂, hy, hb, hrs⟩ := hy a s₁
  refine ⟨b, as ++ bs, s₂, ?_, ?_, fun record => ?_⟩
  · simp [hx, hy]
  · simp [answers_append, ha, hb]
  · simp [hr, hrs]

theorem andReturn (h : Asks f ms x x') (g : α → β) :
    Asks f ms (do return g (← x)) (do return g (← x')) := by
  simpa using h.bind fun a => .pure (g a)

theorem shift (h : Asks f ms x x') (k : Nat) : Asks f (ms.map (Prod.map (k :: ·) id)) x x' := by
  intro s
  obtain ⟨a, as, s', hx, ha, hr⟩ := h s
  refine ⟨a, as.map (Prod.map (k :: ·) id), s', hx, ?_, fun record => ?_⟩
  · simp [answers_shift, ha]
  · simp [hr, Function.comp_def]

end Asks

section Run

theorem asks_replaceAllWith
    (ih : ∀ e ∈ es, Asks f (e.met kind all) (replaceWith outline kind f all e)
      (replaceWith outline kind (recorded f) all e)) (k : Nat) :
    Asks f (numbered k (es.map (met kind all))) (replaceAllWith outline kind f all es)
      (replaceAllWith outline kind (recorded f) all es) := by
  induction es generalizing k
  case nil => exact .pure []
  case cons e es ih' =>
    obtain ⟨he, hes⟩ := forall_mem_cons.mp ih
    exact (he.shift k).bind fun e' => (ih' hes (k + 1)).andReturn (e' :: ·)

theorem asks_settle {ms : List (Position × Expr)} {rebuilt : StateM σ Expr}
    {rebuilt' : StateM (List (Expr × Expr) × σ) Expr} (h : Asks f ms rebuilt rebuilt') :
    Asks f (ms ++ if e.kind = kind then [([], e)] else []) (settle kind f e rebuilt)
      (settle kind (recorded f) e rebuilt') := by
  refine h.bind fun e' => ?_
  split
  case isTrue  => exact .call [] e
  case isFalse => exact .pure e'

theorem asks_rebuilt
    (ih : ∀ c ∈ e.children, Asks f (c.met kind all) (replaceWith outline kind f all c)
      (replaceWith outline kind (recorded f) all c)) :
    Asks f (if e.kind.entered all then numbered 0 (e.children.map (met kind all)) else [])
      (if e.kind.entered all then
        do return rebuildWith outline e (← replaceAllWith outline kind f all e.children)
      else return e)
      (if e.kind.entered all then
        do return rebuildWith outline e (← replaceAllWith outline kind (recorded f) all e.children)
      else return e) := by
  split
  case isTrue  => exact (asks_replaceAllWith ih 0).andReturn (rebuildWith outline e)
  case isFalse => exact .pure e

-- Replacements give the callback the nodes that they come across, and leave it at that. This goes
-- by the tree as it stands, as what becomes of a node is put together after its children are done
-- with.
theorem asks_replaceWith (outline : Outlining) (kind : Kind) (f : Expr → StateM σ Expr) (all : Bool)
    (e : Expr) : Asks f (e.met kind all) (replaceWith outline kind f all e)
      (replaceWith outline kind (recorded f) all e) := by
  induction e using children_induction
  case step e ih =>
    rw [replaceWith_eq, replaceWith_eq, met_eq]
    exact asks_settle (asks_rebuilt ih)

end Run

section Calls

variable {τ : Type}

theorem run_replace_recorded (kind : Kind) (f : Expr → StateM σ Expr) (all : Bool) (e : Expr)
    (s : σ) :
    (replace kind (recorded f) all e).run ([], s) =
      (((replace kind f all e).run s).1, calls kind f all e s,
        ((replace kind f all e).run s).2) := by
  obtain ⟨e', as, s', hx, _, hr⟩ := asks_replaceWith Expr.outline kind f all e s
  rw [replace, calls, replace, replace, hx, hr]
  rfl

theorem calls_eq (kind : Kind) (f : Expr → StateM σ Expr) (all : Bool) (e : Expr) (s : σ) :
    calls kind f all e s = ((answers f (e.met kind all)).run s).1.map Prod.snd := by
  obtain ⟨e', as, s', _, ha, hr⟩ := asks_replaceWith Expr.outline kind f all e s
  rw [calls, replace, ha, hr]
  rfl

theorem zip_met_calls (kind : Kind) (f : Expr → StateM σ Expr) (all : Bool) (e : Expr) (s : σ) :
    (e.met kind all).zip (calls kind f all e s) =
      ((answers f (e.met kind all)).run s).1.map fun (p, n, a) => ((p, n), (n, a)) := by
  obtain ⟨as, s', ha⟩ : ∃ as s', (answers f (e.met kind all)).run s = pure (as, s') := ⟨_, _, rfl⟩
  rw [calls_eq, ha]
  conv_lhs => rw [← map_answers ha]
  exact zip_map'

theorem map_fst_calls (kind : Kind) (f : Expr → StateM σ Expr) (all : Bool) (e : Expr) (s : σ) :
    (calls kind f all e s).map Prod.fst = (e.met kind all).map Prod.snd := by
  obtain ⟨as, s', ha⟩ : ∃ as s', (answers f (e.met kind all)).run s = pure (as, s') := ⟨_, _, rfl⟩
  rw [calls_eq, ha]
  conv_rhs => rw [← map_answers ha]
  simp [pure]

-- Which nodes a callback is given, and in which order, does not depend on its answers, nor on its
-- state: it is given the nodes of the kind that stand in the tree where replacements come by, each
-- of them once, and those below a node, or further left, before it. Keeping a record of this
-- changes nothing.
theorem calls_independent (kind : Kind) (all : Bool) (e : Expr) (f : Expr → StateM σ Expr) (s : σ)
    (g : Expr → StateM τ Expr) (t : τ) :
    (calls kind f all e s).map Prod.fst = (calls kind g all e t).map Prod.fst ∧
      (calls kind f all e s).map Prod.fst = (e.met kind all).map Prod.snd ∧
      (∀ p n, (p, n) ∈ e.met kind all ↔ Stands (·.kind.entered all) n p e ∧ n.kind = kind) ∧
      ((e.met kind all).Pairwise fun m n => Precedes m.1 n.1) ∧
      ((e.met kind all).map Prod.fst).Nodup ∧
      (replace kind (recorded f) all e).run ([], s) =
        (((replace kind f all e).run s).1, calls kind f all e s,
          ((replace kind f all e).run s).2) := by
  have hf := map_fst_calls kind f all e s
  have hg := map_fst_calls kind g all e t
  exact ⟨hf.trans hg.symm, hf, fun p n => mem_met_iff, pairwise_met kind all e,
    nodup_map_fst_met kind all e, run_replace_recorded kind f all e s⟩

end Calls
end BindingAlgebra.Expr
