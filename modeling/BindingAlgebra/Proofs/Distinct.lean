import BindingAlgebra.Proofs.Congruence

namespace BindingAlgebra.Expr

open List

-- Dropping repeated operands commutes with whatever cannot tell equal expressions apart.

variable {e : Expr} {es fs : List Expr} {p : Expr → Bool}

theorem distinct_append (es fs : List Expr) :
    distinct (es ++ fs) = distinct es ++ (distinct fs).filter fun f => !es.any (·.same f) := by
  induction es
  case nil => simp [distinct]
  case cons e es ih =>
    simp only [cons_append, distinct, ih, filter_append, filter_filter, any_cons, Bool.not_or]

theorem any_distinct (hp : ∀ {e f}, e.same f → p e = p f) (es : List Expr) :
    (distinct es).any p = es.any p := by
  refine Bool.eq_iff_iff.mpr ?_
  simp only [any_eq_true]
  constructor
  case mp =>
    rintro ⟨e, he, h⟩
    exact ⟨e, (distinct_sublist es).subset he, h⟩
  case mpr =>
    rintro ⟨e, he, h⟩
    rcases mem_distinct_or_same he with hd | ⟨f, hf, hs⟩
    case inl => exact ⟨e, hd, h⟩
    case inr => exact ⟨f, hf, hp hs ▸ h⟩

theorem distinct_filter (hp : ∀ {e f}, e.same f → p e = p f) (es : List Expr) :
    distinct (es.filter p) = (distinct es).filter p := by
  induction es
  case nil => rfl
  case cons e es ih =>
    by_cases h : p e
    case pos => simp only [filter_cons_of_pos, h, distinct, ih, filter_filter, Bool.and_comm]
    case neg =>
      rw [filter_cons_of_neg h, distinct, filter_cons_of_neg h, ih, filter_filter]
      refine filter_congr fun d _ => ?_
      by_cases hd : e.same d
      case pos => simp [hd, hp hd ▸ h]
      case neg => simp [hd]

theorem distinct_map {g : Expr → Expr} (hg : ∀ {e f}, e.same f → (g e).same (g f))
    (es : List Expr) : distinct (es.map g) = distinct ((distinct es).map g) := by
  induction es
  case nil => rfl
  case cons e es ih =>
    have hp : ∀ {c d}, c.same d → (!(g e).same c) = !(g e).same d :=
      fun h => congrArg Bool.not (same_congr_right _ h)
    simp only [map_cons, distinct, ih, cons.injEq, true_and, ← distinct_filter hp, filter_map,
      filter_filter]
    -- What equals `e` equals it afterwards, too, and so goes in any case.
    congr 2
    refine filter_congr fun d _ => ?_
    by_cases hd : e.same d
    case pos => simp [hd, hg hd]
    case neg => simp [hd]

-- Operands that are dropped on their own are dropped in between others, too.
theorem distinct_splice (ps es qs : List Expr) :
    distinct (ps ++ distinct es ++ qs) = distinct (ps ++ es ++ qs) := by
  have hd : distinct (distinct es) = distinct es := distinct_eq_self (distinct_pairwise es)
  have ha : ∀ f, (distinct es).any (·.same f) = es.any (·.same f) :=
    fun f => any_distinct (same_congr_left · f) es
  simp only [append_assoc, distinct_append, hd, ha]

theorem length_distinct_le_cons (e : Expr) (es : List Expr) :
    (distinct es).length ≤ (distinct (e :: es)).length := by
  have hone : ((distinct es).filter e.same).length ≤ 1 := by
    have hd := (distinct_pairwise es).sublist (filter_sublist (p := e.same))
    have hs : ∀ d ∈ (distinct es).filter e.same, e.same d := fun d hd => (mem_filter.mp hd).right
    rcases hf : (distinct es).filter e.same with _ | ⟨c, _ | ⟨d, ds⟩⟩
    case nil | cons.nil => simp
    case cons.cons =>
      simp only [hf, pairwise_cons, mem_cons, forall_eq_or_imp] at hd hs
      exact absurd (same_trans (same_symm hs.left) hs.right.left) hd.left.left
  have := length_eq_length_filter_add (l := distinct es) e.same
  rw [distinct, length_cons]
  omega

-- Operands in between others do not become fewer than they are on their own.
theorem length_distinct_le_splice (ps es qs : List Expr) :
    (distinct es).length ≤ (distinct (ps ++ es ++ qs)).length := by
  induction ps
  case nil => simp [distinct_append]
  case cons p ps ih => exact Nat.le_trans ih (length_distinct_le_cons p _)

section Folding

-- Whether constants count by their truth alone. A lone constant is kept as it is, but a lone
-- boolean is just its truth.
def Judged (es : List Expr) : Prop :=
  ∀ v, distinct es = [constant v] → ∃ b, constant v = ofBool b

variable {neg : Expr → Expr} {op : LogicalOperator}

theorem judged_of_length_ne_one (h : (distinct es).length ≠ 1) : Judged es := by
  intro v hv
  rw [hv] at h
  exact absurd rfl h

theorem judged_of_mem (he : e ∈ es) (h : ∀ v, e = constant v → ∃ b, e = ofBool b) : Judged es := by
  intro v hv
  rcases mem_distinct_or_same he with hm | ⟨f, hm, hs⟩ <;> rw [hv, mem_singleton] at hm
  case inl => exact hm ▸ h v hm
  case inr =>
    subst hm
    have hc : e.isConstant := (isConstant_congr hs).symm
    obtain ⟨w, rfl⟩ := isConstant_iff.mp hc
    obtain ⟨b, hb⟩ := h w rfl
    rw [hb] at hs
    exact ⟨b, eq_ofBool_of_same hs⟩

theorem foldSet_of_absorbs (hj : Judged es) (ha : ∃ e ∈ es, absorbs op e) :
    foldSet neg op (distinct es) = ofBool op.absorbing := by
  have hd : ∃ e ∈ distinct es, absorbs op e := by
    rw [← any_eq_true, any_distinct absorbs_congr, any_eq_true]
    exact ha
  by_cases hl : (distinct es).length = 1
  case neg => exact foldSet_absorbed hl hd
  case pos =>
    obtain ⟨d, hs⟩ := length_eq_one_iff.mp hl
    simp only [hs, mem_singleton, exists_eq_left] at hd
    obtain ⟨v, rfl⟩ := isConstant_iff.mp (isConstant_of_absorbs hd)
    obtain ⟨b, hb⟩ := hj v hs
    rw [hb] at hs hd
    have : b = op.absorbing := by simpa [absorbs, ofBool, Value.isTruthy] using hd
    rw [hs, foldSet, this]

theorem foldSet_of_not_absorbs (hj : Judged es) (ha : ∀ e ∈ es, ¬absorbs op e) :
    foldSet neg op (distinct es) = foldSet neg op (distinct (es.filter (!·.isConstant))) := by
  have hd : ∀ e ∈ distinct es, ¬absorbs op e := fun e he => ha e ((distinct_sublist es).subset he)
  rw [distinct_filter (fun h => congrArg Bool.not (isConstant_congr h))]
  by_cases hl : (distinct es).length = 1
  case neg => exact foldSet_filter hl hd
  case pos =>
    obtain ⟨d, hs⟩ := length_eq_one_iff.mp hl
    by_cases hc : d.isConstant
    case neg => simp [hs, hc]
    case pos =>
      obtain ⟨v, rfl⟩ := isConstant_iff.mp hc
      obtain ⟨b, hb⟩ := hj v hs
      rw [hb] at hs
      have hb : b = !op.absorbing := by
        have := hd (ofBool b) (by simp [hs])
        simpa [absorbs, ofBool, Value.isTruthy, ← Bool.eq_not] using this
      calc
        foldSet neg op (distinct es) = ofBool !op.absorbing := by rw [hs, hb, foldSet]
        _ = foldSet neg op [] := rfl
        _ = foldSet neg op ((distinct es).filter (!·.isConstant)) := by rw [hs]; rfl

theorem setOf_eq (op : LogicalOperator) (es : List Expr) :
    setOf op es = if hasUnresolvable (es.flatMap (operandsIn op)) then unresolvable
      else foldSet negate op (distinct (es.flatMap (operandsIn op))) := by
  have hu : hasUnresolvable (flatten op es) = hasUnresolvable (es.flatMap (operandsIn op)) :=
    any_distinct (fun h => by rw [isUnresolvable, isUnresolvable, kind_eq_of_same h]) _
  rw [setOf, setWith, hu, flatten]

theorem setOf_unresolvable (h : unresolvable ∈ es) : setOf op es = unresolvable := by
  rw [setOf_eq, if_pos]
  exact hasUnresolvable_iff.mpr (mem_flatMap.mpr ⟨_, h, mem_singleton_self _⟩)

theorem setOf_of_flat (hs : ∀ e ∈ es, ∀ fs, e ≠ set op fs) (hu : unresolvable ∉ es) :
    setOf op es = foldSet negate op (distinct es) := by
  rw [setOf_eq, flatMap_operandsIn_eq_self hs, if_neg (hasUnresolvable_iff.not.mpr hu)]

end Folding
end BindingAlgebra.Expr
