import BindingAlgebra.Proofs.Built
import BindingAlgebra.Proofs.Opposite

namespace BindingAlgebra.Expr

open List

variable {op : LogicalOperator} {e : Expr} {es ps qs xs ms : List Expr}

section Folding

-- In the following `xs` are several operands in between others, and `ms` are those that stand in
-- their place if `xs` are made a set first.

theorem foldSet_of_opposite (hj : Judged es)
    (ho : hasOpposite negate (distinct (es.filter (!·.isConstant)))) :
    foldSet negate op (distinct es) = ofBool op.absorbing := by
  by_cases ha : ∃ e ∈ es, absorbs op e
  case pos => exact foldSet_of_absorbs hj ha
  case neg =>
    push Not at ha
    rw [foldSet_of_not_absorbs hj (by simpa using ha)]
    refine foldSet_opposite (fun e he => ?_) ho
    exact not_isConstant_of_mem_filter ((distinct_sublist _).subset he)

theorem foldSet_of_mem_absorbing (h : ofBool op.absorbing ∈ es) :
    foldSet negate op (distinct es) = ofBool op.absorbing := by
  refine foldSet_of_absorbs (judged_of_mem h fun _ _ => ⟨_, rfl⟩) ⟨_, h, ?_⟩
  simp [absorbs, ofBool, Value.isTruthy]

theorem judged_splice (hl : 2 ≤ (distinct xs).length) : Judged (ps ++ xs ++ qs) := by
  apply judged_of_length_ne_one
  have := length_distinct_le_splice ps xs qs
  omega

theorem foldSet_splice_pending (hl : 2 ≤ (distinct xs).length) (hxa : ∀ e ∈ xs, ¬absorbs op e)
    (hm : ∃ e ∈ ms, ∀ v, e = constant v → ∃ b, e = ofBool b) (hma : ∀ e ∈ ms, ¬absorbs op e)
    (hp : ms.filter (!·.isConstant) = (distinct xs).filter (!·.isConstant)) :
    foldSet negate op (distinct (ps ++ ms ++ qs)) =
      foldSet negate op (distinct (ps ++ xs ++ qs)) := by
  have hjx : Judged (ps ++ xs ++ qs) := judged_splice hl
  have hjm : Judged (ps ++ ms ++ qs) := by
    obtain ⟨e, he, h⟩ := hm
    exact judged_of_mem (by simp [he]) h
  by_cases ha : ∃ e ∈ ps ++ qs, absorbs op e
  case pos =>
    have hs : ∀ ys, ∃ e ∈ ps ++ ys ++ qs, absorbs op e := by grind
    rw [foldSet_of_absorbs hjm (hs ms), foldSet_of_absorbs hjx (hs xs)]
  case neg =>
    have hs : ∀ ys, (∀ e ∈ ys, ¬absorbs op e) → ∀ e ∈ ps ++ ys ++ qs, ¬absorbs op e := by grind
    rw [foldSet_of_not_absorbs hjm (hs ms hma), foldSet_of_not_absorbs hjx (hs xs hxa)]
    simp only [filter_append, hp]
    rw [← distinct_filter (fun h => congrArg Bool.not (isConstant_congr h)), distinct_splice]

theorem foldSet_splice_filter (hl : 2 ≤ (distinct xs).length) (hxa : ∀ e ∈ xs, ¬absorbs op e)
    (hne : (distinct xs).filter (!·.isConstant) ≠ []) :
    foldSet negate op (distinct (ps ++ (distinct xs).filter (!·.isConstant) ++ qs)) =
      foldSet negate op (distinct (ps ++ xs ++ qs)) := by
  have hc : ∀ e ∈ (distinct xs).filter (!·.isConstant), ¬e.isConstant :=
    fun _ => not_isConstant_of_mem_filter
  obtain ⟨e, he⟩ := exists_mem_of_ne_nil _ hne
  apply foldSet_splice_pending hl hxa
  · exact ⟨e, he, fun v hv => absurd (isConstant_iff.mpr ⟨v, hv⟩) (hc e he)⟩
  · exact fun e he ha => hc e he (isConstant_of_absorbs ha)
  · simp

theorem foldSet_splice (hl : 2 ≤ (distinct xs).length) (hn : ∀ e ∈ ps ++ xs ++ qs, Normal e)
    (hs : ∀ e ∈ xs, ∀ fs, e ≠ set op fs) :
    foldSet negate op (distinct (ps ++ operandsIn op (foldSet negate op (distinct xs)) ++ qs)) =
      foldSet negate op (distinct (ps ++ xs ++ qs)) := by
  have hd : distinct xs ⊆ xs := (distinct_sublist xs).subset
  have hj : Judged (ps ++ xs ++ qs) := judged_splice hl
  have hx : (∀ e ∈ distinct xs, ¬absorbs op e) → ∀ e ∈ xs, ¬absorbs op e := by
    intro h
    rwa [← any_eq_false, ← any_distinct absorbs_congr, any_eq_false]
  have hf := folded_foldSet negate op (distinct xs)
  generalize foldSet negate op (distinct xs) = folded at hf
  cases hf
  case single h => simp [h] at hl
  case absorbed e he ha =>
    rw [foldSet_of_absorbs hj ⟨e, by simp [hd he], ha⟩]
    exact foldSet_of_mem_absorbing (by simp [operandsIn, ofBool])
  case opposite ho =>
    rw [foldSet_of_mem_absorbing (by simp [operandsIn, ofBool]), foldSet_of_opposite hj]
    rw [← distinct_filter (fun h => congrArg Bool.not (isConstant_congr h)),
      hasOpposite_distinct_iff (by grind) fun _ => not_isConstant_of_mem_filter] at ho
    rw [hasOpposite_distinct_iff (by grind) fun _ => not_isConstant_of_mem_filter]
    obtain ⟨e, he, f, hf, h⟩ := ho
    exact ⟨e, by simp_all, f, by simp_all, h⟩
  case none ha hp =>
    apply foldSet_splice_pending hl (hx ha)
    · exact ⟨ofBool _, mem_singleton_self _, fun _ _ => ⟨_, rfl⟩⟩
    · simp [operandsIn, ofBool, absorbs, Value.isTruthy]
    · rw [hp]; rfl
  case last ha hp =>
    have he : folded ∈ (distinct xs).filter (!·.isConstant) := hp ▸ mem_singleton_self _
    rw [operandsIn_eq_singleton (hs _ (hd (filter_sublist.subset he))), ← hp]
    exact foldSet_splice_filter hl (hx ha) (ne_nil_of_mem he)
  case set ha hl₂ _ =>
    rw [operandsIn, if_pos rfl]
    apply foldSet_splice_filter hl (hx ha)
    apply ne_nil_of_length_pos
    omega

end Folding

theorem Normal.operandsIn (op : LogicalOperator) (h : Normal e) :
    ∀ f ∈ operandsIn op e, Normal f := by
  intro f hf
  rcases mem_operandsIn hf with ⟨rfl, _⟩ | ⟨fs, rfl, hfs⟩
  case inl => exact h
  case inr => exact h.child hfs

namespace Simplified

theorem operandsIn_ne_nil (h : Simplified e) : Expr.operandsIn op e ≠ [] := by
  by_cases hs : ∃ es, e = set op es
  case pos =>
    obtain ⟨es, rfl⟩ := hs
    have hn : NormalSet op es := (h.normal (by simp)).node
    rw [Expr.operandsIn, if_pos rfl]
    exact ne_nil_of_length_pos (Nat.lt_of_lt_of_le Nat.two_pos hn.two_le)
  case neg =>
    push Not at hs
    simp [operandsIn_eq_singleton hs]

theorem flatMap_operandsIn_ne_nil (op : LogicalOperator) (hne : es ≠ [])
    (h : ∀ e ∈ es, Simplified e) : es.flatMap (Expr.operandsIn op) ≠ [] := by
  have ⟨e, he⟩ := exists_mem_of_ne_nil es hne
  simp only [ne_eq, flatMap_eq_nil_iff, not_forall]
  exact ⟨e, he, (h e he).operandsIn_ne_nil⟩

theorem hasUnresolvable_operandsIn_setOf (op : LogicalOperator) (h : ∀ e ∈ es, Simplified e) :
    hasUnresolvable (Expr.operandsIn op (Expr.setOf op es)) =
      hasUnresolvable (es.flatMap (Expr.operandsIn op)) := by
  rw [setOf_eq]
  split
  case isTrue hu  => exact hu.symm
  case isFalse hu =>
    have hf := flatMap_operandsIn op h
    have hn : ∀ e ∈ es.flatMap (Expr.operandsIn op), Normal e :=
      all_normal (fun e he => (hf e he).left) hu
    have hd := (distinct_sublist (es.flatMap (Expr.operandsIn op))).subset
    have hs : Normal (foldSet Expr.negate op (distinct (es.flatMap (Expr.operandsIn op)))) :=
      .foldSet (fun e he => hn e (hd he)) (fun e he => (hf e (hd he)).right) (distinct_pairwise _)
    have hv := Normal.not_hasUnresolvable (hs.operandsIn op)
    exact (Bool.eq_false_iff.mpr hv).trans (Bool.eq_false_iff.mpr hu).symm

end Simplified

theorem hasUnresolvable_splice (ps qs : List Expr) (h : hasUnresolvable ms = hasUnresolvable xs) :
    hasUnresolvable (ps ++ ms ++ qs) = hasUnresolvable (ps ++ xs ++ qs) := by
  simp only [hasUnresolvable, any_append] at h ⊢
  rw [h]

-- The operands of a set can as well be given in its place.
theorem setOf_splice (op : LogicalOperator) (hne : xs ≠ []) (hp : ∀ e ∈ ps, Simplified e)
    (hx : ∀ e ∈ xs, Simplified e) (hq : ∀ e ∈ qs, Simplified e) :
    setOf op (ps ++ [setOf op xs] ++ qs) = setOf op (ps ++ xs ++ qs) := by
  have hps := Simplified.flatMap_operandsIn op hp
  have hxs := Simplified.flatMap_operandsIn op hx
  have hqs := Simplified.flatMap_operandsIn op hq
  have hnil := Simplified.flatMap_operandsIn_ne_nil op hne hx
  have hu := Simplified.hasUnresolvable_operandsIn_setOf op hx
  have hset := setOf_eq op xs
  rw [setOf_eq op (ps ++ _ ++ qs), setOf_eq op (ps ++ xs ++ qs)]
  simp only [flatMap_append, flatMap_singleton]
  generalize ps.flatMap (operandsIn op) = ps at hps ⊢
  generalize qs.flatMap (operandsIn op) = qs at hqs ⊢
  generalize xs.flatMap (operandsIn op) = flat at hxs hnil hu hset ⊢
  rw [hasUnresolvable_splice ps qs hu]
  split
  case isTrue  => rfl
  case isFalse hun =>
    have hn : ∀ e ∈ ps ++ flat ++ qs, Normal e := Simplified.all_normal (by grind) hun
    rw [if_neg (Normal.not_hasUnresolvable fun e he => hn e (by simp [he]))] at hset
    rw [hset]
    by_cases hl : 2 ≤ (distinct flat).length
    case pos => exact foldSet_splice hl hn fun e he => (hxs e he).right
    case neg =>
      obtain ⟨e, he⟩ : ∃ e, distinct flat = [e] := by
        cases flat
        case nil => exact absurd rfl hnil
        case cons e es =>
          refine ⟨e, ?_⟩
          simpa [distinct] using hl
      have hm : e ∈ flat := (distinct_sublist flat).subset (he ▸ mem_singleton_self e)
      have ho : operandsIn op (foldSet negate op (distinct flat)) = distinct flat := by
        rw [he]
        exact operandsIn_eq_singleton (hxs e hm).right
      rw [ho, distinct_splice]

namespace Built

-- A set can be nested or spliced into the operands around it, whatever it is simplified to on its
-- own: a set, a lone operand, a constant or nothing at all.
theorem nested_sets_splice (hne : xs ≠ []) (hp : ∀ e ∈ ps, Built e) (hx : ∀ e ∈ xs, Built e)
    (hq : ∀ e ∈ qs, Built e) :
    Expr.allOf (ps ++ [Expr.allOf xs] ++ qs) = Expr.allOf (ps ++ xs ++ qs) ∧
      Expr.anyOf (ps ++ [Expr.anyOf xs] ++ qs) = Expr.anyOf (ps ++ xs ++ qs) := by
  have hp : ∀ e ∈ ps, Simplified e := fun e he => (hp e he).simplified
  have hx : ∀ e ∈ xs, Simplified e := fun e he => (hx e he).simplified
  have hq : ∀ e ∈ qs, Simplified e := fun e he => (hq e he).simplified
  exact ⟨setOf_splice .and hne hp hx hq, setOf_splice .or hne hp hx hq⟩

theorem nested_sets_splice_opposite :
    let ps := [Expr.pathTo "A"]
    let xs := [Expr.ofString "B", .anyOf [.pathTo "B", .pathTo "C"], .ofString "B"]
    let qs := [Expr.negate (.anyOf [.pathTo "B", .pathTo "C"]), .pathTo "A"]
    (Expr.allOf (ps ++ xs ++ qs)).isConstant ∧
      Expr.allOf (ps ++ [Expr.allOf xs] ++ qs) = Expr.allOf (ps ++ xs ++ qs) ∧
      Expr.anyOf (ps ++ [Expr.anyOf xs] ++ qs) = Expr.anyOf (ps ++ xs ++ qs) := by
  intro ps xs qs
  have hset : Built (Expr.anyOf [.pathTo "B", .pathTo "C"]) := .anyOf (by simp [Built.pathTo])
  have hp : ∀ e ∈ ps, Built e := by simp [ps, Built.pathTo]
  have hx : ∀ e ∈ xs, Built e := by simp [xs, hset, Built.ofString]
  have hq : ∀ e ∈ qs, Built e := by simp [qs, hset.negate, Built.pathTo]
  exact ⟨by decide +kernel, nested_sets_splice (cons_ne_nil _ _) hp hx hq⟩

end Built
end BindingAlgebra.Expr
