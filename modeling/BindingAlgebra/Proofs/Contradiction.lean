import BindingAlgebra.Proofs.SelfEquality
import BindingAlgebra.Proofs.Splicing

namespace BindingAlgebra.Expr

open List

-- Operands that decide a set among themselves: a constant that does so alone, or two opposites.
def Decisive (op : LogicalOperator) (es : List Expr) : Prop :=
  (∃ e ∈ es, absorbs op e) ∨
    ∃ e ∈ es, ∃ f ∈ es, ¬e.isConstant ∧ ¬f.isConstant ∧ (negate e).same f

variable {op : LogicalOperator} {a e n : Expr} {es fs xs ys ps ms qs : List Expr}

theorem judged_of_pending (he : e ∈ es) (hc : ¬e.isConstant) : Judged es :=
  judged_of_mem he fun v hv => absurd (isConstant_iff.mpr ⟨v, hv⟩) hc

theorem hasOpposite_pending_iff (hn : ∀ e ∈ es, Normal e) :
    hasOpposite negate (distinct (es.filter (!·.isConstant))) ↔
      ∃ e ∈ es, ∃ f ∈ es, ¬e.isConstant ∧ ¬f.isConstant ∧ (negate e).same f := by
  have hc : ∀ e ∈ es.filter (!·.isConstant), ¬e.isConstant :=
    fun _ => not_isConstant_of_mem_filter
  rw [hasOpposite_distinct_iff (fun e he => hn e (filter_sublist.subset he)) hc]
  constructor
  case mp =>
    rintro ⟨e, he, f, hf, hs⟩
    exact ⟨e, filter_sublist.subset he, f, filter_sublist.subset hf, hc e he, hc f hf, hs⟩
  case mpr =>
    rintro ⟨e, he, f, hf, hec, hfc, hs⟩
    exact ⟨e, by simpa [he] using hec, f, by simpa [hf] using hfc, hs⟩

-- A set is the constant that decides it just if its operands decide it.
theorem foldSet_eq_absorbing_iff (hn : ∀ e ∈ es, Normal e) (hj : Judged es) :
    foldSet negate op (distinct es) = ofBool op.absorbing ↔ Decisive op es := by
  have ho := hasOpposite_pending_iff hn
  constructor
  case mp =>
    intro h
    have hd := (distinct_sublist es).subset
    have hf := folded_foldSet negate op (distinct es)
    rw [distinct_filter fun h => congrArg Bool.not (isConstant_congr h)] at ho
    generalize foldSet negate op (distinct es) = folded at h hf
    cases hf
    case single hs =>
      refine .inl ⟨folded, hd (hs ▸ mem_singleton_self _), ?_⟩
      simp [h, absorbs, ofBool, Value.isTruthy]
    case absorbed e he ha => exact .inl ⟨e, hd he, ha⟩
    case none => simp [ofBool] at h
    case last hs =>
      have hm : folded ∈ (distinct es).filter (!·.isConstant) := hs ▸ mem_singleton_self _
      exact absurd (h ▸ rfl) (not_isConstant_of_mem_filter hm)
    case opposite hs => exact .inr (ho.mp hs)
    case set => simp [ofBool] at h
  case mpr =>
    rintro (ha | hp)
    case inl => exact foldSet_of_absorbs hj ha
    case inr => exact foldSet_of_opposite hj (ho.mpr hp)

theorem setOf_eq_absorbing_iff (hn : ∀ e ∈ es, Normal e)
    (hj : Judged (es.flatMap (operandsIn op))) :
    setOf op es = ofBool op.absorbing ↔ Decisive op (es.flatMap (operandsIn op)) := by
  have hf : ∀ f ∈ es.flatMap (operandsIn op), Normal f := by
    intro f hf
    obtain ⟨e, he, hf⟩ := mem_flatMap.mp hf
    exact (hn e he).operandsIn op f hf
  rw [setOf_eq, if_neg (Normal.not_hasUnresolvable hf)]
  exact foldSet_eq_absorbing_iff hf hj

theorem eq_set_of_same (h : (set op es).same e) : ∃ fs, e = set op fs := by
  cases e <;> simp only [same, Bool.false_eq_true, Bool.and_eq_true, beq_iff_eq] at h
  case set fs => exact ⟨fs, h.left ▸ rfl⟩

theorem negate_set_ne_set (h : Normal (set op es)) : negate (set op es) ≠ set op fs := by
  cases negated (set op es)
  case whole hn =>
    rw [negate_of_normalNegation hn h]
    exact Expr.noConfusion
  case comparisons hc =>
    rw [negate_comparisons h hc]
    cases op <;> simp [LogicalOperator.dual]

theorem Normal.judged (h : Normal e) (hc : ¬e.isConstant) (he : e ∈ es) :
    Judged (es.flatMap (Expr.operandsIn op)) := by
  have hne : Expr.operandsIn op e ≠ [] := Simplified.operandsIn_ne_nil (.inr h)
  obtain ⟨f, hf⟩ := exists_mem_of_ne_nil _ hne
  refine judged_of_pending (mem_flatMap.mpr ⟨e, he, hf⟩) ?_
  rcases mem_operandsIn hf with ⟨rfl, _⟩ | ⟨fs, rfl, hm⟩
  case inl => exact hc
  case inr => exact NormalSet.not_constant h.node f hm

theorem absorbs_or_absorbs_negate (op : LogicalOperator) (v : Value Expr) :
    absorbs op (constant v) ∨ absorbs op (negate (constant v)) := by
  change (v.isTruthy == op.absorbing) = true ∨ ((!v.isTruthy) == op.absorbing) = true
  cases v.isTruthy <;> cases op.absorbing <;> simp

section Opposites

-- An expression and its negation decide a set that both are operands of.
theorem setOf_of_opposites (hn : ∀ e ∈ xs, Normal e) (hs : a.same a) (ha : a ∈ xs)
    (hna : negate a ∈ xs) (hd : ∀ fs, ¬(a = set op fs ∨ negate a = set op fs)) :
    setOf op xs = ofBool op.absorbing := by
  simp only [not_or] at hd
  have hm : ∀ e ∈ xs, (∀ fs, e ≠ set op fs) → e ∈ xs.flatMap (operandsIn op) := fun e he h =>
    mem_flatMap.mpr ⟨e, he, by simp [operandsIn_eq_singleton h]⟩
  have hfa := hm a ha fun fs => (hd fs).left
  have hfn := hm (negate a) hna fun fs => (hd fs).right
  by_cases hc : a.isConstant
  case pos =>
    obtain ⟨v, rfl⟩ := isConstant_iff.mp hc
    have hj := judged_of_mem hfn fun _ _ => ⟨_, rfl⟩
    refine (setOf_eq_absorbing_iff hn hj).mpr (.inl ?_)
    rcases absorbs_or_absorbs_negate op v with hv | hv
    case inl => exact ⟨_, hfa, hv⟩
    case inr => exact ⟨_, hfn, hv⟩
  case neg =>
    refine (setOf_eq_absorbing_iff hn ((hn a ha).judged hc ha)).mpr (.inr ?_)
    exact ⟨a, hfa, _, hfn, hc, not_isConstant_negate (hn a ha) hc, same_negate hs⟩

-- A set that is spliced leaves no operand whose negation could be found.
theorem decisive_iff_of_spliced (hn : Normal n) (hc : ¬n.isConstant) (hs : negate n = set op fs)
    (he : ∀ e ∈ es, Normal e ∧ ∀ gs, e ≠ set op gs) (hx : ∀ e, e ∈ xs ↔ e = n ∨ e ∈ es) :
    Decisive op xs ↔ Decisive op es := by
  have hop : ∀ e ∈ xs, ¬(negate n).same e := by
    intro e hm h
    rcases (hx e).mp hm with rfl | hm
    case inl => exact not_same_negate hn hc h
    case inr =>
      have ⟨gs, hg⟩ : ∃ gs, e = set op gs := eq_set_of_same (hs ▸ h)
      exact (he e hm).right gs hg
  have hpo : ∀ e ∈ es, ¬e.isConstant → ¬(negate e).same n := fun e hm hec h =>
    hop e ((hx e).mpr (.inr hm)) (opposite_symm (he e hm).left hec h)
  constructor
  case mp =>
    rintro (⟨e, hm, ha⟩ | ⟨e, hm, f, hf, hec, hfc, h⟩)
    case inl =>
      rcases (hx e).mp hm with rfl | hm
      case inl => exact absurd (isConstant_of_absorbs ha) hc
      case inr => exact .inl ⟨e, hm, ha⟩
    case inr =>
      rcases (hx e).mp hm with rfl | hm
      case inl => exact absurd h (hop f hf)
      case inr =>
        rcases (hx f).mp hf with rfl | hf
        case inl => exact absurd h (hpo e hm hec)
        case inr => exact .inr ⟨e, hm, f, hf, hec, hfc, h⟩
  case mpr =>
    have hsub : ∀ e ∈ es, e ∈ xs := fun e hm => (hx e).mpr (.inr hm)
    rintro (⟨e, hm, ha⟩ | ⟨e, hm, f, hf, h⟩)
    case inl => exact .inl ⟨e, hsub e hm, ha⟩
    case inr => exact .inr ⟨e, hsub e hm, f, hsub f hf, h⟩

theorem setOf_iff_of_spliced (hn : Normal n) (hc : ¬n.isConstant) (hs : negate n = set op fs)
    (hy : ∀ e ∈ ys, Normal e) (hd : set op fs ∈ ys) (hx : ∀ e, e ∈ xs ↔ e = n ∨ e ∈ ys) :
    setOf op xs = ofBool op.absorbing ↔ setOf op ys = ofBool op.absorbing := by
  have hxn : ∀ e ∈ xs, Normal e := by
    intro e he
    rcases (hx e).mp he with rfl | he
    case inl => exact hn
    case inr => exact hy e he
  have hns : ∀ gs, n ≠ set op gs := by
    rintro gs rfl
    exact negate_set_ne_set hn hs
  have hset : ∀ zs : List Expr, set op fs ∈ zs → Judged (zs.flatMap (operandsIn op)) :=
    fun zs => (hy _ hd).judged Bool.false_ne_true
  have hflat := Simplified.flatMap_operandsIn op fun e he => .inr (hy e he)
  rw [setOf_eq_absorbing_iff hxn (hset xs ((hx _).mpr (.inr hd))),
    setOf_eq_absorbing_iff hy (hset ys hd)]
  refine decisive_iff_of_spliced hn hc hs (fun e he => ⟨?_, (hflat e he).right⟩) fun e => ?_
  · obtain ⟨d, hd, he⟩ := mem_flatMap.mp he
    exact (hy d hd).operandsIn op e he
  · simp [hx, operandsIn_eq_singleton hns]

-- Whichever of the two is the set, the other one can be left out.
theorem setOf_opposites_iff_of_set (hn : Normal a) (hy : ∀ e ∈ ys, Normal e)
    (hfs : a = set op fs ∨ negate a = set op fs) (hd : set op fs ∈ ys)
    (hx : ∀ e, e ∈ xs ↔ e = a ∨ e = negate a ∨ e ∈ ys) :
    setOf op xs = ofBool op.absorbing ↔ setOf op ys = ofBool op.absorbing := by
  rcases hfs with rfl | hfs
  case inl =>
    have hc : ¬(set op fs).isConstant := Bool.false_ne_true
    refine setOf_iff_of_spliced hn.negate (not_isConstant_negate hn hc) (negate_negate hn hc)
      hy hd fun e => (hx e).trans (or_iff_right_of_imp ?_)
    rintro rfl
    exact .inr hd
  case inr =>
    have hc : ¬a.isConstant := by
      intro hc
      obtain ⟨v, rfl⟩ := isConstant_iff.mp hc
      exact Expr.noConfusion hfs
    refine setOf_iff_of_spliced hn hc hfs hy hd fun e => (hx e).trans ?_
    exact or_congr_right (or_iff_right_of_imp fun he => he ▸ hfs ▸ hd)

theorem setOf_opposites_iff {ys : Expr → List Expr} (hn : Normal a) (hs : a.same a)
    (he : ∀ e ∈ es, Normal e) (hx : ∀ e, e ∈ xs ↔ e = a ∨ e = negate a ∨ e ∈ es)
    (hy : ∀ d e, e ∈ ys d ↔ e = d ∨ e ∈ es) :
    setOf op xs = ofBool op.absorbing ↔
      ∀ fs, a = set op fs ∨ negate a = set op fs →
        setOf op (ys (set op fs)) = ofBool op.absorbing := by
  by_cases hd : ∃ fs, a = set op fs ∨ negate a = set op fs
  case neg =>
    push Not at hd
    have hxn : ∀ e ∈ xs, Normal e := by
      intro e hm
      rcases (hx e).mp hm with rfl | rfl | hm
      case inl => exact hn
      case inr.inl => exact hn.negate
      case inr.inr => exact he e hm
    refine iff_of_true (setOf_of_opposites hxn hs ?_ ?_ ?_) fun fs hfs => ?_
    · exact (hx a).mpr (.inl rfl)
    · exact (hx _).mpr (.inr (.inl rfl))
    · exact fun fs hfs => hfs.elim (hd fs).left (hd fs).right
    · exact hfs.elim (absurd · (hd fs).left) (absurd · (hd fs).right)
  case pos =>
    have hone : ∀ fs, (a = set op fs ∨ negate a = set op fs) →
        (setOf op xs = ofBool op.absorbing ↔
          setOf op (ys (set op fs)) = ofBool op.absorbing) := by
      intro fs hfs
      have hset : Normal (set op fs) := hfs.elim (· ▸ hn) (· ▸ hn.negate)
      have hm : set op fs ∈ ys (set op fs) := (hy _ _).mpr (.inl rfl)
      refine setOf_opposites_iff_of_set hn (fun e hm => ?_) hfs hm fun e => ?_
      · rcases (hy _ e).mp hm with rfl | hm
        case inl => exact hset
        case inr => exact he e hm
      · rw [hx, hy]
        rcases hfs with hfs | hfs <;> rw [← hfs] <;> tauto
    obtain ⟨fs, hfs⟩ := hd
    exact ⟨fun h fs hfs => (hone fs hfs).mp h, fun h => (hone fs hfs).mpr (h fs hfs)⟩

end Opposites

namespace Built

-- An expression and its negation make a conjunction false and a disjunction true, whatever else
-- they are joined with. Only if one of them is a set that is spliced into its operands, the other
-- one goes unnoticed: it then counts for nothing.
theorem opposites_decide_iff (ha : Built a) (hu : ¬Occurs unresolvable a)
    (hx : ∀ x, x.isNaN → ¬Occurs (constant (.decimal x)) a)
    (hb : ∀ e ∈ ps ++ ms ++ qs, Built e ∧ e ≠ unresolvable) (op : LogicalOperator) :
    (Expr.setOf op (ps ++ [a] ++ ms ++ [Expr.negate a] ++ qs) = ofBool op.absorbing ↔
        ∀ fs, a = set op fs ∨ Expr.negate a = set op fs →
          Expr.setOf op (ps ++ [set op fs] ++ ms ++ qs) = ofBool op.absorbing) ∧
      (Expr.setOf op (ps ++ [Expr.negate a] ++ ms ++ [a] ++ qs) = ofBool op.absorbing ↔
        ∀ fs, a = set op fs ∨ Expr.negate a = set op fs →
          Expr.setOf op (ps ++ [set op fs] ++ ms ++ qs) = ofBool op.absorbing) := by
  have hs : a.same a := same_self_iff.mpr ⟨hu, hx⟩
  have hn : Normal a := ha.simplified.normal fun h => hu (h ▸ .here)
  have he : ∀ e ∈ ps ++ ms ++ qs, Normal e :=
    fun e he => (hb e he).left.simplified.normal (hb e he).right
  have hy : ∀ d e, e ∈ ps ++ [d] ++ ms ++ qs ↔ e = d ∨ e ∈ ps ++ ms ++ qs := by grind
  exact ⟨setOf_opposites_iff hn hs he (by grind) hy, setOf_opposites_iff hn hs he (by grind) hy⟩

-- A disjunction and its negation among the operands of a conjunction.
theorem opposites_decide_iff_disjunction :
    let a  := Expr.negate (.anyOf [.pathTo "A", .pathTo "B"])
    let ps := [Expr.pathTo "C", .allOf [.pathTo "A", .pathTo "D"]]
    let ms := [Expr.ofString "x"]
    let qs := [Expr.pathTo "C"]
    Built a ∧ a.same a ∧ (∀ e ∈ ps ++ ms ++ qs, Built e ∧ e ≠ unresolvable) ∧
      Expr.setOf .and (ps ++ [a] ++ ms ++ [Expr.negate a] ++ qs) = ofBool false ∧
      Expr.setOf .and (ps ++ [Expr.negate a] ++ ms ++ [a] ++ qs) = ofBool false := by
  intro a ps ms qs
  have ha : Built a := .negate (.anyOf (by simp [Built.pathTo]))
  have hs : a.same a := by decide +kernel
  have hset : Built (Expr.allOf [.pathTo "A", .pathTo "D"]) := .allOf (by simp [Built.pathTo])
  have hb : ∀ e ∈ ps ++ ms ++ qs, Built e := by
    simp [ps, ms, qs, hset, Built.pathTo, Built.ofString]
  have hu : ¬hasUnresolvable (ps ++ ms ++ qs) := by decide +kernel
  have hbu : ∀ e ∈ ps ++ ms ++ qs, Built e ∧ e ≠ unresolvable :=
    fun e he => ⟨hb e he, fun h => hu (hasUnresolvable_iff.mpr (h ▸ he))⟩
  have hd : ∀ fs, ¬(a = set .and fs ∨ Expr.negate a = set .and fs) := by
    rintro fs (h | h)
    case inl => exact Expr.noConfusion h
    case inr =>
      have hn : Expr.negate a = set .or [.pathTo "A", .pathTo "B"] := rfl
      rw [hn] at h
      cases h
  have ⟨hua, hxa⟩ := same_self_iff.mp hs
  have ⟨h, h'⟩ := ha.opposites_decide_iff hua hxa hbu .and
  exact ⟨ha, hs, hbu, h.mpr fun fs hf => absurd hf (hd fs), h'.mpr fun fs hf => absurd hf (hd fs)⟩

-- Next to its negation a conjunction makes a disjunction true, but no other conjunction false: it
-- is spliced there.
theorem opposite_not_found :
    let a := Expr.allOf [.pathTo "A", .pathTo "B"]
    Built a ∧ ¬Occurs unresolvable a ∧ (∀ x, x.isNaN → ¬Occurs (constant (.decimal x)) a) ∧
      Expr.anyOf [a, .negate a] = ofBool true ∧ Expr.allOf [a, .negate a] ≠ ofBool false := by
  intro a
  have ha : Built a := .allOf (by simp [Built.pathTo])
  have ⟨hu, hx⟩ := same_self_iff.mp (by decide +kernel : a.same a)
  refine ⟨ha, hu, hx, isBoolean_iff.mp (by decide +kernel), fun h => ?_⟩
  exact absurd (isBoolean_iff.mpr h) (by decide +kernel)

end Built
end BindingAlgebra.Expr
