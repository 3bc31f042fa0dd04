import BindingAlgebra.Proofs.Built
import BindingAlgebra.Proofs.Opposite
import BindingAlgebra.Proofs.SelfEquality
import Mathlib.Data.List.Perm.Basic

namespace BindingAlgebra.Expr

open List Relation

-- The same operands up to `r`, in any order.
def Permuted (r : Expr → Expr → Prop) (es fs : List Expr) : Prop :=
  Comp Perm (Forall₂ r) es fs

-- What may become of sets of the same operands in different orders.
inductive Rearranged (r : Expr → Expr → Prop) (op : LogicalOperator) : Expr → Expr → Prop
  | unresolvable : Rearranged r op unresolvable unresolvable
  | alike : r e f → Rearranged r op e f
  | set : Permuted r es fs → Rearranged r op (set op es) (set op fs)

-- Of what equals nothing at all it can still be said that it is the same expression.
abbrev Alike : Expr → Expr → Prop :=
  ReflGen (same · ·)

variable {r : Expr → Expr → Prop} {op : LogicalOperator} {e f : Expr} {es fs gs : List Expr}
  {p : Expr → Bool}

theorem forall₂_trans (hr : ∀ {e f g}, r e f → r f g → r e g) (h : Forall₂ r es fs)
    (h' : Forall₂ r fs gs) : Forall₂ r es gs := by
  induction h generalizing gs
  case nil => exact h'
  case cons he _ ih =>
    cases h'
    case cons he' h' => exact .cons (hr he he') (ih h')

namespace Permuted

theorem length_eq (h : Permuted r es fs) : es.length = fs.length := by
  obtain ⟨gs, hp, ha⟩ := h
  exact hp.length_eq.trans ha.length_eq

theorem forall₂_of_length_le_one (hl : es.length ≤ 1) (h : Permuted r es fs) :
    Forall₂ r es fs := by
  obtain ⟨gs, hp, ha⟩ := h
  rcases es with _ | ⟨e, _ | ⟨f, es⟩⟩
  case nil => exact hp.nil_eq ▸ ha
  case cons.nil => exact perm_singleton.mp hp.symm ▸ ha
  case cons.cons => simp at hl

theorem of_alike (h : Forall₂ r es fs) : Permuted r es fs :=
  ⟨es, .refl es, h⟩

theorem of_perm (hr : ∀ e, r e e) (h : es.Perm fs) : Permuted r es fs :=
  ⟨fs, h, forall₂_same.mpr fun e _ => hr e⟩

theorem trans (hr : ∀ {e f g}, r e f → r f g → r e g) (h : Permuted r es fs)
    (h' : Permuted r fs gs) : Permuted r es gs := by
  obtain ⟨es', hp, ha⟩ := h
  obtain ⟨fs', hp', ha'⟩ := h'
  -- What is equal and then permuted is permuted and then equal.
  have hc : Comp (Forall₂ r) Perm es' fs' := ⟨fs, ha, hp'⟩
  rw [forall₂_comp_perm_eq_perm_comp_forall₂] at hc
  obtain ⟨ds, hd, hf⟩ := hc
  exact ⟨ds, hp.trans hd, forall₂_trans hr hf ha'⟩

theorem cons (he : r e f) (h : Permuted r es fs) : Permuted r (e :: es) (f :: fs) := by
  obtain ⟨gs, hp, ha⟩ := h
  exact ⟨e :: gs, hp.cons e, ha.cons he⟩

theorem filter {q : Expr → Bool} (hr : ∀ {e f}, r e f → p e = q f) (h : Permuted r es fs) :
    Permuted r (es.filter p) (fs.filter q) := by
  obtain ⟨gs, hp, ha⟩ := h
  exact ⟨gs.filter p, hp.filter p, rel_filter (fun _ _ h => Bool.eq_iff_iff.mp (hr h)) ha⟩

end Permuted

namespace Alike

theorem trans (h : Alike e f) (h' : Alike f g) : Alike e g := by
  cases h
  case refl => exact h'
  case single h =>
    cases h'
    case refl => exact .single h
    case single h' => exact .single (same_trans h h')

theorem same (he : e.same e) (h : Alike e f) : e.same f := by
  cases h
  case refl => exact he
  case single h => exact h

theorem same_eq (h : Alike e f) (d : Expr) : e.same d = f.same d := by
  cases h
  case refl => rfl
  case single h => exact same_congr_left h d

theorem eq_same (h : Alike e f) (d : Expr) : d.same e = d.same f := by
  rw [same_comm d e, same_comm d f, h.same_eq d]

end Alike

-- In another order other operands may be dropped, but what stays is alike.
theorem permuted_distinct (h : es.Perm fs) : Permuted Alike (distinct es) (distinct fs) := by
  induction h
  case nil => exact .of_alike .nil
  case cons e _ _ _ ih =>
    exact .cons .refl (ih.filter fun ha => congrArg Bool.not (ha.eq_same e))
  case swap e f es =>
    have hf : (distinct es).filter (fun d => !f.same d && !e.same d) =
        (distinct es).filter (fun d => !e.same d && !f.same d) :=
      filter_congr fun d _ => Bool.and_comm _ _
    simp only [distinct, filter_cons, filter_filter, same_comm e f, hf]
    by_cases hs : f.same e
    case pos =>
      simp only [hs, Bool.not_true, Bool.false_eq_true, if_false]
      exact .cons (.single hs) (.of_perm (fun _ => .refl) (.refl _))
    case neg =>
      simp only [hs, Bool.not_false, if_true]
      exact .of_perm (fun _ => .refl) (.swap _ _ _)
  case trans ih ih' => exact ih.trans Alike.trans ih'

section Folding

variable {neg : Expr → Expr}

theorem rearranged_of_length_le_one (hl : es.length ≤ 1) (h : Permuted Alike es fs) :
    Rearranged Alike op (foldSet neg op es) (foldSet neg op fs) := by
  cases h.forall₂_of_length_le_one hl
  case nil => exact .alike .refl
  case cons he hs =>
    cases hs
    case nil => exact .alike he
    case cons => simp at hl

theorem rearranged_pending (hn : ∀ e ∈ es, Normal e) (hc : ∀ e ∈ es, ¬e.isConstant)
    (h : es.Perm fs) :
    Rearranged Alike op (foldSet negate op (distinct es)) (foldSet negate op (distinct fs)) := by
  have hd := permuted_distinct h
  by_cases hl : 2 ≤ (distinct es).length
  case neg => exact rearranged_of_length_le_one (by omega) hd
  case pos =>
    have hnf : ∀ f ∈ fs, Normal f := fun f hf => hn f (h.mem_iff.mpr hf)
    have hcf : ∀ f ∈ fs, ¬f.isConstant := fun f hf => hc f (h.mem_iff.mpr hf)
    have ho : hasOpposite negate (distinct es) = hasOpposite negate (distinct fs) := by
      rw [Bool.eq_iff_iff, hasOpposite_distinct_iff hn hc, hasOpposite_distinct_iff hnf hcf]
      simp only [h.mem_iff]
    rw [foldSet_pending hl fun e he => hc e ((distinct_sublist es).subset he),
      foldSet_pending (hd.length_eq ▸ hl) fun f hf => hcf f ((distinct_sublist fs).subset hf), ho]
    split
    case isTrue => exact .alike .refl
    case isFalse => exact .set hd

theorem rearranged_foldSet (hn : ∀ e ∈ es, Normal e) (h : es.Perm fs) :
    Rearranged Alike op (foldSet negate op (distinct es)) (foldSet negate op (distinct fs)) := by
  have hd := permuted_distinct h
  by_cases hl : (distinct es).length = 1
  case pos => exact rearranged_of_length_le_one (by omega) hd
  case neg =>
    have hje : Judged es := judged_of_length_ne_one hl
    have hjf : Judged fs := judged_of_length_ne_one (hd.length_eq ▸ hl)
    by_cases ha : ∃ e ∈ es, absorbs op e
    case pos =>
      have haf : ∃ f ∈ fs, absorbs op f := by simpa only [h.mem_iff] using ha
      rw [foldSet_of_absorbs hje ha, foldSet_of_absorbs hjf haf]
      exact .alike .refl
    case neg =>
      push Not at ha
      have haf : ∀ f ∈ fs, ¬absorbs op f := fun f hf => by simpa using ha f (h.mem_iff.mpr hf)
      rw [foldSet_of_not_absorbs hje (by simpa using ha), foldSet_of_not_absorbs hjf haf]
      apply rearranged_pending _ _ (h.filter _)
      · exact fun e he => hn e (mem_filter.mp he).left
      · exact fun _ => not_isConstant_of_mem_filter

end Folding

theorem rearranged_setOf (hs : ∀ e ∈ es, Simplified e) (h : es.Perm fs) :
    Rearranged Alike op (setOf op es) (setOf op fs) := by
  have hp : (es.flatMap (operandsIn op)).Perm (fs.flatMap (operandsIn op)) := h.flatMap_right _
  have hu : hasUnresolvable (es.flatMap (operandsIn op)) =
      hasUnresolvable (fs.flatMap (operandsIn op)) := hp.any_eq
  rw [setOf_eq, setOf_eq, ← hu]
  split
  case isTrue => exact .unresolvable
  case isFalse hu =>
    refine rearranged_foldSet (Simplified.all_normal (fun e he => ?_) hu) hp
    exact (Simplified.flatMap_operandsIn op hs e he).left

-- What is made of operands that equal themselves is not just alike in every order, but equal.
theorem Rearranged.same (hs : ∀ e ∈ es, e.same e) (h : Rearranged Alike op (setOf op es) f) :
    Rearranged (same · ·) op (setOf op es) f := by
  have he : (setOf op es).same (setOf op es) := same_setOf (forall₂_same.mpr hs)
  generalize setOf op es = e at h he
  cases h
  case unresolvable => exact .unresolvable
  case alike ha => exact .alike (ha.same he)
  case set es fs hp =>
    obtain ⟨gs, hp, ha⟩ := hp
    have hes : sameAll es es := by simpa [Expr.same] using he
    have hgs : ∀ g ∈ gs, g.same g := fun g hg => sameAll_self_iff.mp hes g (hp.mem_iff.mpr hg)
    have hag := (forall₂_and_left gs fs).mpr ⟨hgs, ha⟩
    exact .set ⟨gs, hp, hag.imp fun _ _ h => h.right.same h.left⟩

theorem rearranged_setOf_same (hs : ∀ e ∈ es, Simplified e)
    (hv : ∀ e ∈ es, e = unresolvable ∨ e.same e) (h : es.Perm fs) :
    Rearranged (same · ·) op (setOf op es) (setOf op fs) := by
  by_cases hu : unresolvable ∈ es
  case pos =>
    rw [setOf_unresolvable hu, setOf_unresolvable (h.mem_iff.mp hu)]
    exact .unresolvable
  case neg =>
    refine (rearranged_setOf hs h).same fun e he => (hv e he).resolve_left ?_
    rintro rfl
    exact hu he

namespace Built

-- The order of operands decides neither whether a set is simplified to something else nor, up to
-- equality, to what.
theorem rearranged_sets (hb : ∀ e ∈ es, Built e) (h : es.Perm fs) :
    Rearranged Alike .and (Expr.allOf es) (Expr.allOf fs) ∧
      Rearranged Alike .or (Expr.anyOf es) (Expr.anyOf fs) ∧
      ((∀ e ∈ es, e = unresolvable ∨
          ¬Occurs unresolvable e ∧ ∀ x, x.isNaN → ¬Occurs (constant (.decimal x)) e) →
        Rearranged (same · ·) .and (Expr.allOf es) (Expr.allOf fs) ∧
          Rearranged (same · ·) .or (Expr.anyOf es) (Expr.anyOf fs)) := by
  have hs : ∀ e ∈ es, Simplified e := fun e he => (hb e he).simplified
  refine ⟨rearranged_setOf hs h, rearranged_setOf hs h, fun hv => ?_⟩
  have hv : ∀ e ∈ es, e = unresolvable ∨ e.same e :=
    fun e he => (hv e he).imp_right same_self_iff.mpr
  exact ⟨rearranged_setOf_same hs hv h, rearranged_setOf_same hs hv h⟩

theorem rearranged_sets_opposite :
    let e  := Expr.anyOf [.pathTo "A", .pathTo "B"]
    let es := [.negate e, .pathTo "C", e]
    let fs := [.pathTo "C", .negate e, e]
    (∀ e ∈ es, Built e) ∧ es.Perm fs ∧ (Expr.allOf es).isConstant ∧
      Rearranged (same · ·) .and (Expr.allOf es) (Expr.allOf fs) ∧
      Rearranged (same · ·) .or (Expr.anyOf es) (Expr.anyOf fs) := by
  intro e es fs
  have he : Built e := .anyOf (by simp [Built.pathTo])
  have hb : ∀ d ∈ es, Built d := by simp [es, he, he.negate, Built.pathTo]
  have hp : es.Perm fs := .swap _ _ _
  have hv : ∀ d ∈ es, d.same d := by decide +kernel
  have h := rearranged_sets hb hp
  exact ⟨hb, hp, by decide +kernel, h.right.right fun d hd => .inr (same_self_iff.mp (hv d hd))⟩

-- An array that holds something unresolvable does not even equal itself.
theorem not_rearranged_unequal :
    let e := constant (.array [Expr.unresolvable])
    Built e ∧ (∀ x, x.isNaN → ¬Occurs (constant (.decimal x)) e) ∧ [e].Perm [e] ∧
      ¬Rearranged (same · ·) .and (Expr.allOf [e]) (Expr.allOf [e]) := by
  intro e
  have hu : Built Expr.unresolvable := .resolvePath none none [] none
  have hb : Built e := by
    refine .ofValue (v := .array [Expr.unresolvable]) fun d hd => ?_
    exact mem_singleton.mp hd ▸ hu
  refine ⟨hb, ?_, .refl _, ?_⟩
  · intro x _ hx
    change Occurs _ (constant (.array [Expr.unresolvable])) at hx
    cases hx
    case step hx hd =>
      rw [mem_singleton.mp hd] at hx
      cases hx
      case step _ hd => exact not_mem_nil hd
  · intro h
    change Rearranged _ _ (constant (.array [Expr.unresolvable])) _ at h
    cases h
    case alike h => exact Bool.false_ne_true h

end Built
end BindingAlgebra.Expr
