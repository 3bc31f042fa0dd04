import BindingAlgebra.Expr.Same
import BindingAlgebra.Proofs.Node
import Mathlib.Data.List.Forall2

namespace BindingAlgebra

open List

namespace ObjectLiteral

-- The values under a key, in their order.
def valuesAt (key : String) (entries : List (String × ε)) : List ε :=
  (entries.filter (·.1 = key)).map Prod.snd

theorem valuesAt_cons (key : String) (entry : String × ε) (entries : List (String × ε)) :
    valuesAt key (entry :: entries) =
      if entry.1 = key then entry.2 :: valuesAt key entries else valuesAt key entries := by
  by_cases h : entry.1 = key <;> simp [valuesAt, h]

theorem valuesAt_subset (key : String) (entries : List (String × ε)) :
    valuesAt key entries ⊆ entries.map Prod.snd :=
  map_subset _ filter_sublist.subset

theorem valuesAt_of_takeValue?_none {key : String} {entries : List (String × ε)}
    (h : takeValue? key entries = none) : valuesAt key entries = [] := by
  induction entries
  case nil => rfl
  case cons entry entries ih =>
    by_cases hk : entry.1 = key <;> simp_all [takeValue?, valuesAt_cons]

theorem valuesAt_of_takeValue?_some {key : String} {entries rest : List (String × ε)} {v : ε}
    (h : takeValue? key entries = some (v, rest)) (k : String) :
    valuesAt k entries = if key = k then v :: valuesAt k rest else valuesAt k rest := by
  induction entries generalizing rest
  case nil => simp [takeValue?] at h
  case cons entry entries ih =>
    by_cases hk : entry.1 = key
    case pos =>
      simp only [takeValue?, hk, if_true, Option.some.injEq, Prod.mk.injEq] at h
      obtain ⟨rfl, rfl⟩ := h
      simp [valuesAt_cons, hk]
    case neg =>
      simp only [takeValue?, hk, if_false, Option.map_eq_some_iff, Prod.mk.injEq] at h
      obtain ⟨⟨w, rest'⟩, ht, rfl, rfl⟩ := h
      have := ih ht
      by_cases he : entry.1 = k <;> by_cases hkk : key = k <;> simp_all [valuesAt_cons]

end ObjectLiteral

namespace Expr

open ObjectLiteral

theorem sameAll_iff {es fs : List Expr} : sameAll es fs ↔ Forall₂ (same · ·) es fs := by
  induction es generalizing fs <;> cases fs <;> simp_all [sameAll]

-- Object literals are equal if they hold equal values under each key, whatever the order of keys.
theorem sameEntries_iff {es fs : List (String × Expr)} :
    sameEntries es fs ↔ ∀ k, Forall₂ (same · ·) (valuesAt k es) (valuesAt k fs) := by
  induction es generalizing fs
  case nil =>
    cases fs
    case nil => simp [sameEntries, valuesAt]
    case cons entry fs =>
      simp only [sameEntries, isEmpty_cons, Bool.false_eq_true, false_iff, not_forall]
      exact ⟨entry.1, by simp [valuesAt]⟩
  case cons entry es ih =>
    have ⟨k, e⟩ := entry
    cases ht : takeValue? k fs
    case none =>
      simp only [sameEntries, ht, Bool.false_eq_true, false_iff, not_forall]
      exact ⟨k, by simp [valuesAt_cons, valuesAt_of_takeValue?_none ht]⟩
    case some taken =>
      have ⟨f, rest⟩ := taken
      simp only [sameEntries, ht, Bool.and_eq_true, ih]
      constructor
      case mp =>
        rintro ⟨he, hs⟩ k'
        by_cases hk : k = k' <;> simp [valuesAt_cons, valuesAt_of_takeValue?_some ht, hk, he, hs k']
      case mpr =>
        intro hs
        have h := hs k
        simp only [valuesAt_cons, valuesAt_of_takeValue?_some ht, if_true, forall₂_cons] at h
        refine ⟨h.1, fun k' => ?_⟩
        by_cases hk : k = k'
        case pos => exact hk ▸ h.2
        case neg => simpa [valuesAt_cons, valuesAt_of_takeValue?_some ht, hk] using hs k'

theorem kind_eq_of_same {e f : Expr} (h : e.same f) : e.kind = f.kind := by
  fun_cases same e f <;> simp_all [kind, same]

theorem path_eq_of_samePath {b c : PathBinding Expr} (h : samePath b c) : b.path = c.path := by
  cases b
  cases c
  simp_all [samePath]

theorem same_call {r r' : Option Expr} {n n' : String} {es es' : List Expr} :
    (call r n es).same (call r' n' es') ↔
      n = n' ∧ sameAll r.toList r'.toList ∧ sameAll es es' := by
  cases r <;> cases r' <;> simp [same, sameAll, and_assoc]

theorem forall₂_children_of_same {e f : Expr} (h : e.same f) :
    Forall₂ (same · ·) e.children f.children := by
  fun_cases same e f <;> simp_all [same, children, sameAll_iff]

-- What takes equal expressions to related results takes equal lists to lists of related results.
theorem forall₂_map_of_same {g : Expr → α} {R : α → α → Prop} {es fs : List Expr}
    (hg : ∀ e ∈ es, ∀ {f}, e.same f → R (g e) (g f)) (h : Forall₂ (same · ·) es fs) :
    Forall₂ R (es.map g) (fs.map g) := by
  induction h
  case nil => exact .nil
  case cons he _ ih =>
    exact .cons (hg _ mem_cons_self he) (ih fun e h => hg e (mem_cons_of_mem _ h))

theorem map_eq_of_same {g : Expr → α} {es fs : List Expr}
    (hg : ∀ e ∈ es, ∀ {f}, e.same f → g e = g f) (h : Forall₂ (same · ·) es fs) :
    es.map g = fs.map g :=
  forall₂_eq_eq_eq ▸ forall₂_map_of_same hg h

-- In the lemmas of the next two sections equality is known to be symmetric, or transitive, below
-- the expressions that are compared.
section Symmetry

theorem forall₂_same_symm {es fs : List Expr} (ih : ∀ e ∈ es, ∀ {f}, e.same f → f.same e)
    (h : Forall₂ (same · ·) es fs) : Forall₂ (same · ·) fs es := by
  induction h
  case nil => exact .nil
  case cons he _ hi =>
    exact .cons (ih _ mem_cons_self he) (hi fun e h => ih e (mem_cons_of_mem _ h))

theorem sameAll_symm {es fs : List Expr} (ih : ∀ e ∈ es, ∀ {f}, e.same f → f.same e)
    (h : sameAll es fs) : sameAll fs es :=
  sameAll_iff.mpr (forall₂_same_symm ih (sameAll_iff.mp h))

theorem sameEntries_symm {es fs : List (String × Expr)}
    (ih : ∀ e ∈ es.map Prod.snd, ∀ {f}, e.same f → f.same e) (h : sameEntries es fs) :
    sameEntries fs es :=
  sameEntries_iff.mpr fun k =>
    forall₂_same_symm (fun e he => ih e (valuesAt_subset k es he)) (sameEntries_iff.mp h k)

theorem sameObject_symm {o p : Option (ObjectLiteral Expr)}
    (ih : ∀ e ∈ attributesOf o, ∀ {f}, e.same f → f.same e) (h : sameObject o p) :
    sameObject p o := by
  cases o <;> cases p <;> simp only [sameObject, Bool.false_eq_true] at h ⊢
  case some.some => exact sameEntries_symm ih h

theorem sameValue_symm {v w : Value Expr} (ih : ∀ e ∈ v.parts, ∀ {f}, e.same f → f.same e)
    (h : sameValue v w) : sameValue w v := by
  fun_cases sameValue v w <;> simp_all only [sameValue, Bool.false_eq_true, beq_iff_eq]
  case case5 => exact Binary64.equals_comm .. ▸ h
  case case7 => exact sameAll_symm ih h
  case case8 => exact sameEntries_symm ih h

theorem samePath_symm {b c : PathBinding Expr} (ih : ∀ e ∈ b.parts, ∀ {f}, e.same f → f.same e)
    (h : samePath b c) : samePath c b := by
  cases b
  cases c
  simp only [samePath, Bool.and_eq_true, beq_iff_eq] at h ⊢
  simp only [PathBinding.parts, mem_append, or_assoc] at ih
  obtain ⟨⟨⟨⟨⟨⟨⟨hp, hm⟩, ht⟩, hg⟩, hd⟩, hc⟩, hf⟩, ha⟩ := h
  refine ⟨⟨⟨⟨⟨⟨⟨hp.symm, hm.symm⟩, ht.symm⟩, hg.symm⟩, hd.symm⟩, ?_⟩, ?_⟩, ?_⟩
  · exact sameObject_symm (fun e he => ih e (.inl he)) hc
  · exact sameObject_symm (fun e he => ih e (.inr (.inl he))) hf
  · exact sameObject_symm (fun e he => ih e (.inr (.inr he))) ha

theorem same_symm {e f : Expr} (h : e.same f) : f.same e := by
  induction e using parts_induction generalizing f
  case step e ih =>
    fun_cases same e f <;>
      simp only [↓same_call, same, Bool.and_eq_true, beq_iff_eq, parts, children,
        Bool.false_eq_true] at h ih ⊢
    case case1 => exact sameValue_symm ih h
    case case2 => exact samePath_symm ih h
    case case3 | case4 | case5 => exact h.symm
    case case6 | case7 | case12 => exact ih _ mem_cons_self h
    case case8 | case13 => exact ⟨h.1.symm, sameAll_symm ih h.2⟩
    case case9 => exact ⟨⟨h.1.1.symm, ih _ (by simp) h.1.2⟩, ih _ (by simp) h.2⟩
    case case10 => exact ⟨⟨ih _ (by simp) h.1.1, ih _ (by simp) h.1.2⟩, ih _ (by simp) h.2⟩
    case case11 => exact sameAll_symm ih h
    case case14 =>
      simp only [mem_append, or_assoc] at ih
      refine ⟨⟨⟨h.1.1.1.symm, ?_⟩, ?_⟩, ?_⟩
      · exact sameAll_symm (fun e he => ih e (.inl he)) h.1.1.2
      · exact sameObject_symm (fun e he => ih e (.inr (.inl he))) h.1.2
      · exact sameObject_symm (fun e he => ih e (.inr (.inr he))) h.2
    case case15 | case16 =>
      simp only [mem_append] at ih
      refine ⟨h.1.symm, ?_, ?_⟩
      · exact sameAll_symm (fun e he => ih e (.inl he)) h.2.1
      · exact sameAll_symm (fun e he => ih e (.inr he)) h.2.2

end Symmetry

section Transitivity

theorem forall₂_same_trans {es fs gs : List Expr}
    (ih : ∀ e ∈ es, ∀ {f g}, e.same f → f.same g → e.same g)
    (h₁ : Forall₂ (same · ·) es fs) (h₂ : Forall₂ (same · ·) fs gs) :
    Forall₂ (same · ·) es gs := by
  induction h₁ generalizing gs <;> cases h₂
  case nil.nil => exact .nil
  case cons.cons he _ hi _ _ hf hs =>
    exact .cons (ih _ mem_cons_self he hf) (hi (fun e h => ih e (mem_cons_of_mem _ h)) hs)

theorem sameAll_trans {es fs gs : List Expr}
    (ih : ∀ e ∈ es, ∀ {f g}, e.same f → f.same g → e.same g)
    (h₁ : sameAll es fs) (h₂ : sameAll fs gs) : sameAll es gs :=
  sameAll_iff.mpr (forall₂_same_trans ih (sameAll_iff.mp h₁) (sameAll_iff.mp h₂))

theorem sameEntries_trans {es fs gs : List (String × Expr)}
    (ih : ∀ e ∈ es.map Prod.snd, ∀ {f g}, e.same f → f.same g → e.same g)
    (h₁ : sameEntries es fs) (h₂ : sameEntries fs gs) : sameEntries es gs :=
  sameEntries_iff.mpr fun k =>
    forall₂_same_trans (fun e he => ih e (valuesAt_subset k es he))
      (sameEntries_iff.mp h₁ k) (sameEntries_iff.mp h₂ k)

theorem sameObject_trans {o p q : Option (ObjectLiteral Expr)}
    (ih : ∀ e ∈ attributesOf o, ∀ {f g}, e.same f → f.same g → e.same g)
    (h₁ : sameObject o p) (h₂ : sameObject p q) : sameObject o q := by
  cases o <;> cases p <;> cases q <;> simp only [sameObject, Bool.false_eq_true] at h₁ h₂ ⊢
  case some.some.some => exact sameEntries_trans ih h₁ h₂

theorem sameValue_trans {u v w : Value Expr}
    (ih : ∀ e ∈ u.parts, ∀ {f g}, e.same f → f.same g → e.same g)
    (h₁ : sameValue u v) (h₂ : sameValue v w) : sameValue u w := by
  fun_cases sameValue u v <;> simp only [sameValue, Bool.false_eq_true, beq_iff_eq] at h₁ <;>
    cases w <;> simp_all only [sameValue, Bool.false_eq_true, beq_iff_eq]
  case case5.decimal => exact Binary64.equals_trans h₁ h₂
  case case7.array => exact sameAll_trans ih h₁ h₂
  case case8.object => exact sameEntries_trans ih h₁ h₂

theorem samePath_trans {a b c : PathBinding Expr}
    (ih : ∀ e ∈ a.parts, ∀ {f g}, e.same f → f.same g → e.same g)
    (h₁ : samePath a b) (h₂ : samePath b c) : samePath a c := by
  cases a
  cases b
  cases c
  simp only [samePath, Bool.and_eq_true, beq_iff_eq] at h₁ h₂ ⊢
  simp only [PathBinding.parts, mem_append, or_assoc] at ih
  obtain ⟨⟨⟨⟨⟨⟨⟨hp, hm⟩, ht⟩, hg⟩, hd⟩, hc⟩, hf⟩, ha⟩ := h₁
  obtain ⟨⟨⟨⟨⟨⟨⟨hp', hm'⟩, ht'⟩, hg'⟩, hd'⟩, hc'⟩, hf'⟩, ha'⟩ := h₂
  refine ⟨⟨⟨⟨⟨⟨⟨hp.trans hp', hm.trans hm'⟩, ht.trans ht'⟩, hg.trans hg'⟩, hd.trans hd'⟩, ?_⟩, ?_⟩,
    ?_⟩
  · exact sameObject_trans (fun e he => ih e (.inl he)) hc hc'
  · exact sameObject_trans (fun e he => ih e (.inr (.inl he))) hf hf'
  · exact sameObject_trans (fun e he => ih e (.inr (.inr he))) ha ha'

theorem same_trans {e f g : Expr} (h₁ : e.same f) (h₂ : f.same g) : e.same g := by
  induction e using parts_induction generalizing f g
  case step e ih =>
    fun_cases same e f <;>
      simp only [↓same_call, same, Bool.and_eq_true, beq_iff_eq, parts, children,
        Bool.false_eq_true] at h₁ ih <;>
      cases g <;>
      simp only [↓same_call, same, Bool.and_eq_true, beq_iff_eq, Bool.false_eq_true] at h₂ ⊢
    case case1 => exact sameValue_trans ih h₁ h₂
    case case2 => exact samePath_trans ih h₁ h₂
    case case3 | case4 | case5 => exact h₁.trans h₂
    case case6 | case7 | case12 => exact ih _ mem_cons_self h₁ h₂
    case case8 | case13 => exact ⟨h₁.1.trans h₂.1, sameAll_trans ih h₁.2 h₂.2⟩
    case case9 =>
      exact ⟨⟨h₁.1.1.trans h₂.1.1, ih _ (by simp) h₁.1.2 h₂.1.2⟩, ih _ (by simp) h₁.2 h₂.2⟩
    case case10 =>
      exact ⟨⟨ih _ (by simp) h₁.1.1 h₂.1.1, ih _ (by simp) h₁.1.2 h₂.1.2⟩, ih _ (by simp) h₁.2 h₂.2⟩
    case case11 => exact sameAll_trans ih h₁ h₂
    case case14 =>
      simp only [mem_append, or_assoc] at ih
      refine ⟨⟨⟨h₁.1.1.1.trans h₂.1.1.1, ?_⟩, ?_⟩, ?_⟩
      · exact sameAll_trans (fun e he => ih e (.inl he)) h₁.1.1.2 h₂.1.1.2
      · exact sameObject_trans (fun e he => ih e (.inr (.inl he))) h₁.1.2 h₂.1.2
      · exact sameObject_trans (fun e he => ih e (.inr (.inr he))) h₁.2 h₂.2
    case case15 | case16 =>
      simp only [mem_append] at ih
      refine ⟨h₁.1.trans h₂.1, ?_, ?_⟩
      · exact sameAll_trans (fun e he => ih e (.inl he)) h₁.2.1 h₂.2.1
      · exact sameAll_trans (fun e he => ih e (.inr he)) h₁.2.2 h₂.2.2

end Transitivity
end Expr
end BindingAlgebra
