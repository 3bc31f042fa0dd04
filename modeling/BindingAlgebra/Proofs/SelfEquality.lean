import BindingAlgebra.Proofs.Occurrence
import BindingAlgebra.Proofs.Same

namespace BindingAlgebra

open List

namespace ObjectLiteral

variable {k : String} {v : ε} {entries entries' : List (String × ε)} {o p : ObjectLiteral ε}

theorem mem_map_snd_iff : v ∈ entries.map Prod.snd ↔ ∃ k, v ∈ valuesAt k entries := by
  simp [valuesAt]

theorem valuesAt_eq_nil (h : k ∉ entries.map Prod.fst) : valuesAt k entries = [] := by
  simp only [valuesAt, map_eq_nil_iff, filter_eq_nil_iff, decide_eq_true_eq]
  rintro entry hm rfl
  exact h (mem_map_of_mem hm)

-- Under a key there is one value at most, if no key is repeated.
theorem valuesAt_eq_toList (h : (entries.map Prod.fst).Nodup) (k : String) :
    valuesAt k entries = (valueAt? k entries).toList := by
  induction entries
  case nil => rfl
  case cons entry entries ih =>
    have ⟨hn, hd⟩ := nodup_cons.mp h
    by_cases hk : entry.1 = k
    case pos => simp [valuesAt_cons, valueAt?, hk, valuesAt_eq_nil (hk ▸ hn)]
    case neg => simpa [valuesAt_cons, valueAt?, hk] using ih hd

theorem valuesAt_perm (hd : (entries.map Prod.fst).Nodup) (h : entries.Perm entries') (k : String) :
    valuesAt k entries = valuesAt k entries' := by
  have hp : (valuesAt k entries).Perm (valuesAt k entries') := (h.filter _).map _
  rw [valuesAt_eq_toList hd] at hp ⊢
  cases hv : valueAt? k entries
  case none =>
    rw [hv] at hp
    exact hp.nil_eq
  case some =>
    rw [hv] at hp
    exact (perm_singleton.mp hp.symm).symm

end ObjectLiteral

namespace Expr

open ObjectLiteral

-- The places at which expressions hold object literals.
inductive Place : (ObjectLiteral Expr → Expr) → Prop
  | value : Place fun o => constant (.object o)
  | constraints (b : PathBinding Expr) : Place fun o => path { b with constraints := some o }
  | pathOptions (b : PathBinding Expr) : Place fun o => path { b with formatOptions := some o }
  | pathParameters (b : PathBinding Expr) : Place fun o => path { b with parameters := some o }
  | typeOptions (n : String) (es : List Expr) (p : Option (ObjectLiteral Expr)) :
      Place fun o => compositeType n es (some o) p
  | typeParameters (n : String) (es : List Expr) (o : Option (ObjectLiteral Expr)) :
      Place fun p => compositeType n es o (some p)

section Objects

variable {o p : ObjectLiteral Expr} {place : ObjectLiteral Expr → Expr}

-- Two objects are equal if they have the same keys, with equal values under them.
theorem same_iff_get? (ho : o.keys.Nodup) (hp : p.keys.Nodup) :
    o.same p ↔ ∀ k, Option.Rel (same · ·) (o.get? k) (p.get? k) := by
  have toList_iff : ∀ x y : Option Expr,
      Forall₂ (same · ·) x.toList y.toList ↔ Option.Rel (same · ·) x y := by
    intro x y
    cases x <;> cases y <;> simp
  rw [ObjectLiteral.same, sameEntries_iff]
  refine forall_congr' fun k => ?_
  rw [valuesAt_eq_toList ho, valuesAt_eq_toList hp]
  exact toList_iff _ _

theorem same_perm (ho : o.keys.Nodup) (h : o.entries.Perm p.entries) (q : ObjectLiteral Expr) :
    o.same q = p.same q := by
  rw [Bool.eq_iff_iff, ObjectLiteral.same, ObjectLiteral.same, sameEntries_iff, sameEntries_iff]
  refine forall_congr' fun k => ?_
  rw [valuesAt_perm ho h]

namespace Place

theorem same_iff (h : Place place) :
    (place o).same (place p) ↔ (place .empty).same (place .empty) ∧ o.same p := by
  have he : ObjectLiteral.empty.same (.empty : ObjectLiteral Expr) := rfl
  simp only [ObjectLiteral.same] at he ⊢
  cases h <;> simp [same, samePath, sameValue, sameObject, he] <;> grind

-- What equals the same objects cannot be told apart in any place.
theorem same_congr (h : Place place) (hs : ∀ q, o.same q = p.same q) (e : Expr) :
    (place o).same e = (place p).same e := by
  have hs' : ∀ q, sameObject (some o) q = sameObject (some p) q := by
    rintro (_ | q)
    case none => rfl
    case some => exact hs q
  cases h
  case value =>
    cases e
    case constant v =>
      cases v
      case object q => exact hs q
      all_goals rfl
    all_goals rfl
  case constraints | pathOptions | pathParameters => cases e <;> simp [same, samePath, hs']
  case typeOptions | typeParameters => cases e <;> simp [same, hs']

end Place
end Objects

section Reflexivity

variable {e : Expr} {es : List Expr}

theorem sameAll_self_iff : sameAll es es ↔ ∀ e ∈ es, e.same e := by
  rw [sameAll_iff, forall₂_same]

theorem sameEntries_self_iff {entries : List (String × Expr)} :
    sameEntries entries entries ↔ ∀ e ∈ entries.map Prod.snd, e.same e := by
  simp only [sameEntries_iff, forall₂_same, mem_map_snd_iff]
  grind

theorem sameObject_self_iff {o : Option (ObjectLiteral Expr)} :
    sameObject o o ↔ ∀ e ∈ attributesOf o, e.same e := by
  cases o
  case none => simp [sameObject, attributesOf]
  case some => exact sameEntries_self_iff

theorem samePath_self_iff {b : PathBinding Expr} : samePath b b ↔ ∀ e ∈ b.parts, e.same e := by
  cases b
  simp [samePath, PathBinding.parts, sameObject_self_iff, or_imp, forall_and, and_assoc]

theorem sameValue_self_iff {v : Value Expr} :
    sameValue v v ↔ (∀ x, v = .decimal x → ¬x.isNaN) ∧ ∀ e ∈ v.parts, e.same e := by
  cases v
  case decimal x => simp [sameValue, Value.parts, Binary64.equals_self_iff]
  case array => simp [sameValue, Value.parts, sameAll_self_iff]
  case object => simp [sameValue, Value.parts, ObjectLiteral.values, sameEntries_self_iff]
  all_goals simp [sameValue, Value.parts]

-- A node adds nothing to what its parts are in themselves, unless it has no value or is no number.
theorem same_self_iff_parts :
    e.same e ↔ (e ≠ unresolvable ∧ ∀ x, e = constant (.decimal x) → ¬x.isNaN) ∧
      ∀ c ∈ e.parts, c.same c := by
  cases e
  case constant v => simp [same, parts, sameValue_self_iff]
  case path b => simp [same, parts, samePath_self_iff]
  case call receiver _ _ =>
    simp [same_call, parts, children, sameAll_self_iff, or_imp, forall_and]
  case compositeType =>
    simp [same, parts, sameAll_self_iff, sameObject_self_iff, or_imp, forall_and, and_assoc]
  all_goals simp [same, parts, children, sameAll_self_iff, and_assoc]

theorem same_self_iff : e.same e ↔
    ¬Occurs unresolvable e ∧ ∀ x, x.isNaN → ¬Occurs (constant (.decimal x)) e := by
  have hn : e.same e ↔ ∀ n, Occurs n e →
      n ≠ unresolvable ∧ ∀ x, n = constant (.decimal x) → ¬x.isNaN := by
    induction e using parts_induction
    case step e ih => rw [Reaches.forall_iff, same_self_iff_parts, forall₂_congr ih]
  rw [hn]
  constructor
  case mp => exact fun h => ⟨fun hu => (h _ hu).left rfl, fun x hx ho => (h _ ho).right x rfl hx⟩
  case mpr =>
    rintro ⟨hu, hx⟩ n ho
    refine ⟨?_, ?_⟩
    · rintro rfl
      exact hu ho
    · rintro x rfl hn
      exact hx x hn ho

end Reflexivity

theorem same_comm (e f : Expr) : e.same f = f.same e :=
  Bool.eq_iff_iff.mpr ⟨same_symm, same_symm⟩

-- Equality is symmetric and transitive, and what equals itself is what holds nothing unresolvable
-- and nothing that is not a number. Of object literals it sees keys and values, and no order.
theorem same_partial_equivalence (e f g : Expr) :
    e.same f = f.same e ∧ (e.same f → f.same g → e.same g) ∧
      (e.same e ↔ ¬Occurs unresolvable e ∧ ∀ x, x.isNaN → ¬Occurs (constant (.decimal x)) e) ∧
      ∀ place, Place place → ∀ o p : ObjectLiteral Expr, o.keys.Nodup → p.keys.Nodup →
        ((place o).same (place p) ↔ (place .empty).same (place .empty) ∧
          ∀ k, Option.Rel (same · ·) (o.get? k) (p.get? k)) ∧
        (o.entries.Perm p.entries → (place o).same e = (place p).same e) := by
  refine ⟨same_comm e f, same_trans, same_self_iff, fun place hl o p ho hp => ⟨?_, ?_⟩⟩
  · rw [hl.same_iff, same_iff_get? ho hp]
  · exact fun hs => hl.same_congr (same_perm ho hs) e

theorem same_partial_equivalence_options :
    let amount := fun o => path { path := "Amount", formatOptions := some o }
    let style  := ("style", constant (.string "short"))
    let places := ("decimals", constant (.integer 2))
    Place amount ∧ (amount ⟨[style, places]⟩).same (amount ⟨[places, style]⟩) ∧
      (amount ⟨[places, style]⟩).same (amount ⟨[places, style]⟩) := by
  intro amount style places
  have ha : Place amount := .pathOptions { path := "Amount" }
  have h  := same_partial_equivalence (amount ⟨[style, places]⟩) (amount ⟨[places, style]⟩)
    (amount ⟨[style, places]⟩)
  have hs : (amount ⟨[style, places]⟩).same (amount ⟨[style, places]⟩) := by decide +kernel
  have hp : (amount ⟨[style, places]⟩).same (amount ⟨[places, style]⟩) := by
    rw [h.left]
    have ⟨_, ho⟩ := h.right.right.right amount ha ⟨[style, places]⟩ ⟨[places, style]⟩ (by decide)
      (by decide)
    exact ho (Perm.swap _ _ _) ▸ hs
  exact ⟨ha, hp, same_trans (same_symm hp) hp⟩

end Expr
end BindingAlgebra
