import BindingAlgebra.Proofs.Visited

namespace BindingAlgebra

open List

-- Where a node stands in a tree: the numbers of the children on the way down to it.
abbrev Position := List Nat

namespace Position

-- The order in which nodes are done with: those below a node before it, and of two nodes neither of
-- which is below the other the one further left.
inductive Precedes : Position → Position → Prop
  | under  : Precedes (i :: p) []
  | left   : i < j → Precedes (i :: p) (j :: q)
  | within : Precedes p q → Precedes (i :: p) (i :: q)

theorem Precedes.irrefl (p : Position) : ¬Precedes p p := by
  intro h
  induction p
  case nil => cases h
  case cons i p ih =>
    cases h
    case left h   => exact Nat.lt_irrefl i h
    case within h => exact ih h

-- What is placed within the trees of a list, seen from above: the number of the tree comes first.
def numbered (k : Nat) : List (List (Position × α)) → List (Position × α)
  | []        => []
  | ms :: mss => ms.map (Prod.map (k :: ·) id) ++ numbered (k + 1) mss

section Numbered

variable {k : Nat} {mss : List (List (Position × α))} {p : Position} {a : α}

theorem mem_numbered_iff :
    (p, a) ∈ numbered k mss ↔
      ∃ i q ms, mss[i]? = some ms ∧ (q, a) ∈ ms ∧ p = (k + i) :: q := by
  induction mss generalizing k
  case nil => simp [numbered]
  case cons ms mss ih =>
    simp only [numbered, mem_append, mem_map, ih]
    constructor
    case mp =>
      rintro (⟨⟨q, b⟩, hm, he⟩ | ⟨i, q, ns, hi, hm, rfl⟩)
      case inl =>
        cases he
        exact ⟨0, q, ms, rfl, hm, rfl⟩
      case inr => exact ⟨i + 1, q, ns, hi, hm, by congr 1; omega⟩
    case mpr =>
      rintro ⟨i, q, ns, hi, hm, rfl⟩
      cases i
      case zero =>
        cases hi
        exact .inl ⟨(q, a), hm, rfl⟩
      case succ i => exact .inr ⟨i, q, ns, hi, hm, by congr 1; omega⟩

theorem pairwise_numbered (h : ∀ ms ∈ mss, ms.Pairwise fun m n => Precedes m.1 n.1) :
    (numbered k mss).Pairwise fun m n => Precedes m.1 n.1 := by
  induction mss generalizing k
  case nil => exact .nil
  case cons ms mss ih =>
    obtain ⟨hm, hms⟩ := forall_mem_cons.mp h
    refine pairwise_append.mpr ⟨pairwise_map.mpr (hm.imp .within), ih hms, ?_⟩
    rintro m hm ⟨p, b⟩ hn
    obtain ⟨⟨q, a⟩, _, rfl⟩ := mem_map.mp hm
    obtain ⟨i, q', _, _, _, rfl⟩ := mem_numbered_iff.mp hn
    exact .left (by omega)

end Numbered
end Position

namespace Expr

open Position

-- That a node stands at a position, and that the way down to it leads through nodes that are
-- entered.
inductive Stands (enter : Expr → Prop) (n : Expr) : Position → Expr → Prop
  | here : Stands enter n [] n
  | down : enter e → e.children[i]? = some c → Stands enter n p c → Stands enter n (i :: p) e

-- The nodes of one kind that replacements come across, in the order in which these are made.
def met (kind : Kind) (all : Bool) (e : Expr) : List (Position × Expr) :=
  (if e.kind.entered all then
    numbered 0 (e.children.attach.map fun c => met kind all c.val)
  else []) ++ if e.kind = kind then [([], e)] else []
termination_by sizeOf e
decreasing_by exact sizeOf_lt_of_mem_children c.property

variable {kind : Kind} {all : Bool} {enter : Expr → Prop} {e n : Expr} {p : Position}

namespace Stands

theorem nil_iff : Stands enter n [] e ↔ e = n := by
  constructor
  case mp  => rintro ⟨⟩; rfl
  case mpr => rintro rfl; exact .here

theorem cons_iff {i : Nat} : Stands enter n (i :: p) e ↔
    enter e ∧ ∃ c, e.children[i]? = some c ∧ Stands enter n p c := by
  constructor
  case mp  => rintro (_ | ⟨he, hc, h⟩); exact ⟨he, _, hc, h⟩
  case mpr => rintro ⟨he, c, hc, h⟩; exact .down he hc h

theorem mono {enter' : Expr → Prop} (hs : ∀ e, enter e → enter' e) (h : Stands enter n p e) :
    Stands enter' n p e := by
  induction h
  case here            => exact .here
  case down he hc _ ih => exact .down (hs _ he) hc ih

-- There is a node of some sort just if it is the root, or there is one from one of the children on.
theorem exists_iff : (∃ p, Stands enter n p e) ↔
    e = n ∨ enter e ∧ ∃ c ∈ e.children, ∃ p, Stands enter n p c := by
  constructor
  case mp =>
    rintro ⟨_, _ | ⟨he, hc, h⟩⟩
    case here => exact .inl rfl
    case down => exact .inr ⟨he, _, mem_of_getElem? hc, _, h⟩
  case mpr =>
    rintro (rfl | ⟨he, c, hc, p, h⟩)
    case inl => exact ⟨[], .here⟩
    case inr =>
      obtain ⟨i, hi⟩ := mem_iff_getElem?.mp hc
      exact ⟨i :: p, .down he hi h⟩

end Stands

theorem met_eq (kind : Kind) (all : Bool) (e : Expr) :
    e.met kind all =
      (if e.kind.entered all then numbered 0 (e.children.map (met kind all)) else []) ++
        if e.kind = kind then [([], e)] else [] := by
  rw [met, map_subtype (g := met kind all) fun _ _ => rfl, unattach_attach]

theorem mem_met_iff :
    (p, n) ∈ e.met kind all ↔ Stands (·.kind.entered all) n p e ∧ n.kind = kind := by
  induction e using children_induction generalizing p
  case step e ih =>
    have root : (p, n) ∈ (if e.kind = kind then [([], e)] else []) ↔
        p = [] ∧ e = n ∧ n.kind = kind := by
      split <;> aesop
    rw [met_eq, mem_append, root]
    cases p
    case nil =>
      have hn : ([], n) ∉ if e.kind.entered all then
          numbered 0 (e.children.map (met kind all)) else [] := by
        split <;> simp [mem_numbered_iff]
      simp [hn, Stands.nil_iff]
    case cons i p =>
      rw [Stands.cons_iff]
      by_cases he : e.kind.entered all
      case neg => simp [he]
      case pos =>
        simp only [he, ↓reduceIte, mem_numbered_iff, getElem?_map, Option.map_eq_some_iff,
          reduceCtorEq, false_and, or_false, true_and]
        constructor
        case mp =>
          rintro ⟨j, q, _, ⟨c, hc, rfl⟩, hm, hp⟩
          obtain ⟨rfl, rfl⟩ : i = j ∧ p = q := by simpa using hp
          have ⟨hs, hk⟩ := (ih c (mem_of_getElem? hc)).mp hm
          exact ⟨⟨c, hc, hs⟩, hk⟩
        case mpr =>
          rintro ⟨⟨c, hc, hs⟩, hk⟩
          exact ⟨i, p, _, ⟨c, hc, rfl⟩, (ih c (mem_of_getElem? hc)).mpr ⟨hs, hk⟩, by simp⟩

theorem pairwise_met (kind : Kind) (all : Bool) (e : Expr) :
    (e.met kind all).Pairwise fun m n => Precedes m.1 n.1 := by
  induction e using children_induction
  case step e ih =>
    have hr : (if e.kind = kind then [(([] : Position), e)] else []).Pairwise
        fun m n => Precedes m.1 n.1 := by
      split <;> simp
    rw [met_eq]
    refine pairwise_append.mpr ⟨?below, hr, ?across⟩
    case below =>
      split
      case isTrue  => exact pairwise_numbered (forall_mem_map.mpr ih)
      case isFalse => exact .nil
    case across =>
      rintro ⟨p, m⟩ hm ⟨q, n⟩ hn
      split at hm
      case isFalse => contradiction
      case isTrue =>
        obtain ⟨i, p, _, _, _, rfl⟩ := mem_numbered_iff.mp hm
        split at hn
        case isTrue =>
          cases mem_singleton.mp hn
          exact .under
        case isFalse => contradiction

theorem nodup_map_fst_met (kind : Kind) (all : Bool) (e : Expr) :
    ((e.met kind all).map Prod.fst).Nodup := by
  refine pairwise_map.mpr ((pairwise_met kind all e).imp fun {m n} h he => ?_)
  rw [he] at h
  exact Precedes.irrefl n.1 h

end Expr
end BindingAlgebra
