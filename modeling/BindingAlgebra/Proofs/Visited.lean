import BindingAlgebra.Expr.Replacement
import BindingAlgebra.Proofs.Same

namespace BindingAlgebra

-- Whether replacements enter nodes of a kind.
def Kind.entered (all : Bool) : Kind → Bool
  | call | formatter | compositeType | concat => true
  | not | truthy | set | comparison | ifElse  => all
  | _                                         => false

theorem Kind.ne_path_of_entered {all : Bool} {k : Kind} (h : k.entered all) : k ≠ path := by
  rintro rfl
  cases h

namespace Expr

open List

-- The node with other children in place of its own, provided that they are as many.
def withChildren : Expr → List Expr → Expr
  | not _, [e]               => not e
  | truthy _, [e]            => truthy e
  | set op _, es             => set op es
  | comparison op _ _, [l, r] => comparison op l r
  | ifElse _ _ _, [c, t, f]  => ifElse c t f
  | concat _, es             => concat es
  | length _, [e]            => length e
  | formatter n _, es        => formatter n es
  | compositeType n _ o p, es => compositeType n es o p
  | call none n _, es        => call none n es
  | call (some _) n _, e :: es => call (some e) n es
  | e, _                     => e

mutual

-- The paths that replacements come across, in their order.
def visitedPaths (all : Bool) : Expr → List (PathBinding Expr)
  | path b                 => [b]
  | not e                  => if all then e.visitedPaths all else []
  | truthy e               => if all then e.visitedPaths all else []
  | set _ es               => if all then visitedPathsAll all es else []
  | comparison _ l r       => if all then l.visitedPaths all ++ r.visitedPaths all else []
  | ifElse c t f           =>
    if all then c.visitedPaths all ++ t.visitedPaths all ++ f.visitedPaths all else []
  | concat es              => visitedPathsAll all es
  | formatter _ es         => visitedPathsAll all es
  | compositeType _ es _ _ => visitedPathsAll all es
  | call none _ es         => visitedPathsAll all es
  | call (some e) _ es     => e.visitedPaths all ++ visitedPathsAll all es
  | _                      => []
termination_by structural e => e

def visitedPathsAll (all : Bool) : List Expr → List (PathBinding Expr)
  | []      => []
  | e :: es => e.visitedPaths all ++ visitedPathsAll all es
termination_by structural es => es

end

mutual

-- The tree in which the visited paths are, one after the other, `g n`, `g (n + 1)` and so on.
def relabel (all : Bool) (g : Nat → PathBinding Expr) : Nat → Expr → Expr
  | n, path _               => path (g n)
  | n, not e                => if all then not (e.relabel all g n) else not e
  | n, truthy e             => if all then truthy (e.relabel all g n) else truthy e
  | n, set op es            => if all then set op (relabelAll all g n es) else set op es
  | n, comparison op l r    =>
    if all then
      comparison op (l.relabel all g n) (r.relabel all g (n + (l.visitedPaths all).length))
    else comparison op l r
  | n, ifElse c t f         =>
    if all then
      let n'  := n + (c.visitedPaths all).length
      let n'' := n' + (t.visitedPaths all).length
      ifElse (c.relabel all g n) (t.relabel all g n') (f.relabel all g n'')
    else ifElse c t f
  | n, concat es            => concat (relabelAll all g n es)
  | n, formatter m es       => formatter m (relabelAll all g n es)
  | n, compositeType m es o p => compositeType m (relabelAll all g n es) o p
  | n, call none m es       => call none m (relabelAll all g n es)
  | n, call (some e) m es   =>
    call (some (e.relabel all g n)) m (relabelAll all g (n + (e.visitedPaths all).length) es)
  | _, e                    => e
termination_by structural _ e => e

def relabelAll (all : Bool) (g : Nat → PathBinding Expr) : Nat → List Expr → List Expr
  | _, []      => []
  | n, e :: es => e.relabel all g n :: relabelAll all g (n + (e.visitedPaths all).length) es
termination_by structural _ es => es

end

-- How replacements meet a node: as a path, as a node to enter, or as one to leave alone.
inductive Meeting (all : Bool) : Expr → Prop
  | path (b : PathBinding Expr) : Meeting all (path b)
  | enter : e.kind.entered all → Meeting all e
  | leave : ¬e.isPath → ¬e.kind.entered all → Meeting all e

section Children

variable {e : Expr} {es fs : List Expr}

theorem meeting (all : Bool) (e : Expr) : Meeting all e := by
  by_cases hp : e.isPath
  case pos =>
    have ⟨b, he⟩ := isPath_iff.mp hp
    exact he ▸ .path b
  case neg =>
    by_cases he : e.kind.entered all
    case pos => exact .enter he
    case neg => exact .leave hp he

theorem kind_withChildren (e : Expr) (es : List Expr) : (e.withChildren es).kind = e.kind := by
  unfold withChildren
  split <;> rfl

theorem withChildren_children (e : Expr) : e.withChildren e.children = e := by
  cases e
  case call receiver _ _ => cases receiver <;> rfl
  all_goals rfl

theorem children_withChildren (h : es.length = e.children.length) :
    (e.withChildren es).children = es := by
  cases e
  case call receiver _ _ =>
    cases receiver
    case none => rfl
    case some => obtain ⟨d, ds, rfl⟩ := exists_cons_of_length_eq_add_one h; rfl
  case not | truthy | length => obtain ⟨d, rfl⟩ := length_eq_one_iff.mp h; rfl
  case comparison => obtain ⟨l, r, rfl⟩ := length_eq_two.mp h; rfl
  case ifElse => obtain ⟨c, t, f, rfl⟩ := length_eq_three.mp h; rfl
  case set | concat | formatter | compositeType => rfl
  all_goals exact (eq_nil_of_length_eq_zero h).symm

theorem withChildren_withChildren (h : es.length = e.children.length)
    (h' : fs.length = e.children.length) :
    (e.withChildren es).withChildren fs = e.withChildren fs := by
  cases e
  case call receiver _ _ =>
    cases receiver
    case none => rfl
    case some =>
      obtain ⟨d, ds, rfl⟩ := exists_cons_of_length_eq_add_one h
      obtain ⟨d', ds', rfl⟩ := exists_cons_of_length_eq_add_one h'
      rfl
  case not | truthy | length =>
    obtain ⟨d, rfl⟩ := length_eq_one_iff.mp h
    obtain ⟨d', rfl⟩ := length_eq_one_iff.mp h'
    rfl
  case comparison =>
    obtain ⟨l, r, rfl⟩ := length_eq_two.mp h
    obtain ⟨l', r', rfl⟩ := length_eq_two.mp h'
    rfl
  case ifElse =>
    obtain ⟨c, t, f, rfl⟩ := length_eq_three.mp h
    obtain ⟨c', t', f', rfl⟩ := length_eq_three.mp h'
    rfl
  all_goals rfl

end Children

section Complex

-- Whether a node is complex, by what its kind is and its children are.
theorem isComplex_eq (e : Expr) :
    e.isComplex =
      match e.kind with
      | .compositeType | .concat                      => true
      | .not | .truthy | .set | .comparison | .ifElse => e.children.any isComplex
      | _                                             => false := by
  cases e <;> simp [isComplex, kind, children, anyComplex_eq_any, Bool.or_assoc]

theorem isComplex_congr {e f : Expr} (hk : e.kind = f.kind)
    (h : e.children.map isComplex = f.children.map isComplex) : e.isComplex = f.isComplex := by
  have ha : ∀ es : List Expr, es.any isComplex = (es.map isComplex).any id := by simp
  rw [isComplex_eq e, isComplex_eq f, hk, ha, ha, h]

end Complex

section Walk

variable {all : Bool} {g : Nat → PathBinding Expr} {n : Nat} {e f : Expr} {es fs : List Expr}

theorem visitedPaths_of_entered (h : e.kind.entered all) :
    e.visitedPaths all = visitedPathsAll all e.children := by
  cases e
  case call receiver _ _ =>
    cases receiver <;> simp [visitedPaths, children, visitedPathsAll]
  all_goals simp_all [visitedPaths, children, visitedPathsAll, kind, Kind.entered]

theorem relabel_of_entered (h : e.kind.entered all) :
    e.relabel all g n = e.withChildren (relabelAll all g n e.children) := by
  cases e
  case call receiver _ _ =>
    cases receiver <;> simp [relabel, children, withChildren, relabelAll]
  all_goals simp_all [relabel, children, withChildren, relabelAll, kind, Kind.entered]

theorem visitedPaths_of_not_entered (hp : ¬e.isPath) (h : ¬e.kind.entered all) :
    e.visitedPaths all = [] := by
  cases e <;> simp_all [visitedPaths, isPath, kind, Kind.entered]

theorem relabel_of_not_entered (hp : ¬e.isPath) (h : ¬e.kind.entered all) :
    e.relabel all g n = e := by
  cases e <;> simp_all [relabel, isPath, kind, Kind.entered]

theorem length_relabelAll (es : List Expr) : (relabelAll all g n es).length = es.length := by
  induction es generalizing n <;> simp_all [relabelAll]

theorem mem_relabelAll (h : f ∈ relabelAll all g n es) :
    ∃ e ∈ es, ∃ m, n ≤ m ∧ f = e.relabel all g m := by
  induction es generalizing n
  case nil => cases h
  case cons e es ih =>
    rcases mem_cons.mp h with rfl | h
    case inl => exact ⟨e, mem_cons_self, n, n.le_refl, rfl⟩
    case inr =>
      have ⟨d, hd, m, hm, hf⟩ := ih h
      exact ⟨d, mem_cons_of_mem _ hd, m, by omega, hf⟩

theorem kind_relabel (e : Expr) : (e.relabel all g n).kind = e.kind := by
  cases meeting all e
  case path b      => rfl
  case enter he    => rw [relabel_of_entered he, kind_withChildren]
  case leave hp hn => rw [relabel_of_not_entered hp hn]

theorem children_relabel (h : e.kind.entered all) :
    (e.relabel all g n).children = relabelAll all g n e.children := by
  rw [relabel_of_entered h, children_withChildren (length_relabelAll _)]

theorem visitedPathsAll_relabelAll
    (ih : ∀ e ∈ es, ∀ n, (e.relabel all g n).visitedPaths all =
      (range' n (e.visitedPaths all).length).map g) :
    visitedPathsAll all (relabelAll all g n es) =
      (range' n (visitedPathsAll all es).length).map g := by
  induction es generalizing n
  case nil => rfl
  case cons e es ih' =>
    have he := ih e mem_cons_self n
    have hs := ih' (n := n + (e.visitedPaths all).length) fun f hf => ih f (mem_cons_of_mem _ hf)
    simp only [relabelAll, visitedPathsAll, he, hs, length_append, ← map_append, range'_append_1]

-- The visited paths are the new ones, in the order of their numbers.
theorem visitedPaths_relabel (g : Nat → PathBinding Expr) (n : Nat) (e : Expr) :
    (e.relabel all g n).visitedPaths all = (range' n (e.visitedPaths all).length).map g := by
  induction e using children_induction generalizing n
  case step e ih =>
    cases meeting all e
    case path b => rfl
    case enter he =>
      have he' : (e.relabel all g n).kind.entered all := by rwa [kind_relabel]
      rw [visitedPaths_of_entered he', children_relabel he, visitedPaths_of_entered he]
      exact visitedPathsAll_relabelAll ih
    case leave hp hn => simp [relabel_of_not_entered hp hn, visitedPaths_of_not_entered hp hn]

theorem relabelAll_eq_self
    (ih : ∀ e ∈ es, ∀ n, e.visitedPaths all = (range' n (e.visitedPaths all).length).map g →
      e.relabel all g n = e)
    (h : visitedPathsAll all es = (range' n (visitedPathsAll all es).length).map g) :
    relabelAll all g n es = es := by
  induction es generalizing n
  case nil => rfl
  case cons e es ih' =>
    simp only [visitedPathsAll, length_append, ← range'_append_1, map_append] at h
    have ⟨he, hs⟩ := append_inj h (by simp)
    rw [relabelAll, ih e mem_cons_self n he, ih' (fun f hf => ih f (mem_cons_of_mem _ hf)) hs]

-- A tree whose visited paths are put back in their places is the tree itself.
theorem relabel_eq_self
    (h : e.visitedPaths all = (range' n (e.visitedPaths all).length).map g) :
    e.relabel all g n = e := by
  induction e using children_induction generalizing n
  case step e ih =>
    cases meeting all e
    case path b =>
      obtain rfl : b = g n := by simpa [visitedPaths] using h
      rfl
    case enter he =>
      rw [visitedPaths_of_entered he] at h
      rw [relabel_of_entered he, relabelAll_eq_self (fun c hc n => ih c hc) h,
        withChildren_children]
    case leave hp hn => exact relabel_of_not_entered hp hn

theorem relabelAll_relabelAll {g' : Nat → PathBinding Expr}
    (ih : ∀ e ∈ es, ∀ n, (e.relabel all g n).relabel all g' n = e.relabel all g' n) :
    relabelAll all g' n (relabelAll all g n es) = relabelAll all g' n es := by
  induction es generalizing n
  case nil => rfl
  case cons e es ih' =>
    have hl : ((e.relabel all g n).visitedPaths all).length = (e.visitedPaths all).length := by
      simp [visitedPaths_relabel]
    simp only [relabelAll, hl]
    rw [ih e mem_cons_self, ih' fun f hf => ih f (mem_cons_of_mem _ hf)]

-- Only the last labels count.
theorem relabel_relabel (g g' : Nat → PathBinding Expr) (n : Nat) (e : Expr) :
    (e.relabel all g n).relabel all g' n = e.relabel all g' n := by
  induction e using children_induction generalizing n
  case step e ih =>
    cases meeting all e
    case path b => rfl
    case enter he =>
      have he' : (e.relabel all g n).kind.entered all := by rwa [kind_relabel]
      have hl : ∀ h, (relabelAll all h n e.children).length = e.children.length :=
        fun _ => length_relabelAll _
      rw [relabel_of_entered he', children_relabel he, relabelAll_relabelAll ih,
        relabel_of_entered he, withChildren_withChildren (hl g) (hl g'), relabel_of_entered he]
    case leave hp hn => rw [relabel_of_not_entered hp hn]

theorem visitedPathsAll_of_same
    (ih : ∀ e ∈ es, ∀ f, e.same f →
      Forall₂ (samePath · ·) (e.visitedPaths all) (f.visitedPaths all))
    (h : Forall₂ (same · ·) es fs) :
    Forall₂ (samePath · ·) (visitedPathsAll all es) (visitedPathsAll all fs) := by
  induction h
  case nil => exact .nil
  case cons hef _ ih' =>
    exact rel_append (ih _ mem_cons_self _ hef) (ih' fun e he => ih e (mem_cons_of_mem _ he))

-- The paths that equal trees visit are equal one by one.
theorem visitedPaths_of_same (all : Bool) (h : e.same f) :
    Forall₂ (samePath · ·) (e.visitedPaths all) (f.visitedPaths all) := by
  induction e using children_induction generalizing f
  case step e ih =>
    have hk := kind_eq_of_same h
    cases meeting all e
    case path b =>
      obtain ⟨c, rfl⟩ := isPath_iff.mp (decide_eq_true hk.symm)
      exact .cons (by simpa [same] using h) .nil
    case enter he =>
      rw [visitedPaths_of_entered he, visitedPaths_of_entered (hk ▸ he)]
      exact visitedPathsAll_of_same (fun c hc f => ih c hc) (forall₂_children_of_same h)
    case leave hp hn =>
      rw [visitedPaths_of_not_entered hp hn,
        visitedPaths_of_not_entered (by rwa [isPath, ← hk]) (hk ▸ hn)]
      exact .nil

theorem relabel_eq_self_of_nil (h : e.visitedPaths all = []) : e.relabel all g n = e :=
  relabel_eq_self (by simp [h])

-- Labels that differ keep trees apart, unless there is nothing to label.
theorem same_of_same_relabel {m : Nat} (hg : ∀ i j, samePath (g i) (g j) → i = j)
    (hm : n + (e.visitedPaths all).length ≤ m)
    (h : (e.relabel all g n).same (f.relabel all g m)) : e.same f := by
  have hv := visitedPaths_of_same all h
  have hl := hv.length_eq
  simp only [visitedPaths_relabel, length_map, length_range'] at hl
  cases he : e.visitedPaths all <;> cases hf : f.visitedPaths all <;> simp [he, hf] at hl
  case nil.nil => rwa [relabel_eq_self_of_nil he, relabel_eq_self_of_nil hf] at h
  case cons.cons =>
    simp only [visitedPaths_relabel, he, hf, length_cons, range'_succ, map_cons] at hv
    have := hg _ _ (forall₂_cons.mp hv).left
    simp only [he, length_cons] at hm
    omega

-- What holds of any two trees if the numbers of the first one come first holds throughout a list.
theorem pairwise_relabelAll {r s : Expr → Expr → Prop} (h : es.Pairwise r)
    (hs : ∀ e ∈ es, ∀ f ∈ es, ∀ n m, n + (e.visitedPaths all).length ≤ m → r e f →
      s (e.relabel all g n) (f.relabel all g m)) :
    (relabelAll all g n es).Pairwise s := by
  induction h generalizing n
  case nil => exact .nil
  case cons e es he _ ih =>
    refine .cons ?_ <| ih fun e he f hf => hs e (mem_cons_of_mem _ he) f (mem_cons_of_mem _ hf)
    intro f' hf'
    have ⟨f, hf, m, hm, hr⟩ := mem_relabelAll hf'
    rw [hr]
    exact hs e mem_cons_self f (mem_cons_of_mem _ hf) n m hm (he f hf)

theorem map_isComplex_relabelAll
    (ih : ∀ e ∈ es, ∀ n, (e.relabel all g n).isComplex = e.isComplex) :
    (relabelAll all g n es).map isComplex = es.map isComplex := by
  induction es generalizing n
  case nil => rfl
  case cons e es ih' =>
    simp only [relabelAll, map_cons, ih e mem_cons_self,
      ih' fun f hf => ih f (mem_cons_of_mem _ hf)]

theorem isComplex_relabel (e : Expr) : (e.relabel all g n).isComplex = e.isComplex := by
  induction e using children_induction generalizing n
  case step e ih =>
    cases meeting all e
    case path b => rfl
    case enter he =>
      apply isComplex_congr (kind_relabel e)
      rw [children_relabel he, map_isComplex_relabelAll ih]
    case leave hp hn => rw [relabel_of_not_entered hp hn]

end Walk
end Expr
end BindingAlgebra
