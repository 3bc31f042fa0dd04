import BindingAlgebra.Expr.Basic

namespace BindingAlgebra

namespace ObjectLiteral

def values (o : ObjectLiteral ε) : List ε :=
  o.entries.map Prod.snd

theorem sizeOf_lt_of_mem_values {o : ObjectLiteral Expr} {e : Expr} (h : e ∈ o.values) :
    sizeOf e < sizeOf o := by
  obtain ⟨⟨k, v⟩, hm, rfl⟩ := List.mem_map.mp h
  have hs := List.sizeOf_lt_of_mem hm
  cases o
  simp only [Prod.mk.sizeOf_spec, ObjectLiteral.mk.sizeOf_spec] at *
  omega

end ObjectLiteral

-- The attributes of a literal that may be absent.
def attributesOf (o : Option (ObjectLiteral Expr)) : List Expr :=
  o.elim [] ObjectLiteral.values

theorem sizeOf_lt_of_mem_attributesOf {o : Option (ObjectLiteral Expr)} {e : Expr}
    (h : e ∈ attributesOf o) : sizeOf e < sizeOf o := by
  cases o
  case none => simp [attributesOf] at h
  case some o =>
    have := ObjectLiteral.sizeOf_lt_of_mem_values h
    simp only [Option.some.sizeOf_spec]
    omega

def Value.parts : Value Expr → List Expr
  | array es => es
  | object o => o.values
  | _        => []

theorem Value.sizeOf_lt_of_mem_parts {v : Value Expr} {e : Expr} (h : e ∈ v.parts) :
    sizeOf e < sizeOf v := by
  cases v <;> simp only [parts, List.not_mem_nil] at h
  case array es =>
    have := List.sizeOf_lt_of_mem h
    simp only [array.sizeOf_spec]
    omega
  case object o =>
    have := ObjectLiteral.sizeOf_lt_of_mem_values h
    simp only [object.sizeOf_spec]
    omega

def PathBinding.parts (b : PathBinding Expr) : List Expr :=
  attributesOf b.constraints ++ attributesOf b.formatOptions ++ attributesOf b.parameters

theorem PathBinding.sizeOf_lt_of_mem_parts {b : PathBinding Expr} {e : Expr} (h : e ∈ b.parts) :
    sizeOf e < sizeOf b := by
  cases b
  simp only [parts, List.mem_append, mk.sizeOf_spec] at *
  rcases h with (h | h) | h
  all_goals
    have := sizeOf_lt_of_mem_attributesOf h
    omega

namespace Expr

theorem isPath_iff {e : Expr} : e.isPath ↔ ∃ b, e = path b := by
  cases e <;> simp [isPath, kind]

-- The nodes right below a node. What constants and object literals hold is data, and no node.
def children : Expr → List Expr
  | not e                    => [e]
  | truthy e                 => [e]
  | set _ es                 => es
  | comparison _ l r         => [l, r]
  | ifElse c t f             => [c, t, f]
  | concat es                => es
  | length e                 => [e]
  | formatter _ es           => es
  | compositeType _ es _ _   => es
  | call receiver _ es       => receiver.toList ++ es
  | _                        => []

-- Whatever is right below an expression: its children, and what its data holds.
def parts : Expr → List Expr
  | constant v             => v.parts
  | path b                 => b.parts
  | compositeType _ es o p => es ++ attributesOf o ++ attributesOf p
  | e                      => e.children

theorem children_subset_parts (e : Expr) : e.children ⊆ e.parts := by
  cases e <;> simp [children, parts, List.append_assoc]

theorem sizeOf_lt_of_mem_parts {c e : Expr} (h : c ∈ e.parts) : sizeOf c < sizeOf e := by
  cases e <;> simp only [parts, children, List.mem_cons, List.mem_append, List.not_mem_nil,
    or_false, Option.mem_toList] at h
  case constant => have := Value.sizeOf_lt_of_mem_parts h; simp; omega
  case path => have := PathBinding.sizeOf_lt_of_mem_parts h; simp; omega
  case compositeType =>
    rcases h with (h | h) | h
    case inl.inl => have := List.sizeOf_lt_of_mem h; simp; omega
    all_goals have := sizeOf_lt_of_mem_attributesOf h; simp; omega
  case call =>
    rcases h with rfl | h
    case inl => simp; omega
    case inr => have := List.sizeOf_lt_of_mem h; simp; omega
  case set | concat | formatter => have := List.sizeOf_lt_of_mem h; simp; omega
  case not | truthy | length => subst h; simp
  case comparison op l r =>
    have := comparison.sizeOf_spec op l r
    rcases h with rfl | rfl <;> omega
  case ifElse c t f =>
    have := ifElse.sizeOf_spec c t f
    rcases h with rfl | rfl | rfl <;> omega

theorem sizeOf_lt_of_mem_children {c e : Expr} (h : c ∈ e.children) : sizeOf c < sizeOf e :=
  sizeOf_lt_of_mem_parts (e.children_subset_parts h)

@[elab_as_elim]
theorem parts_induction {motive : Expr → Prop}
    (step : ∀ e, (∀ c ∈ e.parts, motive c) → motive e) (e : Expr) : motive e :=
  step e fun c _ => parts_induction step c
termination_by sizeOf e
decreasing_by exact sizeOf_lt_of_mem_parts ‹_›

@[elab_as_elim]
theorem children_induction {motive : Expr → Prop}
    (step : ∀ e, (∀ c ∈ e.children, motive c) → motive e) (e : Expr) : motive e :=
  parts_induction (fun e ih => step e fun c h => ih c (e.children_subset_parts h)) e

mutual

-- All nodes of a tree, each one in front of those below it.
def nodes : Expr → List Expr
  | not e                  => not e :: e.nodes
  | truthy e               => truthy e :: e.nodes
  | set op es              => set op es :: nodesAll es
  | comparison op l r      => comparison op l r :: (l.nodes ++ r.nodes)
  | ifElse c t f           => ifElse c t f :: (c.nodes ++ t.nodes ++ f.nodes)
  | concat es              => concat es :: nodesAll es
  | length e               => length e :: e.nodes
  | formatter n es         => formatter n es :: nodesAll es
  | compositeType n es o p => compositeType n es o p :: nodesAll es
  | call none n es         => call none n es :: nodesAll es
  | call (some e) n es     => call (some e) n es :: (e.nodes ++ nodesAll es)
  | e                      => [e]
termination_by structural e => e

def nodesAll : List Expr → List Expr
  | []      => []
  | e :: es => e.nodes ++ nodesAll es
termination_by structural es => es

end

theorem mem_nodesAll_iff {n : Expr} {es : List Expr} :
    n ∈ nodesAll es ↔ ∃ e ∈ es, n ∈ e.nodes := by
  induction es <;> simp_all [nodesAll]

theorem mem_nodes_iff {n e : Expr} : n ∈ e.nodes ↔ n = e ∨ ∃ c ∈ e.children, n ∈ c.nodes := by
  cases e
  case call receiver _ _ =>
    cases receiver <;> simp [nodes, children, mem_nodesAll_iff]
  case ifElse => simp [nodes, children]
  all_goals simp [nodes, children, mem_nodesAll_iff]

-- Whether all nodes of a tree have a property, each one seen by itself.
def AllNodes (q : Expr → Prop) (e : Expr) : Prop :=
  ∀ n ∈ e.nodes, q n

section AllNodes

variable {q : Expr → Prop} {c t f e : Expr}

theorem allNodes_iff : AllNodes q e ↔ q e ∧ ∀ c ∈ e.children, AllNodes q c := by
  simp only [AllNodes, mem_nodes_iff (e := e)]
  grind

namespace AllNodes

theorem node (h : AllNodes q e) : q e :=
  (allNodes_iff.mp h).left

theorem child (h : AllNodes q e) (hc : c ∈ e.children) : AllNodes q c :=
  (allNodes_iff.mp h).right c hc

theorem branches (h : AllNodes q (ifElse c t f)) : AllNodes q c ∧ AllNodes q t ∧ AllNodes q f := by
  simpa [children] using (allNodes_iff.mp h).right

end AllNodes

end AllNodes

-- No node is without a value.
def Resolvable (e : Expr) : Prop :=
  ¬hasUnresolvable e.nodes

instance (e : Expr) : Decidable e.Resolvable :=
  inferInstanceAs (Decidable (¬_))

theorem hasUnresolvable_iff {es : List Expr} : hasUnresolvable es ↔ unresolvable ∈ es := by
  have : ∀ e : Expr, e.isUnresolvable ↔ e = unresolvable := by
    intro e
    cases e <;> simp [isUnresolvable, kind]
  simp [hasUnresolvable, this]

namespace Resolvable

theorem iff_children {e : Expr} :
    Resolvable e ↔ e ≠ unresolvable ∧ ∀ c ∈ e.children, Resolvable c := by
  simp only [Resolvable, hasUnresolvable_iff, mem_nodes_iff (e := e)]
  simp [eq_comm]

theorem ne (h : Resolvable e) : e ≠ unresolvable :=
  (iff_children.mp h).left

theorem child (h : Resolvable e) (hc : c ∈ e.children) : Resolvable c :=
  (iff_children.mp h).right c hc

end Resolvable
end Expr
end BindingAlgebra
