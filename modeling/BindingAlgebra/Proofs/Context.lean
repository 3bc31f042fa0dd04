import BindingAlgebra.Proofs.SelfEquality

namespace BindingAlgebra.Expr

open List

-- The places at which expressions hold lists of expressions.
inductive Row : (List Expr → Expr) → Prop
  | array : Row fun es => constant (.array es)
  | set (op : LogicalOperator) : Row (set op)
  | concat : Row concat
  | formatter (n : String) : Row (formatter n)
  | compositeType (n : String) (o p : Option (ObjectLiteral Expr)) :
      Row fun es => compositeType n es o p
  | call (receiver : Option Expr) (n : String) : Row (call receiver n)

-- A node with one of its parts left open, as a function of what comes there.
inductive Frame : (Expr → Expr) → Prop
  | not : Frame not
  | truthy : Frame truthy
  | left (op : ComparisonOperator) (r : Expr) : Frame fun e => comparison op e r
  | right (op : ComparisonOperator) (l : Expr) : Frame (comparison op l)
  | condition (t f : Expr) : Frame fun e => ifElse e t f
  | onTrue (c f : Expr) : Frame fun e => ifElse c e f
  | onFalse (c t : Expr) : Frame (ifElse c t)
  | length : Frame length
  | receiver (n : String) (es : List Expr) : Frame fun e => call (some e) n es
  | member {row : List Expr → Expr} (h : Row row) (before after : List Expr) :
      Frame fun e => row (before ++ e :: after)
  | entry {place : ObjectLiteral Expr → Expr} (h : Place place) (key : String)
      (before after : List (String × Expr)) : Frame fun e => place ⟨before ++ (key, e) :: after⟩

-- Frames within frames, from the outside.
inductive Context : (Expr → Expr) → Prop
  | hole : Context id
  | within {frame context : Expr → Expr} : Frame frame → Context context →
      Context (frame ∘ context)

variable {frame : Expr → Expr} {place : ObjectLiteral Expr → Expr} {row : List Expr → Expr}
variable {e n : Expr}

theorem Row.mem_parts (h : Row row) {es : List Expr} (he : e ∈ es) : e ∈ (row es).parts := by
  cases h <;> simp [parts, Value.parts, children, he]

theorem Place.mem_parts (h : Place place) {o : ObjectLiteral Expr} (he : e ∈ o.values) :
    e ∈ (place o).parts := by
  cases h <;> simp [parts, Value.parts, PathBinding.parts, attributesOf, he]

theorem Frame.mem_parts (h : Frame frame) (e : Expr) : e ∈ (frame e).parts := by
  cases h
  case member h before after => exact h.mem_parts (by simp)
  case entry h key before after => exact h.mem_parts (by simp [ObjectLiteral.values])
  all_goals simp [parts, children]

section Frames

variable {c : Expr}

theorem Row.exists_frame (h : Row row) {es : List Expr} (hc : c ∈ es) :
    ∃ frame, Frame frame ∧ frame c = row es := by
  obtain ⟨before, after, rfl⟩ := append_of_mem hc
  exact ⟨_, .member h before after, rfl⟩

theorem Place.exists_frame (h : Place place) {o : ObjectLiteral Expr} (hc : c ∈ o.values) :
    ∃ frame, Frame frame ∧ frame c = place o := by
  obtain ⟨⟨key, c⟩, hm, rfl⟩ := mem_map.mp hc
  obtain ⟨before, after, he⟩ := append_of_mem hm
  exact ⟨_, .entry h key before after, congrArg (place ⟨·⟩) he.symm⟩

theorem exists_frame_of_mem_attributesOf (place : Option (ObjectLiteral Expr) → Expr)
    (h : Place fun o => place (some o)) {o : Option (ObjectLiteral Expr)}
    (hc : c ∈ attributesOf o) : ∃ frame, Frame frame ∧ frame c = place o := by
  cases o
  case none => simp [attributesOf] at hc
  case some => exact h.exists_frame hc

-- A frame is left over wherever a part is taken out.
theorem exists_frame (h : c ∈ e.parts) : ∃ frame, Frame frame ∧ frame c = e := by
  cases e <;> simp only [parts, children, mem_cons, mem_append, not_mem_nil, or_false,
    Option.mem_toList] at h
  case constant v =>
    cases v <;> simp only [Value.parts, not_mem_nil] at h
    case array => exact Row.array.exists_frame h
    case object => exact Place.value.exists_frame h
  case path b =>
    simp only [PathBinding.parts, mem_append] at h
    rcases h with (h | h) | h
    case inl.inl =>
      exact exists_frame_of_mem_attributesOf (fun o => path { b with constraints := o })
        (.constraints b) h
    case inl.inr =>
      exact exists_frame_of_mem_attributesOf (fun o => path { b with formatOptions := o })
        (.pathOptions b) h
    case inr =>
      exact exists_frame_of_mem_attributesOf (fun o => path { b with parameters := o })
        (.pathParameters b) h
  case not => exact ⟨_, .not, by rw [h]⟩
  case truthy => exact ⟨_, .truthy, by rw [h]⟩
  case length => exact ⟨_, .length, by rw [h]⟩
  case set => exact (Row.set _).exists_frame h
  case concat => exact Row.concat.exists_frame h
  case formatter => exact (Row.formatter _).exists_frame h
  case comparison op l r =>
    rcases h with rfl | rfl
    case inl => exact ⟨_, .left op r, rfl⟩
    case inr => exact ⟨_, .right op l, rfl⟩
  case ifElse c t f =>
    rcases h with rfl | rfl | rfl
    case inl => exact ⟨_, .condition t f, rfl⟩
    case inr.inl => exact ⟨_, .onTrue c f, rfl⟩
    case inr.inr => exact ⟨_, .onFalse c t, rfl⟩
  case compositeType n es o p =>
    rcases h with (h | h) | h
    case inl.inl => exact (Row.compositeType n o p).exists_frame h
    case inl.inr =>
      exact exists_frame_of_mem_attributesOf (fun o => compositeType n es o p)
        (.typeOptions n es p) h
    case inr =>
      exact exists_frame_of_mem_attributesOf (fun p => compositeType n es o p)
        (.typeParameters n es o) h
  case call receiver n es =>
    rcases h with rfl | h
    case inl => exact ⟨_, .receiver n es, rfl⟩
    case inr => exact (Row.call receiver n).exists_frame h

end Frames

-- What occurs in an expression is what it is a context of.
theorem occurs_iff_context : Occurs n e ↔ ∃ context, Context context ∧ context n = e := by
  constructor
  case mp =>
    intro h
    induction h
    case here => exact ⟨id, .hole, rfl⟩
    case step hc _ ih =>
      obtain ⟨context, hx, rfl⟩ := ih
      obtain ⟨frame, hf, rfl⟩ := exists_frame hc
      exact ⟨frame ∘ context, .within hf hx, rfl⟩
  case mpr =>
    rintro ⟨context, h, rfl⟩
    induction h
    case hole => exact .here
    case within hf _ ih => exact .step (hf.mem_parts _) ih

end BindingAlgebra.Expr
