import BindingAlgebra.Proofs.SelfEquality
import Mathlib.Data.List.Induction

namespace BindingAlgebra.ObjectLiteral

open List

-- What is done to an object literal from outside. Of an attribute that is not kept nothing remains.
-- As keys are distinct, each is asked about once, and what decides may as well have a state.
inductive Step (ε : Type) where
  | insert (key : String) (value : ε)
  | retain (keep : String → ε → Bool)
  | collect (entries : List (String × ε))

def step (o : ObjectLiteral ε) : Step ε → ObjectLiteral ε
  | .insert key value => o.insert key value
  | .retain keep      => o.filter keep
  | .collect entries  => ofEntries entries

def run (steps : List (Step ε)) : ObjectLiteral ε :=
  steps.foldl step empty

-- The single events that steps consist of.
inductive Event (ε : Type) where
  | put (key : String) (value : ε)
  | sift (keep : String → ε → Bool)

-- To collect entries is to drop what is there, and to insert one entry after the other.
def Step.events : Step ε → List (Event ε)
  | .insert key value => [.put key value]
  | .retain keep      => [.sift keep]
  | .collect entries  =>
    .sift (fun _ _ => false) :: entries.map fun (key, value) => .put key value

def history (steps : List (Step ε)) : List (Event ε) :=
  steps.flatMap Step.events

-- Whether an event leaves a key with the value that it has.
def Event.Spares (key : String) (value : ε) : Event ε → Prop
  | .put k _   => k ≠ key
  | .sift keep => keep key value

-- A key has the value of its latest insertion, if it has been kept ever since.
def Held (key : String) (value : ε) (events : List (Event ε)) : Prop :=
  ∃ before after, events = before ++ .put key value :: after ∧ ∀ e ∈ after, e.Spares key value

def Present (key : String) (events : List (Event ε)) : Prop :=
  ∃ value, Held key value events

-- A present key has been added by the event that inserted it when it was absent, and from which on
-- it has been present.
structure AddedAt (key : String) (n : Nat) (events : List (Event ε)) : Prop where
  inserted : ∃ value, events[n]? = some (.put key value)
  absent   : ¬Present key (events.take n)
  present  : ∀ m, n < m → Present key (events.take m)

section Events

variable {key : String} {value : ε} {events : List (Event ε)} {e : Event ε} {m n : Nat}

theorem not_held_nil : ¬Held key value ([] : List (Event ε)) := by
  rintro ⟨before, after, he, _⟩
  simp at he

-- A key has a value just if the last event gave it that value or left it with it.
theorem held_concat_iff :
    Held key value (events ++ [e]) ↔
      e = .put key value ∨ Held key value events ∧ e.Spares key value := by
  constructor
  case mp =>
    rintro ⟨before, after, he, ha⟩
    rcases eq_nil_or_concat after with rfl | ⟨after, e', rfl⟩
    case inl => exact .inl (by simpa using append_inj_right' he rfl)
    case inr =>
      rw [concat_eq_append] at he ha
      rw [← cons_append, ← append_assoc] at he
      obtain ⟨rfl, he⟩ := append_inj' he rfl
      obtain rfl : e = e' := by simpa using he
      rw [forall_mem_append, forall_mem_singleton] at ha
      exact .inr ⟨⟨before, after, rfl, ha.left⟩, ha.right⟩
  case mpr =>
    rintro (rfl | ⟨⟨before, after, rfl, ha⟩, he⟩)
    case inl => exact ⟨events, [], rfl, forall_mem_nil _⟩
    case inr =>
      refine ⟨before, after ++ [e], by simp, ?_⟩
      rw [forall_mem_append, forall_mem_singleton]
      exact ⟨ha, he⟩

theorem present_concat_put : Present key (events ++ [.put key value]) :=
  ⟨value, held_concat_iff.mpr (.inl rfl)⟩

theorem take_concat_of_length_lt (h : events.length < m) : (events ++ [e]).take m = events ++ [e] :=
  take_of_length_le (by simpa using Nat.succ_le_of_lt h)

namespace AddedAt

theorem lt_length (h : AddedAt key n events) : n < events.length := by
  obtain ⟨value, hv⟩ := h.inserted
  exact (List.getElem?_eq_some_iff.mp hv).choose

theorem present_all (h : AddedAt key n events) : Present key events := by
  simpa using h.present events.length h.lt_length

-- A key has been added at one place only.
theorem unique (hm : AddedAt key m events) (hn : AddedAt key n events) : m = n := by
  rcases Nat.lt_trichotomy m n with h | h | h
  case inl     => exact absurd (hm.present n h) hn.absent
  case inr.inl => exact h
  case inr.inr => exact absurd (hn.present m h) hm.absent

-- An event changes nothing about where a key has been added that stays present.
theorem concat (h : AddedAt key n events) (hp : Present key (events ++ [e])) :
    AddedAt key n (events ++ [e]) where
  inserted := by
    obtain ⟨value, hv⟩ := h.inserted
    exact ⟨value, by rwa [getElem?_append_left h.lt_length]⟩
  absent := by
    rw [take_append_of_le_length (Nat.le_of_lt h.lt_length)]
    exact h.absent
  present m hm := by
    rcases Nat.lt_or_ge events.length m with hl | hl
    case inl => rwa [take_concat_of_length_lt hl]
    case inr =>
      rw [take_append_of_le_length hl]
      exact h.present m hm

theorem last (h : ¬Present key events) :
    AddedAt key events.length (events ++ [.put key value]) where
  inserted := ⟨value, by simp⟩
  absent   := by rwa [take_left]
  present m hm := by
    rw [take_concat_of_length_lt hm]
    exact present_concat_put

end AddedAt

theorem exists_addedAt (h : Present key events) : ∃ n, AddedAt key n events := by
  induction events using reverseRecOn
  case nil =>
    obtain ⟨value, hv⟩ := h
    exact absurd hv not_held_nil
  case append_singleton events e ih =>
    by_cases hp : Present key events
    case pos =>
      obtain ⟨n, hn⟩ := ih hp
      exact ⟨n, hn.concat h⟩
    case neg =>
      obtain ⟨value, hv⟩ := h
      rcases held_concat_iff.mp hv with rfl | ⟨hv, _⟩
      case inl => exact ⟨events.length, .last hp⟩
      case inr => exact absurd ⟨value, hv⟩ hp

theorem present_iff : Present key events ↔ ∃! n, AddedAt key n events := by
  constructor
  case mp =>
    intro h
    obtain ⟨n, hn⟩ := exists_addedAt h
    exact ⟨n, hn, fun m hm => hm.unique hn⟩
  case mpr =>
    rintro ⟨n, hn, _⟩
    exact hn.present_all

end Events

section Replay

def apply (o : ObjectLiteral ε) : Event ε → ObjectLiteral ε
  | .put key value => o.insert key value
  | .sift keep     => o.filter keep

def replay (events : List (Event ε)) : ObjectLiteral ε :=
  events.foldl apply empty

variable {key : String} {value : ε} {keep : String → ε → Bool} {o : ObjectLiteral ε}
  {events : List (Event ε)} {e : Event ε}

theorem replay_concat (events : List (Event ε)) (e : Event ε) :
    replay (events ++ [e]) = (replay events).apply e := by
  simp [replay]

theorem step_eq (o : ObjectLiteral ε) (s : Step ε) : o.step s = s.events.foldl apply o := by
  cases s
  case insert | retain => rfl
  case collect entries =>
    have hf : o.filter (fun _ _ => false) = empty := by simp [filter, empty]
    simp only [step, Step.events, foldl_cons, foldl_map, apply, hf]
    rfl

theorem run_eq_replay (steps : List (Step ε)) : run steps = replay (history steps) := by
  rw [run, replay, history, foldl_flatMap]
  exact congrArg (foldl · empty steps) (funext fun o => funext (step_eq o))

-- What can be read of an object with distinct keys.

theorem mem_keys_iff : key ∈ o.keys ↔ ∃ value, o.get? key = some value := by
  obtain ⟨entries⟩ := o
  simp only [keys, get?]
  induction entries
  case nil => simp [valueAt?]
  case cons entry entries ih =>
    by_cases h : entry.1 = key
    case pos => simp [valueAt?, h]
    case neg => simpa [valueAt?, h, Ne.symm h] using ih

theorem mem_entries_iff (ho : o.keys.Nodup) :
    (key, value) ∈ o.entries ↔ o.get? key = some value := by
  have hm : (key, value) ∈ o.entries ↔ value ∈ valuesAt key o.entries := by simp [valuesAt]
  rw [hm, valuesAt_eq_toList ho, Option.mem_toList]
  rfl

theorem nodup_keys_filter (ho : o.keys.Nodup) (keep : String → ε → Bool) :
    (o.filter keep).keys.Nodup :=
  ho.sublist (filter_sublist.map Prod.fst)

theorem get?_filter (ho : o.keys.Nodup) :
    (o.filter keep).get? key = some value ↔ o.get? key = some value ∧ keep key value := by
  rw [← mem_entries_iff (nodup_keys_filter ho keep), ← mem_entries_iff ho]
  exact mem_filter

theorem nodup_keys_apply (ho : o.keys.Nodup) (e : Event ε) : (o.apply e).keys.Nodup := by
  cases e
  case put  => exact nodup_keys_insert ho ..
  case sift => exact nodup_keys_filter ho _

theorem get?_apply (ho : o.keys.Nodup) :
    (o.apply e).get? key = some value ↔
      e = .put key value ∨ o.get? key = some value ∧ e.Spares key value := by
  cases e
  case put k v =>
    rw [apply, get?_insert, Event.Spares]
    split <;> simp_all
  case sift keep => simp [apply, get?_filter ho, Event.Spares]

theorem nodup_keys_replay (events : List (Event ε)) : (replay events).keys.Nodup := by
  induction events using reverseRecOn
  case nil => exact nodup_nil
  case append_singleton events e ih =>
    rw [replay_concat]
    exact nodup_keys_apply ih e

theorem get?_replay : (replay events).get? key = some value ↔ Held key value events := by
  induction events using reverseRecOn
  case nil => exact iff_of_false nofun not_held_nil
  case append_singleton events e ih =>
    rw [replay_concat, get?_apply (nodup_keys_replay events), ih, held_concat_iff]

theorem mem_keys_replay : key ∈ (replay events).keys ↔ Present key events := by
  simp only [mem_keys_iff, get?_replay, Present]

-- Keys come in the order in which they have been added.
def InOrder (events : List (Event ε)) (k k' : String) : Prop :=
  ∃ m n, AddedAt k m events ∧ AddedAt k' n events ∧ m < n

theorem InOrder.concat {k k' : String} (h : InOrder events k k') (hk : Present k (events ++ [e]))
    (hk' : Present k' (events ++ [e])) : InOrder (events ++ [e]) k k' := by
  obtain ⟨m, n, hm, hn, hmn⟩ := h
  exact ⟨m, n, hm.concat hk, hn.concat hk', hmn⟩

theorem pairwise_keys_replay (events : List (Event ε)) :
    (replay events).keys.Pairwise (InOrder events) := by
  induction events using reverseRecOn
  case nil => exact .nil
  case append_singleton events e ih =>
    have present : ∀ {k}, k ∈ ((replay events).apply e).keys → Present k (events ++ [e]) := by
      intro k hk
      rwa [← mem_keys_replay, replay_concat]
    -- Keys that stay keep their order among themselves.
    have stay : ∀ {keys : List String}, keys.Sublist (replay events).keys →
        keys ⊆ ((replay events).apply e).keys → keys.Pairwise (InOrder (events ++ [e])) := by
      intro keys hs hk
      exact (ih.sublist hs).imp_of_mem fun h h' hi =>
        hi.concat (present (hk h)) (present (hk h'))
    rw [replay_concat]
    cases e
    case sift keep => exact stay (filter_sublist.map Prod.fst) (Subset.refl _)
    case put key value =>
      have hi := keys_insert (replay events) key value
      by_cases hk : key ∈ (replay events).keys
      case pos =>
        rw [if_pos hk] at hi
        exact stay (hi ▸ .refl _) (Subset.refl _)
      case neg =>
        rw [if_neg hk] at hi
        have hs : (replay events).keys ⊆ ((replay events).insert key value).keys :=
          hi ▸ subset_append_left _ _
        have new : AddedAt key events.length (events ++ [.put key value]) :=
          .last fun hp => hk (mem_keys_replay.mpr hp)
        rw [apply, hi]
        refine pairwise_append.mpr ⟨stay (.refl _) hs, pairwise_singleton _ _, ?_⟩
        intro k hk' k' hk''
        cases mem_singleton.mp hk''
        obtain ⟨n, hn⟩ := exists_addedAt (mem_keys_replay.mp hk')
        exact ⟨n, events.length, hn.concat (present (hs hk')), new, hn.lt_length⟩

end Replay

-- Whatever has been done to an object, its keys are distinct, each has the value of its latest
-- insertion unless it has been dropped since, and they come in the order in which they have been
-- added. Equality of two objects asks for keys and values, and not for that order.
theorem insertion_ordered (steps : List (Step Expr)) :
    let o := run steps
    let events := history steps
    o.keys.Nodup ∧
      (∀ key value, o.get? key = some value ↔ Held key value events) ∧
      (∀ key, key ∈ o.keys ↔ ∃! n, AddedAt key n events) ∧
      o.keys.Pairwise (InOrder events) ∧
      (∀ key value, (key, value) ∈ o.entries ↔ o.get? key = some value) ∧
      o.size = o.keys.length ∧ (o.isEmpty ↔ o.keys = []) ∧
      ∀ others : List (Step Expr), o.same (run others) ↔
        ∀ key, Option.Rel (Expr.same · ·) (o.get? key) ((run others).get? key) := by
  intro o events
  have ho : o = replay events := run_eq_replay steps
  have nodup : ∀ steps : List (Step Expr), (run steps).keys.Nodup := fun steps =>
    run_eq_replay steps ▸ nodup_keys_replay (history steps)
  refine ⟨nodup steps, ?get, ?added, ho ▸ pairwise_keys_replay events, ?entries, ?size, ?empty,
    fun others => Expr.same_iff_get? (nodup steps) (nodup others)⟩
  case get =>
    intro key value
    rw [ho, get?_replay]
  case added =>
    intro key
    rw [ho, mem_keys_replay, present_iff]
  case entries => exact fun key value => mem_entries_iff (nodup steps)
  case size => exact (length_map _).symm
  case empty => simp [isEmpty, keys]

example :
    let begun : List (Step Nat) := [.collect [("a", 1), ("b", 2)], .insert "a" 3]
    (run begun).entries = [("a", 3), ("b", 2)] ∧
      (run (begun ++ [.retain fun _ n => n ≠ 3, .insert "a" 4])).entries = [("b", 2), ("a", 4)] := by
  decide

end BindingAlgebra.ObjectLiteral
