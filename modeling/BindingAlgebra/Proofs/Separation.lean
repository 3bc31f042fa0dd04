import Mathlib.Data.List.Basic

namespace BindingAlgebra

open List

-- Texts that are put together of parts which can be told from each other, whatever follows them.

theorem intercalate_cons_eq_append (sep xs : List α) (xss : List (List α)) :
    sep.intercalate (xs :: xss) = xs ++ xss.flatMap (sep ++ ·) := by
  induction xss generalizing xs
  case nil => simp
  case cons ys xss ih => simp [intercalate_cons_cons, ih]

section Runs

variable {r r' : List α}

-- A run of symbols of some sort ends where the text goes on with something else.
theorem run_append_inj {p : α → Bool} {w w' : List α} (hw : ∀ c ∈ w, p c)
    (hw' : ∀ c ∈ w', p c) (hr : ∀ c ∈ r.head?, ¬p c) (hr' : ∀ c ∈ r'.head?, ¬p c)
    (h : w ++ r = w' ++ r') : w = w' ∧ r = r' := by
  have stop : ∀ {r : List α}, (∀ c ∈ r.head?, ¬p c) → r.takeWhile p = [] := by
    intro r hr
    cases r <;> simp_all
  have ht := congrArg (takeWhile p) h
  rw [takeWhile_append_of_pos hw, takeWhile_append_of_pos hw', stop hr, stop hr', append_nil,
    append_nil] at ht
  exact ⟨ht, append_cancel_left (ht ▸ h)⟩

theorem delimited_append_inj [DecidableEq α] {d : α} {w w' : List α} (hw : d ∉ w) (hw' : d ∉ w')
    (h : w ++ d :: r = w' ++ d :: r') : w = w' ∧ r = r' := by
  have hd : ∀ {w : List α}, d ∉ w → ∀ c ∈ w, c ≠ d := fun hw c hc he => hw (he ▸ hc)
  have ⟨ht, hs⟩ := run_append_inj (p := (· ≠ d)) (by simpa using hd hw) (by simpa using hd hw')
    (by simp) (by simp) h
  exact ⟨ht, tail_eq_of_cons_eq hs⟩

end Runs

section Lists

variable {es es' : List α} {f g : α → List β} {sep close : β} {r r' : List β}
  (stop : List β → Prop)

-- If elements can be told from each other, so can lists with a separator in front of each element.
theorem separated_inj (hs : ∀ ts, stop (sep :: ts)) (hr : stop r) (hr' : stop r')
    (hn : r.head? ≠ some sep) (hn' : r'.head? ≠ some sep)
    (h : ∀ e ∈ es, ∀ e' ∈ es', ∀ {s s'}, stop s → stop s' → f e ++ s = g e' ++ s' →
      e = e' ∧ s = s')
    (he : es.flatMap (sep :: f ·) ++ r = es'.flatMap (sep :: g ·) ++ r') : es = es' ∧ r = r' := by
  induction es generalizing es' <;> cases es'
  case nil.nil  => exact ⟨rfl, he⟩
  case nil.cons => simp [show r = _ from he] at hn
  case cons.nil => simp [← show _ = r' from he] at hn'
  case cons.cons e es ih e' es' =>
    have stops : ∀ {f : α → List β} {r} (es : List α), stop r →
        stop (es.flatMap (sep :: f ·) ++ r) := by
      intro f r es hr
      cases es
      case nil  => exact hr
      case cons => exact hs _
    simp only [flatMap_cons, cons_append, cons.injEq, true_and, append_assoc] at he
    have ⟨hee, he⟩ := h e (by simp) e' (by simp) (stops es hr) (stops es' hr') he
    have ⟨hes, hr⟩ := ih (fun e he e' he' => h e (by simp [he]) e' (by simp [he'])) he
    exact ⟨by rw [hee, hes], hr⟩

-- Lists that end at the same closing symbol, which is no beginning of an element.
theorem listed_inj (hs : ∀ ts, stop (sep :: ts)) (hc : ∀ ts, stop (close :: ts))
    (hn : close ≠ sep) (hf : ∀ e ∈ es, ∀ s s', close :: s ≠ f e ++ s')
    (hg : ∀ e ∈ es', ∀ s s', close :: s ≠ g e ++ s')
    (h : ∀ e ∈ es, ∀ e' ∈ es', ∀ {s s'}, stop s → stop s' → f e ++ s = g e' ++ s' →
      e = e' ∧ s = s')
    (he : [sep].intercalate (es.map f) ++ close :: r =
      [sep].intercalate (es'.map g) ++ close :: r') : es = es' ∧ r = r' := by
  have stops : ∀ (f : α → List β) (es : List α) (r : List β),
      stop (es.flatMap (sep :: f ·) ++ close :: r) := by
    intro f es r
    cases es
    case nil  => exact hc _
    case cons => exact hs _
  cases es <;> cases es' <;>
    simp only [map_nil, map_cons, intercalate_nil, intercalate_cons_eq_append, flatMap_map,
      nil_append, append_assoc, cons_append] at he
  case nil.nil => exact ⟨rfl, (cons.inj he).right⟩
  case nil.cons e es => exact (hg e mem_cons_self _ _ he).elim
  case cons.nil e es => exact (hf e mem_cons_self _ _ he.symm).elim
  case cons.cons e es e' es' =>
    have ⟨hee, he⟩ := h e mem_cons_self e' mem_cons_self (stops f es r) (stops g es' r') he
    have ⟨hes, he⟩ := separated_inj stop hs (hc _) (hc _) (by simpa using hn) (by simpa using hn)
      (fun e hm e' hm' _ _ => h e (.tail _ hm) e' (.tail _ hm')) he
    exact ⟨by rw [hee, hes], (cons.inj he).right⟩

end Lists
end BindingAlgebra
