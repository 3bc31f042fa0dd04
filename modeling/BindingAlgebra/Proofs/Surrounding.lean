import BindingAlgebra.Binding.Text

namespace BindingAlgebra

open List BindingText Quoted

-- Whether a text is made from another one by putting it between two that are always the same.
def Surrounds (k : String → String) : Prop :=
  ∃ before after, ∀ s, k s = before ++ s ++ after

namespace Surrounds

variable {j k : String → String} {ss ts : List String}

theorem refl : Surrounds fun s => s :=
  ⟨"", "", by simp⟩

theorem comp (hj : Surrounds j) (hk : Surrounds k) : Surrounds fun s => j (k s) := by
  obtain ⟨before, after, hj⟩ := hj
  obtain ⟨before', after', hk⟩ := hk
  exact ⟨before ++ before', after' ++ after, fun s => by simp only [hj, hk, String.append_assoc]⟩

theorem append (hk : Surrounds k) (t : String) : Surrounds fun s => k s ++ t := by
  obtain ⟨before, after, h⟩ := hk
  exact ⟨before, after ++ t, fun s => by simp only [h, String.append_assoc]⟩

theorem prepend (t : String) (hk : Surrounds k) : Surrounds fun s => t ++ k s := by
  obtain ⟨before, after, h⟩ := hk
  exact ⟨t ++ before, after, fun s => by simp only [h, String.append_assoc]⟩

theorem around (before after : String) (hk : Surrounds k) :
    Surrounds fun s => before ++ k s ++ after :=
  (prepend before hk).append after

theorem braced (hk : Surrounds k) : Surrounds fun s => braced (k s) :=
  hk.around "\x7b" "\x7d"

theorem entry (key : String) (hk : Surrounds k) : Surrounds fun s => entry key (k s) :=
  hk.prepend (key ++ ": ")

theorem wrap (o : RenderOptions) (hk : Surrounds k) : Surrounds fun s => wrap o (k s) := by
  unfold BindingText.wrap
  split
  case isTrue  => exact hk
  case isFalse => exact hk.around "\x7b= " "\x7d"

theorem embed (o : RenderOptions) (hk : Surrounds k) : Surrounds fun s => embed o (k s) := by
  unfold BindingText.embed
  split
  case isTrue  => exact hk.prepend (.singleton o.separator)
  case isFalse => exact hk

theorem asOperand (e : Expr) (hk : Surrounds k) : Surrounds fun s => asOperand e (k s) := by
  unfold BindingText.asOperand
  split
  case isTrue  => exact hk.around "(" ")"
  case isFalse => exact hk

theorem intercalate (sep : String) (ss ts : List String) (hk : Surrounds k) :
    Surrounds fun s => sep.intercalate (ss ++ k s :: ts) := by
  induction ss
  case nil =>
    cases ts
    case nil => simpa using hk
    case cons =>
      simp only [nil_append, String.intercalate_cons_of_ne_nil (cons_ne_nil _ _)]
      exact (hk.append sep).append _
  case cons t ss ih =>
    have hn : ∀ s, ss ++ k s :: ts ≠ [] := by simp
    simp only [cons_append, String.intercalate_cons_of_ne_nil (hn _)]
    exact ih.prepend (t ++ sep)

theorem listed (ss ts : List String) (hk : Surrounds k) :
    Surrounds fun s => listed (ss ++ k s :: ts) :=
  intercalate ", " ss ts hk

end Surrounds

-- A part of a formatter that is made from a text.
inductive BindingText.Part.Surrounds : (String → Part) → Prop
  | plain {k : String → String} (hk : BindingAlgebra.Surrounds k) : Surrounds fun s => .plain (k s)
  | composite {k : String → String} (hk : BindingAlgebra.Surrounds k) :
      Surrounds fun s => .composite (k s)

namespace Surrounds

variable {k : String → String} {part : String → Part} (n : String)

theorem formatterText (ps qs : List Part) (h : Part.Surrounds part) :
    Surrounds fun s => formatterText n (ps ++ part s :: qs) := by
  have ht : Surrounds fun s => (part s).text := by
    cases h
    case plain hk     => exact hk.braced
    case composite hk => exact hk
  have several : Surrounds fun s =>
      BindingText.braced ("parts: [" ++ BindingText.listed ((ps ++ part s :: qs).map Part.text) ++
        "], " ++ BindingText.entry "formatter" (quote n)) := by
    simp only [map_append, map_cons]
    exact (((ht.listed _ _).around "parts: [" "], ").append _).braced
  cases ps
  case cons p ps =>
    cases p
    case plain     => cases ps <;> exact several
    case composite => exact several
  case nil =>
    cases h
    case composite => exact several
    case plain hk =>
      cases qs
      case nil  => exact ((hk.append ", ").append _).braced
      case cons => exact several

theorem compositePart (ps qs options : List String) (hk : Surrounds k) :
    Surrounds fun s => compositeText n (ps ++ k s :: qs) options := by
  have several (tail : String) : Surrounds fun s =>
      BindingText.braced ("mode:'TwoWay', parts:[" ++
        ",".intercalate ((ps ++ k s :: qs).map BindingText.braced) ++ "], " ++ tail) := by
    simp only [map_append, map_cons]
    exact (((hk.braced.intercalate "," _ _).around "mode:'TwoWay', parts:[" "], ").append _).braced
  cases ps
  case cons p ps => cases ps <;> exact several _
  case nil =>
    cases qs
    case nil  => exact ((hk.append ", ").append _).braced
    case cons => exact several _

theorem compositeOption (parts ss ts : List String) (hk : Surrounds k) :
    Surrounds fun s => compositeText n parts (ss ++ k s :: ts) := by
  have tail : Surrounds fun s =>
      BindingText.listed (BindingText.entry "type" (quote n) :: (ss ++ k s :: ts)) :=
    hk.listed (_ :: ss) ts
  rcases parts with _ | ⟨part, _ | _⟩
  case cons.nil => exact (tail.prepend (part ++ ", ")).braced
  all_goals exact (tail.prepend _).braced

end Surrounds

-- A text that is put together from those of a list, each of them between the others.
def Joins (j : List String → String) : Prop :=
  ∀ ss ts k, Surrounds k → Surrounds fun s => j (ss ++ k s :: ts)

-- A list that is made by putting an entry, if there is a text for it, between others.
def Splices (l : Option String → List String) : Prop :=
  ∃ key ss ts, ∀ text, l text = ss ++ entries key text ++ ts

namespace Splices

variable {l : Option String → List String}

theorem entries (key : String) : Splices (entries key) :=
  ⟨key, [], [], fun _ => by simp⟩

theorem append (hl : Splices l) (us : List String) : Splices fun text => l text ++ us := by
  obtain ⟨key, ss, ts, hl⟩ := hl
  exact ⟨key, ss, ts ++ us, fun _ => by simp only [hl, append_assoc]⟩

theorem prepend (us : List String) (hl : Splices l) : Splices fun text => us ++ l text := by
  obtain ⟨key, ss, ts, hl⟩ := hl
  exact ⟨key, us ++ ss, ts, fun _ => by simp only [hl, append_assoc]⟩

end Splices

end BindingAlgebra
