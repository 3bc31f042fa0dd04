namespace BindingAlgebra

-- Attributes in the order of their insertion. Objects built by `insert` and `ofEntries` never
-- repeat a key.
structure ObjectLiteral (ε : Type) where
  entries : List (String × ε)

namespace ObjectLiteral

def empty : ObjectLiteral ε := ⟨[]⟩

-- The first value under a key.
def valueAt? (key : String) : List (String × ε) → Option ε
  | []                => none
  | (k, v) :: entries => if k = key then some v else valueAt? key entries

-- The first value under a key, and the entries without it.
def takeValue? (key : String) : List (String × ε) → Option (ε × List (String × ε))
  | [] => none
  | (k, v) :: entries =>
    if k = key then some (v, entries)
    else (takeValue? key entries).map fun (w, rest) => (w, (k, v) :: rest)

def insertEntry (key : String) (value : ε) : List (String × ε) → List (String × ε)
  | [] => [(key, value)]
  | (k, v) :: entries =>
    if k = key then (k, value) :: entries else (k, v) :: insertEntry key value entries

-- A value under a present key takes the place of the old one, any other comes last.
def insert (o : ObjectLiteral ε) (key : String) (value : ε) : ObjectLiteral ε :=
  ⟨insertEntry key value o.entries⟩

def ofEntries (entries : List (String × ε)) : ObjectLiteral ε :=
  entries.foldl (fun o (key, value) => o.insert key value) empty

def get? (o : ObjectLiteral ε) (key : String) : Option ε :=
  valueAt? key o.entries

def filter (o : ObjectLiteral ε) (keep : String → ε → Bool) : ObjectLiteral ε :=
  ⟨o.entries.filter fun (key, value) => keep key value⟩

def keys (o : ObjectLiteral ε) : List String :=
  o.entries.map Prod.fst

def size (o : ObjectLiteral ε) : Nat :=
  o.entries.length

def isEmpty (o : ObjectLiteral ε) : Bool :=
  o.entries.isEmpty

theorem valueAt?_insertEntry (key k : String) (value : ε) (entries : List (String × ε)) :
    valueAt? k (insertEntry key value entries) =
      if key = k then some value else valueAt? k entries := by
  induction entries with
  | nil => rfl
  | cons entry entries ih =>
    by_cases h : entry.1 = key
    case pos => by_cases hk : key = k <;> simp [insertEntry, valueAt?, h, hk]
    case neg =>
      by_cases hk : entry.1 = k
      case pos =>
        have h' : key ≠ k := fun e => h (hk.trans e.symm)
        simp [insertEntry, valueAt?, hk, h', h'.symm]
      case neg => simp [insertEntry, valueAt?, h, hk, ih]

theorem map_fst_insertEntry (key : String) (value : ε) (entries : List (String × ε)) :
    (insertEntry key value entries).map Prod.fst =
      if key ∈ entries.map Prod.fst then entries.map Prod.fst
      else entries.map Prod.fst ++ [key] := by
  induction entries with
  | nil => rfl
  | cons entry entries ih =>
    by_cases h : entry.1 = key
    case pos => simp [insertEntry, h]
    case neg =>
      have h' : key ≠ entry.1 := Ne.symm h
      by_cases hm : key ∈ entries.map Prod.fst <;> simp_all [insertEntry]

theorem get?_insert (o : ObjectLiteral ε) (key k : String) (value : ε) :
    (o.insert key value).get? k = if key = k then some value else o.get? k :=
  valueAt?_insertEntry ..

theorem keys_insert (o : ObjectLiteral ε) (key : String) (value : ε) :
    (o.insert key value).keys = if key ∈ o.keys then o.keys else o.keys ++ [key] :=
  map_fst_insertEntry ..

theorem nodup_keys_insert {o : ObjectLiteral ε} (h : o.keys.Nodup) (key : String) (value : ε) :
    (o.insert key value).keys.Nodup := by
  rw [keys_insert]
  split
  case isTrue => exact h
  case isFalse hk =>
    refine List.nodup_append.mpr ⟨h, by simp, ?_⟩
    intro k hk₁ k' hk₂ he
    simp_all

end ObjectLiteral
end BindingAlgebra
