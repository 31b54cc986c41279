/-!
# Tables of names

A table maps names to values. Inserting replaces what a name had, so every name occurs once.
-/

namespace Treewalk

structure Table (α : Type) where
  entries : List (String × α)

namespace Table

def empty : Table α :=
  ⟨[]⟩

instance : Inhabited (Table α) :=
  ⟨empty⟩

def get? (t : Table α) (name : String) : Option α :=
  t.entries.lookup name

def contains (t : Table α) (name : String) : Bool :=
  (t.get? name).isSome

/-- The entries with the value of `name` replaced, or with a new entry at the end. -/
def put (name : String) (value : α) : List (String × α) → List (String × α)
  | [] => [(name, value)]
  | (other, old) :: rest =>
    if name = other then (name, value) :: rest else (other, old) :: put name value rest

def insert (t : Table α) (name : String) (value : α) : Table α :=
  ⟨put name value t.entries⟩

/-- A table of pairs; of two pairs with one name the later counts. -/
def ofList (pairs : List (String × α)) : Table α :=
  pairs.foldl (fun t (name, value) => t.insert name value) empty

/-- The names in the order of their characters. -/
def sortedNames (t : Table α) : List String :=
  (t.entries.map Prod.fst).mergeSort fun a b => !decide (b < a)

@[simp] theorem get?_empty (name : String) : (empty : Table α).get? name = none := rfl

theorem lookup_put (name other : String) (value : α) (entries : List (String × α)) :
    (put name value entries).lookup other =
      if other = name then some value else entries.lookup other := by
  induction entries with
  | nil =>
    by_cases h : other = name
    · simp [put, h]
    · simp [put, List.lookup_cons, beq_false_of_ne h, h]
  | cons entry rest ih =>
    obtain ⟨key, old⟩ := entry
    by_cases hk : name = key
    · subst hk
      by_cases h : other = name
      · simp [put, h]
      · simp [put, List.lookup_cons, beq_false_of_ne h, h]
    · by_cases h : other = key
      · subst h
        simp [put, hk, Ne.symm hk]
      · simp [put, hk, List.lookup_cons, beq_false_of_ne h, ih]

/-- Inserting changes what one name maps to and nothing else. -/
@[simp] theorem get?_insert (t : Table α) (name other : String) (value : α) :
    (t.insert name value).get? other = if other = name then some value else t.get? other :=
  lookup_put name other value t.entries

end Table

end Treewalk
