/-!
# Entries in insertion order

A finite map from names to values as the list of its entries. An entry that is put again keeps its
place, and a new one comes last, so the order of the list is the order of first insertion.
-/

namespace AuditFields

/-- Named values in insertion order. Look-up is `List.lookup`: the first entry of the name counts. -/
abbrev Entries (α : Type) := List (String × α)

namespace Entries

variable {α : Type}

/-- Gives the name the value: in place if there is an entry of the name, else as the last entry. -/
def put (name : String) (value : α) : Entries α → Entries α
  | [] => [(name, value)]
  | (key, old) :: rest =>
    if key = name then (key, value) :: rest else (key, old) :: put name value rest

def get? (entries : Entries α) (name : String) : Option α :=
  entries.lookup name

def contains (entries : Entries α) (name : String) : Bool :=
  (entries.get? name).isSome

def names (entries : Entries α) : List String :=
  entries.map (·.1)

def values (entries : Entries α) : List α :=
  entries.map (·.2)

/-- The entries put one after the other: of a repeated name the first place and the last value. -/
def ofPairs (pairs : List (String × α)) : Entries α :=
  pairs.foldl (fun entries pair => put pair.1 pair.2 entries) []

/-! ## Looking up after putting -/

@[simp]
theorem get?_nil (name : String) : get? ([] : Entries α) name = none := rfl

theorem get?_cons (key name : String) (value : α) (rest : Entries α) :
    get? ((key, value) :: rest) name = if key = name then some value else get? rest name := by
  simp only [get?, List.lookup_cons]
  by_cases h : key = name
  · simp [h]
  · simp [h, beq_false_of_ne (Ne.symm h)]

@[simp]
theorem get?_put_self (name : String) (value : α) (entries : Entries α) :
    get? (put name value entries) name = some value := by
  induction entries with
  | nil => simp [put, get?_cons]
  | cons entry rest ih =>
    obtain ⟨key, old⟩ := entry
    by_cases h : key = name
    · simp [put, h, get?_cons]
    · simp [put, h, get?_cons, ih]

theorem get?_put_of_ne {name other : String} (h : name ≠ other) (value : α) (entries : Entries α) :
    get? (put name value entries) other = get? entries other := by
  induction entries with
  | nil => simp [put, get?_cons, h]
  | cons entry rest ih =>
    obtain ⟨key, old⟩ := entry
    by_cases hk : key = name
    · subst hk
      simp [put, get?_cons, h]
    · simp only [put, hk, if_false, get?_cons, ih]

end Entries

end AuditFields
