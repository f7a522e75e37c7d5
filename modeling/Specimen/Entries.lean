/-!
# Named entries

A list of values under names, with two ways of adding one.

* `Entries.insert` keeps the names in ascending byte order, whatever the order of the insertions;
  it serves data whose order carries no meaning (objects read from JSON, indexed declarations).
* `Entries.set` keeps the order of first occurrence; it serves data whose order is shown
  (the fields of a generated object).

Both replace the value of a name that is already present, so a name occurs at most once, and both
answer look-ups in the same way: `find?_insert` and `find?_set`.
-/

namespace Specimen

/-- The bytes of a name in UTF-8. -/
def nameBytes (name : String) : List UInt8 :=
  name.toUTF8.data.toList

/-- `a` comes before `b` in the order of their bytes. -/
def namePrecedes (a b : String) : Bool :=
  decide (nameBytes a < nameBytes b)

/-- Values under names, in the order in which they are shown. -/
abbrev Entries (α : Type) := List (String × α)

namespace Entries

variable {α : Type}

/-- The value under `name`. -/
def find? (name : String) : List (String × α) → Option α
  | [] => none
  | (other, value) :: rest => if other = name then some value else find? name rest

/-- The names, in order. -/
def names (entries : List (String × α)) : List String :=
  entries.map Prod.fst

/-- Puts `value` under `name` at the place of the name in byte order. -/
def insert (name : String) (value : α) : List (String × α) → List (String × α)
  | [] => [(name, value)]
  | (other, kept) :: rest =>
      if other = name then (name, value) :: rest
      else if namePrecedes name other then (name, value) :: (other, kept) :: rest
      else (other, kept) :: insert name value rest

/-- Puts `value` under `name`: at the place of the name if it is present, else at the end. -/
def set (name : String) (value : α) : List (String × α) → List (String × α)
  | [] => [(name, value)]
  | (other, kept) :: rest =>
      if other = name then (name, value) :: rest
      else (other, kept) :: set name value rest

/-- Takes the value under `name` away. -/
def erase (name : String) (entries : List (String × α)) : List (String × α) :=
  entries.filter fun entry => entry.1 != name

/-- The entries of a list in byte order; the last of several values under a name stays. -/
def sortByName (entries : List (String × α)) : List (String × α) :=
  entries.foldl (fun sorted entry => insert entry.1 entry.2 sorted) []

/-- The entries of a list in order of first occurrence; the last of several values stays. -/
def collapse (entries : List (String × α)) : List (String × α) :=
  entries.foldl (fun kept entry => set entry.1 entry.2 kept) []

theorem find?_insert
    (name other : String) (value : α) (entries : List (String × α)) :
    find? other (insert name value entries)
      = if name = other then some value else find? other entries := by
  induction entries with
  | nil => simp [insert, find?]
  | cons entry rest ih =>
      obtain ⟨key, kept⟩ := entry
      by_cases hkey : key = name
      · subst hkey
        by_cases hother : key = other <;> simp [insert, find?, hother]
      · by_cases hbefore : namePrecedes name key
        · simp [insert, find?, hkey, hbefore]
        · by_cases hother : key = other
          · subst hother
            simp [insert, find?, hkey, hbefore, Ne.symm hkey]
          · simp [insert, find?, hkey, hbefore, hother, ih]

theorem find?_set
    (name other : String) (value : α) (entries : List (String × α)) :
    find? other (set name value entries)
      = if name = other then some value else find? other entries := by
  induction entries with
  | nil => simp [set, find?]
  | cons entry rest ih =>
      obtain ⟨key, kept⟩ := entry
      by_cases hkey : key = name
      · subst hkey
        by_cases hother : key = other <;> simp [set, find?, hother]
      · by_cases hother : key = other
        · subst hother
          simp [set, find?, hkey, Ne.symm hkey]
        · simp [set, find?, hkey, hother, ih]

theorem find?_erase (name other : String) (entries : List (String × α)) :
    find? other (erase name entries) = if name = other then none else find? other entries := by
  induction entries with
  | nil => simp [erase, find?]
  | cons entry rest ih =>
      obtain ⟨key, kept⟩ := entry
      by_cases hkey : key = name
      · subst hkey
        by_cases hother : key = other <;> simp_all [erase, find?]
      · by_cases hother : key = other
        · subst hother
          simp [erase, find?, hkey, Ne.symm hkey]
        · simp_all [erase, find?]

end Entries

end Specimen
