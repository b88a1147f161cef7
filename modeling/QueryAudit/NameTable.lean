/-!
# Tables of names

A table lists named entries in the order in which the names first arrived. A name that arrives
again takes the new content and keeps its first place, so every table built by `insert` holds each
name once.
-/

namespace QueryAudit

/-- A name of the query language: a letter or underscore, then letters, digits and underscores. -/
abbrev Name := String

/-- Entries under names, in order of first arrival. -/
abbrev NameTable (α : Type) := List (Name × α)

namespace NameTable

variable {α β : Type}

def find? : NameTable α → Name → Option α
  | [], _ => none
  | (key, entry) :: rest, name => if key = name then some entry else find? rest name

def has (table : NameTable α) (name : Name) : Bool := (find? table name).isSome

def names (table : NameTable α) : List Name := table.map Prod.fst

def entries (table : NameTable α) : List α := table.map Prod.snd

/-- Put an entry under a name: in the place of the old one, or at the end. -/
def insert : NameTable α → Name → α → NameTable α
  | [], name, entry => [(name, entry)]
  | (key, old) :: rest, name, entry =>
      if key = name then (key, entry) :: rest else (key, old) :: insert rest name entry

/-- Put an entry under a name that has none yet; a name that has one keeps it. -/
def insertNew (table : NameTable α) (name : Name) (entry : α) : NameTable α :=
  if has table name then table else table ++ [(name, entry)]

/-- Change the entry under a name, if there is one. -/
def adjust : NameTable α → Name → (α → α) → NameTable α
  | [], _, _ => []
  | (key, entry) :: rest, name, change =>
      if key = name then (key, change entry) :: rest else (key, entry) :: adjust rest name change

def remove (table : NameTable α) (name : Name) : NameTable α :=
  table.filter fun entry => entry.1 ≠ name

/-- All entries of the second table put into the first, one after the other. -/
def merge (table more : NameTable α) : NameTable α :=
  more.foldl (fun acc entry => insert acc entry.1 entry.2) table

def ofList (name : α → Name) (items : List α) : NameTable α :=
  items.foldl (fun acc item => insert acc (name item) item) []

theorem find?_insert (table : NameTable α) (name other : Name) (entry : α) :
    find? (insert table name entry) other =
      if name = other then some entry else find? table other := by
  induction table with
  | nil => simp [insert, find?]
  | cons head rest ih =>
      obtain ⟨key, old⟩ := head
      by_cases hkey : key = name
      · subst hkey
        by_cases hother : key = other <;> simp [insert, find?, hother]
      · by_cases hother : key = other
        · subst hother
          simp [insert, find?, hkey, Ne.symm hkey]
        · simp [insert, find?, hkey, hother, ih]

theorem mem_names_insert (table : NameTable α) (name other : Name) (entry : α) :
    other ∈ names (insert table name entry) ↔ other = name ∨ other ∈ names table := by
  induction table with
  | nil => simp [insert, names]
  | cons head rest ih =>
      obtain ⟨key, old⟩ := head
      by_cases hkey : key = name
      · subst hkey
        simp [insert, names]
      · simp only [names, List.map_cons, List.mem_cons] at ih ⊢
        simp only [insert, hkey, if_false, List.map_cons, List.mem_cons]
        rw [ih]
        constructor
        · rintro (h | h | h) <;> simp [h]
        · rintro (h | h | h) <;> simp [h]

theorem find?_isSome_iff_mem_names (table : NameTable α) (name : Name) :
    (find? table name).isSome ↔ name ∈ names table := by
  induction table with
  | nil => simp [find?, names]
  | cons head rest ih =>
      obtain ⟨key, old⟩ := head
      by_cases hkey : key = name
      · simp [find?, names, hkey]
      · simp only [find?, hkey, if_false, ih, names, List.map_cons, List.mem_cons]
        constructor
        · exact Or.inr
        · rintro (h | h)
          · exact absurd h.symm hkey
          · exact h

end NameTable

end QueryAudit
