import QueryAudit.NameTable

/-!
# Laws of tables

What is found after a table has been changed, and tables in which every entry stands under its own
name.
-/

namespace QueryAudit.NameTable

variable {α : Type}

/-- Every entry stands under its own name, and no name comes twice. -/
structure Keyed (name : α → Name) (table : NameTable α) : Prop where
  nodup : (names table).Nodup
  own : ∀ entry ∈ table, entry.1 = name entry.2

theorem Keyed.nil (name : α → Name) : Keyed name [] := ⟨List.nodup_nil, by simp⟩

theorem mem_insert {table : NameTable α} {name : Name} {entry : α} {other : Name × α}
    (h : other ∈ insert table name entry) : other = (name, entry) ∨ other ∈ table := by
  induction table with
  | nil => exact .inl (List.mem_singleton.mp h)
  | cons head rest ih =>
      obtain ⟨key, old⟩ := head
      by_cases hkey : key = name
      · subst hkey
        simp only [insert, if_true, List.mem_cons] at h
        rcases h with rfl | h
        · exact .inl rfl
        · exact .inr (List.mem_cons_of_mem _ h)
      · simp only [insert, hkey, if_false, List.mem_cons] at h
        rcases h with rfl | h
        · exact .inr List.mem_cons_self
        · exact (ih h).imp id (List.mem_cons_of_mem _)

theorem nodup_names_insert {table : NameTable α} (name : Name) (entry : α)
    (h : (names table).Nodup) : (names (insert table name entry)).Nodup := by
  induction table with
  | nil => simp [insert, names]
  | cons head rest ih =>
      obtain ⟨key, old⟩ := head
      have hcons : key ∉ names rest ∧ (names rest).Nodup := List.nodup_cons.mp h
      by_cases hkey : key = name
      · simp only [insert, hkey, if_true]
        exact hkey ▸ h
      · simp only [insert, hkey, if_false]
        refine List.nodup_cons.mpr ⟨?_, ih hcons.2⟩
        have hmem := mem_names_insert rest name key entry
        intro habsent
        rcases hmem.mp habsent with heq | hold
        · exact hkey heq
        · exact hcons.1 hold

theorem Keyed.insert {name : α → Name} {table : NameTable α} (h : Keyed name table) (entry : α) :
    Keyed name (table.insert (name entry) entry) := by
  refine ⟨nodup_names_insert _ _ h.nodup, fun other hother => ?_⟩
  rcases mem_insert hother with rfl | hold
  · rfl
  · exact h.own other hold

theorem Keyed.merge {name : α → Name} {table more : NameTable α} (h : Keyed name table)
    (hmore : Keyed name more) : Keyed name (table.merge more) := by
  have hown := hmore.own
  clear hmore
  unfold NameTable.merge
  induction more generalizing table with
  | nil => exact h
  | cons entry rest ih =>
      have hinsert := h.insert entry.2
      rw [← hown entry List.mem_cons_self] at hinsert
      exact ih hinsert fun other hother => hown other (List.mem_cons_of_mem _ hother)

theorem Keyed.ofList (name : α → Name) (items : List α) : Keyed name (ofList name items) := by
  have hfold : ∀ (table : NameTable α), Keyed name table →
      Keyed name (items.foldl (fun acc item => acc.insert (name item) item) table) := by
    induction items with
    | nil => exact fun _ h => h
    | cons item rest ih => exact fun table h => ih _ (h.insert item)
  exact hfold [] (Keyed.nil name)

/-- In such a table the entry of a name is found under it. -/
theorem Keyed.find?_of_mem {name : α → Name} {table : NameTable α} (h : Keyed name table)
    {entry : α} (hentry : entry ∈ entries table) : find? table (name entry) = some entry := by
  induction table with
  | nil => simp [entries] at hentry
  | cons head rest ih =>
      obtain ⟨key, first⟩ := head
      have hkey : key = name first := h.own (key, first) List.mem_cons_self
      have hnodup : key ∉ names rest ∧ (names rest).Nodup := List.nodup_cons.mp h.nodup
      have hrest : Keyed name rest :=
        ⟨hnodup.2, fun other hother => h.own other (List.mem_cons_of_mem _ hother)⟩
      simp only [entries, List.map_cons, List.mem_cons] at hentry
      rcases hentry with rfl | hentry
      · simp [find?, hkey]
      · have hne : key ≠ name entry := by
          intro heq
          obtain ⟨pair, hpair, rfl⟩ := List.mem_map.mp hentry
          have hmem : pair.1 ∈ names rest := List.mem_map_of_mem hpair
          rw [hrest.own pair hpair, ← heq] at hmem
          exact hnodup.1 hmem
        simp only [find?, hne, if_false]
        exact ih hrest hentry

theorem find?_append (first second : NameTable α) (name : Name) :
    find? (first ++ second) name = (find? first name).or (find? second name) := by
  induction first with
  | nil => simp [find?]
  | cons head rest ih =>
      obtain ⟨key, entry⟩ := head
      by_cases hkey : key = name <;> simp [find?, hkey, ih]

theorem find?_insertNew {table : NameTable α} {name : Name} {found : α}
    (h : find? table name = some found) (other : Name) (entry : α) :
    find? (insertNew table other entry) name = some found := by
  unfold insertNew
  split
  · exact h
  · simp [find?_append, h]

theorem find?_foldl_insertNew {table : NameTable α} {name : Name} {found : α}
    (h : find? table name = some found) (key : α → Name) (more : List α) :
    find? (more.foldl (fun acc item => acc.insertNew (key item) item) table) name =
      some found := by
  induction more generalizing table with
  | nil => exact h
  | cons first rest ih => exact ih (find?_insertNew h (key first) first)

theorem find?_map (table : NameTable α) (change : Name → α → α) (name : Name) :
    find? (table.map fun entry => (entry.1, change entry.1 entry.2)) name =
      (find? table name).map (change name) := by
  induction table with
  | nil => rfl
  | cons head rest ih =>
      obtain ⟨key, entry⟩ := head
      by_cases hkey : key = name
      · simp [find?, hkey]
      · simp [find?, hkey, ih]

theorem find?_adjust (table : NameTable α) (name other : Name) (change : α → α) :
    find? (adjust table name change) other =
      if name = other then (find? table other).map change else find? table other := by
  induction table with
  | nil => simp [adjust, find?]
  | cons head rest ih =>
      obtain ⟨key, entry⟩ := head
      by_cases hkey : key = name
      · subst hkey
        by_cases hother : key = other <;> simp [adjust, find?, hother]
      · by_cases hother : key = other
        · subst hother
          simp [adjust, find?, hkey, Ne.symm hkey]
        · simp [adjust, find?, hkey, hother, ih]

theorem mem_of_find? {table : NameTable α} {name : Name} {entry : α}
    (h : find? table name = some entry) : (name, entry) ∈ table := by
  induction table with
  | nil => cases h
  | cons head rest ih =>
      obtain ⟨key, first⟩ := head
      by_cases hkey : key = name
      · simp only [find?, hkey, if_true, Option.some.injEq] at h
        rw [hkey, h]
        exact List.mem_cons_self
      · simp only [find?, hkey, if_false] at h
        exact List.mem_cons_of_mem _ (ih h)

theorem find?_of_mem {table : NameTable α} (h : (names table).Nodup) {name : Name} {entry : α}
    (hmem : (name, entry) ∈ table) : find? table name = some entry := by
  induction table with
  | nil => cases hmem
  | cons head rest ih =>
      obtain ⟨key, first⟩ := head
      obtain ⟨hfresh, hrest⟩ := List.nodup_cons.mp h
      rcases List.mem_cons.mp hmem with heq | hlater
      · cases heq
        simp [find?]
      · have hmem : name ∈ names rest := List.mem_map_of_mem hlater
        have hne : key ≠ name := fun heq => hfresh (heq ▸ hmem)
        simp only [find?, hne, if_false]
        exact ih hrest hlater

theorem find?_eq_of_perm {first second : NameTable α} (h : first.Perm second)
    (hnodup : (names first).Nodup) (name : Name) : find? first name = find? second name := by
  have hsecond : (names second).Nodup := (h.map Prod.fst).nodup_iff.mp hnodup
  apply Option.ext
  intro entry
  constructor
  · exact fun hfound => find?_of_mem hsecond (h.mem_iff.mp (mem_of_find? hfound))
  · exact fun hfound => find?_of_mem hnodup (h.mem_iff.mpr (mem_of_find? hfound))

/-- A name that comes and goes leaves no trace. -/
theorem remove_insert {table : NameTable α} {name : Name} (h : find? table name = none)
    (entry : α) : (table.insert name entry).remove name = table := by
  induction table with
  | nil => simp [insert, remove]
  | cons head rest ih =>
      obtain ⟨key, old⟩ := head
      by_cases hkey : key = name
      · simp [find?, hkey] at h
      · simp only [find?, hkey, if_false] at h
        have hrest := ih h
        simpa [insert, remove, hkey] using hrest

theorem mem_entries_of_find? {table : NameTable α} {name : Name} {entry : α}
    (h : find? table name = some entry) : entry ∈ entries table :=
  List.mem_map_of_mem (mem_of_find? h)

theorem mem_entries_insert {table : NameTable α} {name : Name} {entry other : α}
    (h : other ∈ entries (insert table name entry)) : other = entry ∨ other ∈ entries table := by
  obtain ⟨pair, hpair, rfl⟩ := List.mem_map.mp h
  rcases mem_insert hpair with rfl | hold
  · exact .inl rfl
  · exact .inr (List.mem_map_of_mem hold)

theorem mem_entries_adjust {table : NameTable α} {name : Name} {change : α → α} {other : α}
    (h : other ∈ entries (adjust table name change)) :
    other ∈ entries table ∨ ∃ old ∈ entries table, other = change old := by
  induction table with
  | nil => exact .inl h
  | cons head rest ih =>
      obtain ⟨key, first⟩ := head
      by_cases hkey : key = name
      · simp only [adjust, hkey, if_true, entries, List.map_cons, List.mem_cons] at h ⊢
        rcases h with rfl | h
        · exact .inr ⟨first, .inl rfl, rfl⟩
        · exact .inl (.inr h)
      · simp only [adjust, hkey, if_false, entries, List.map_cons, List.mem_cons] at h ⊢
        rcases h with rfl | h
        · exact .inl (.inl rfl)
        · rcases ih h with hold | ⟨old, hold, rfl⟩
          · exact .inl (.inr hold)
          · exact .inr ⟨old, .inr hold, rfl⟩

theorem mem_entries_insertNew {table : NameTable α} {name : Name} {entry other : α}
    (h : other ∈ entries (insertNew table name entry)) :
    other = entry ∨ other ∈ entries table := by
  unfold insertNew at h
  split at h
  · exact .inr h
  · simp only [entries, List.map_append, List.mem_append, List.map_cons, List.map_nil,
      List.mem_singleton] at h
    exact h.symm

theorem mem_entries_foldl_insertNew {key : α → Name} {more : List α} {table : NameTable α}
    {other : α}
    (h : other ∈ entries (more.foldl (fun acc item => acc.insertNew (key item) item) table)) :
    other ∈ more ∨ other ∈ entries table := by
  induction more generalizing table with
  | nil => exact .inr h
  | cons first rest ih =>
      rcases ih h with hrest | hold
      · exact .inl (List.mem_cons_of_mem _ hrest)
      · rcases mem_entries_insertNew hold with rfl | htable
        · exact .inl List.mem_cons_self
        · exact .inr htable

/-! ## Names that are present -/

theorem mem_names_foldl_insert (more table : NameTable α) (name : Name) :
    name ∈ names (more.foldl (fun acc entry => insert acc entry.1 entry.2) table) ↔
      name ∈ names table ∨ name ∈ names more := by
  induction more generalizing table with
  | nil => simp [names]
  | cons entry rest ih =>
      rw [List.foldl_cons, ih, mem_names_insert]
      simp only [names, List.map_cons, List.mem_cons]
      rw [or_comm (a := name = entry.1), or_assoc]

theorem mem_names_merge {table more : NameTable α} {name : Name} :
    name ∈ names (merge table more) ↔ name ∈ names table ∨ name ∈ names more :=
  mem_names_foldl_insert more table name

/-- A name whose entry is changed is present as before. -/
theorem names_adjust (table : NameTable α) (name : Name) (change : α → α) :
    names (adjust table name change) = names table := by
  induction table with
  | nil => rfl
  | cons head rest ih =>
      obtain ⟨key, entry⟩ := head
      by_cases hkey : key = name
      · simp [adjust, names, hkey]
      · simp only [adjust, hkey, if_false, names, List.map_cons, List.cons.injEq, true_and]
        exact ih

theorem find?_insertNew_eq (table : NameTable α) (name other : Name) (entry : α) :
    find? (insertNew table name entry) other =
      (find? table other).or (if name = other then some entry else none) := by
  unfold insertNew
  cases hhas : has table name with
  | false => simp [find?_append, find?]
  | true =>
      by_cases hname : name = other
      · subst hname
        obtain ⟨found, hfound⟩ := Option.isSome_iff_exists.mp hhas
        simp [hfound]
      · simp [hname]

/-- Entries that are put in only where their name is free are found where nothing was found before.
-/
theorem find?_foldl_insertNew_eq (key : α → Name) (more : List α) (table : NameTable α)
    (name : Name) :
    find? (more.foldl (fun acc item => acc.insertNew (key item) item) table) name =
      (find? table name).or (more.find? fun item => key item = name) := by
  induction more generalizing table with
  | nil => simp
  | cons first rest ih =>
      rw [List.foldl_cons, ih, find?_insertNew_eq, Option.or_assoc]
      by_cases hfirst : key first = name <;> simp [hfirst]

/-! ## Tables that stay keyed -/

theorem Keyed.name_of_find? {name : α → Name} {table : NameTable α} (h : Keyed name table)
    {key : Name} {entry : α} (hfound : find? table key = some entry) : name entry = key :=
  (h.own (key, entry) (mem_of_find? hfound)).symm

theorem Keyed.mem_entries_iff {name : α → Name} {table : NameTable α} (h : Keyed name table)
    {entry : α} : entry ∈ entries table ↔ find? table (name entry) = some entry :=
  ⟨h.find?_of_mem, mem_entries_of_find?⟩

theorem Keyed.map {name : α → Name} {table : NameTable α} (h : Keyed name table)
    {change : Name → α → α} (hchange : ∀ key entry, name (change key entry) = name entry) :
    Keyed name (List.map (fun entry => (entry.1, change entry.1 entry.2)) table) := by
  refine ⟨?_, fun entry hentry => ?_⟩
  · have hnames : names (List.map (fun entry => (entry.1, change entry.1 entry.2)) table) =
        names table := by simp [names]
    rw [hnames]
    exact h.nodup
  · obtain ⟨old, hold, rfl⟩ := List.mem_map.mp hentry
    rw [hchange]
    exact h.own old hold

theorem Keyed.adjust {name : α → Name} {table : NameTable α} (h : Keyed name table) (key : Name)
    {change : α → α} (hchange : ∀ entry, name (change entry) = name entry) :
    Keyed name (table.adjust key change) := by
  have hown : ∀ entry ∈ table.adjust key change, entry.1 = name entry.2 := by
    have htable := h.own
    clear h
    induction table with
    | nil => exact htable
    | cons head rest ih =>
        obtain ⟨first, old⟩ := head
        have hfirst := htable (first, old) List.mem_cons_self
        have hrest : ∀ entry ∈ rest, entry.1 = name entry.2 :=
          fun entry hentry => htable entry (List.mem_cons_of_mem _ hentry)
        intro entry hentry
        by_cases hkey : first = key
        · simp only [NameTable.adjust, hkey, if_true, List.mem_cons] at hentry
          rcases hentry with rfl | hentry
          · exact (hkey.symm.trans hfirst).trans (hchange old).symm
          · exact hrest entry hentry
        · simp only [NameTable.adjust, hkey, if_false, List.mem_cons] at hentry
          rcases hentry with rfl | hentry
          · exact hfirst
          · exact ih hrest entry hentry
  exact ⟨by rw [names_adjust]; exact h.nodup, hown⟩

theorem Keyed.insertNew {name : α → Name} {table : NameTable α} (h : Keyed name table)
    (entry : α) : Keyed name (table.insertNew (name entry) entry) := by
  unfold NameTable.insertNew
  split
  · exact h
  · rename_i hfree
    have hfresh : name entry ∉ names table := by
      rwa [NameTable.has, find?_isSome_iff_mem_names] at hfree
    refine ⟨?_, fun other hother => ?_⟩
    · rw [names, List.map_append, List.nodup_append]
      refine ⟨h.nodup, by simp, ?_⟩
      intro key hkey other hother heq
      have hother : other = name entry := by simpa using hother
      rw [heq, hother] at hkey
      exact hfresh hkey
    · rcases List.mem_append.mp hother with hold | hnew
      · exact h.own other hold
      · rw [List.mem_singleton.mp hnew]

theorem Keyed.foldl_insertNew {name : α → Name} (more : List α) {table : NameTable α}
    (h : Keyed name table) :
    Keyed name (more.foldl (fun acc item => acc.insertNew (name item) item) table) := by
  induction more generalizing table with
  | nil => exact h
  | cons first rest ih => exact ih (h.insertNew first)

end QueryAudit.NameTable
