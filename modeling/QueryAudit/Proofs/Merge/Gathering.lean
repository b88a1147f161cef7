import QueryAudit.Proofs.Merge.Sets

/-!
# What a selection set is found to select

The fields that are gathered from a set come from the set and its inline fragments, each at an
address of its own. The type on which a set is gathered may vary with who asks for it, but only
between types without fields and no type at all. So a field gathered is determined by its address,
up to that: `plain` drops such a type from an entry, and `Placed` says that an entry is the one at
its address.
-/

namespace QueryAudit.Merge

/-- The entry without a parent type on which no fields can be selected. -/
def Entry.plain (entry : Entry) : Entry := { entry with parent := selectable entry.parent }

/-- The type on which the sub-selections of a field select. -/
def Entry.scope (schema : Schema) (entry : Entry) : Option TypeDefinition :=
  entry.definition.bind fun definition => schema.concreteType? definition.type

def Entry.key (entry : Entry) : Name := entry.field.responseKey

theorem areExclusive_eq_plain (a b : Entry) : areExclusive a b = areExclusive a.plain b.plain := by
  have hkind : ∀ type : TypeDefinition, type.isComposite = false → type.isObject = false := by
    intro type h
    cases hkind : type.kind <;> simp_all [TypeDefinition.isComposite, TypeDefinition.isObject]
  cases ha : a.parent with
  | none => simp [areExclusive, Entry.plain, selectable, ha]
  | some first =>
      cases hb : b.parent with
      | none => simp [areExclusive, Entry.plain, selectable, ha, hb]
      | some second =>
          cases hfirst : first.isComposite <;> cases hsecond : second.isComposite <;>
            simp [areExclusive, Entry.plain, selectable, Option.filter, ha, hb, hfirst, hsecond,
              hkind]

theorem areExclusive_congr {a a' b b' : Entry} (ha : a.plain = a'.plain) (hb : b.plain = b'.plain) :
    areExclusive a b = areExclusive a' b' := by
  rw [areExclusive_eq_plain, ha, hb, ← areExclusive_eq_plain]

theorem areExclusive_comm (a b : Entry) : areExclusive a b = areExclusive b a := by
  unfold areExclusive
  cases a.parent with
  | none => cases b.parent <;> rfl
  | some first =>
      cases b.parent with
      | none => rfl
      | some second =>
          have hne : (first.name != second.name) = (second.name != first.name) := by
            rw [Bool.eq_iff_iff]
            simp [ne_comm]
          simp only [hne, Bool.and_assoc, Bool.and_comm first.isObject]

namespace Entry

variable {a b : Entry}

theorem field_eq_of_plain (h : a.plain = b.plain) : a.field = b.field :=
  (congrArg Entry.field h :)

theorem definition_eq_of_plain (h : a.plain = b.plain) : a.definition = b.definition :=
  (congrArg Entry.definition h :)

theorem selections_eq_of_plain (h : a.plain = b.plain) : a.selections = b.selections :=
  (congrArg Entry.selections h :)

theorem address_eq_of_plain (h : a.plain = b.plain) : a.address = b.address :=
  (congrArg Entry.address h :)

theorem key_eq_of_plain (h : a.plain = b.plain) : a.key = b.key :=
  congrArg Field.responseKey (field_eq_of_plain h)

theorem scope_eq_of_plain (schema : Schema) (h : a.plain = b.plain) :
    a.scope schema = b.scope schema := by
  rw [scope, definition_eq_of_plain h, scope]

end Entry

/-! ## Places -/

/-- A selection set is the one at an address, and a type agrees with the one on which it selects. -/
structure Place (schema : Schema) (document : Document) (parent : Option TypeDefinition)
    (address : Address) (selections : SelectionSet) : Prop where
  known : schema.Lists parent
  set : document.setAt? schema address = some (selectable parent, selections)

def entryAt? (schema : Schema) (document : Document) : Address → Option Entry
  | [] => none
  | number :: address =>
      (document.setAt? schema address).bind fun outer =>
        match outer.2[number]? with
        | some (.field chosen inner) =>
            some
              { parent := outer.1
                field := chosen
                definition := outer.1.bind fun type => Schema.fieldOn? type chosen.name
                selections := inner
                address := number :: address }
        | _ => none

/-- An entry is the field at its address. -/
def Placed (schema : Schema) (document : Document) (entry : Entry) : Prop :=
  entryAt? schema document entry.address = some entry.plain

/-- The fields of a document, each with the type on which it is selected and its definition
there. -/
def fieldEntries (schema : Schema) (document : Document) : List Entry :=
  document.addresses.filterMap (entryAt? schema document)

section

variable {schema : Schema} {document : Document}

theorem place_of_setAt? {address : Address} {type : Option TypeDefinition}
    {selections : SelectionSet} (h : document.setAt? schema address = some (type, selections)) :
    Place schema document type address selections := by
  obtain ⟨hselectable, hknown⟩ := Document.selectable_of_setAt? h
  exact ⟨hknown, by rw [hselectable, h]⟩

theorem Place.selections_eq {p q : Option TypeDefinition} {address : Address}
    {s t : SelectionSet} (hp : Place schema document p address s)
    (hq : Place schema document q address t) : s = t := by
  have h := hp.set.symm.trans hq.set
  simp only [Option.some.injEq, Prod.mk.injEq] at h
  exact h.2

theorem Place.selectable_eq {p q : Option TypeDefinition} {address : Address}
    {s t : SelectionSet} (hp : Place schema document p address s)
    (hq : Place schema document q address t) : selectable p = selectable q := by
  have h := hp.set.symm.trans hq.set
  simp only [Option.some.injEq, Prod.mk.injEq] at h
  exact h.1

theorem locate?_eq_some {name : Name} {address : Address} {fragment : Fragment}
    (h : locate? document name = some (address, fragment)) :
    ∃ number, address = [number] ∧
      document.definitions[number]? = some (.fragment fragment) := by
  obtain ⟨⟨definition, number⟩, hmem, hfound⟩ := List.exists_of_findSome?_eq_some h
  cases definition with
  | operation o => cases hfound
  | fragment other =>
      simp only at hfound
      split at hfound
      · cases hfound
        exact ⟨number, rfl, List.mem_zipIdx_iff_getElem?.mp hmem⟩
      · cases hfound

theorem place_of_locate? {name : Name} {address : Address} {fragment : Fragment}
    (h : locate? document name = some (address, fragment)) :
    Place schema document (schema.type? fragment.condition) address fragment.selections := by
  obtain ⟨number, rfl, hdefinition⟩ := locate?_eq_some h
  exact ⟨schema.lists_type? _, Document.setAt?_definition hdefinition⟩

theorem Placed.eq_plain {a b : Entry} (ha : Placed schema document a)
    (hb : Placed schema document b) (h : a.address = b.address) : a.plain = b.plain := by
  unfold Placed at ha hb
  rw [h, hb] at ha
  exact (Option.some.inj ha).symm

theorem Placed.address_ne {entry : Entry} (h : Placed schema document entry) (number : Nat) :
    entry.address ≠ [number] := by
  intro haddress
  unfold Placed at h
  rw [haddress] at h
  cases h

/-- The sub-selections of a field are the set at its address. -/
theorem Placed.place {entry : Entry} (h : Placed schema document entry) :
    Place schema document (entry.scope schema) entry.address entry.selections := by
  refine ⟨schema.lists_bind _ _ fun d => schema.lists_type? _, ?_⟩
  unfold Placed at h
  cases haddress : entry.address with
  | nil =>
      rw [haddress] at h
      cases h
  | cons number address =>
      rw [haddress] at h
      obtain ⟨⟨type, siblings⟩, houter, hentry⟩ := Option.bind_eq_some_iff.mp h
      simp only at hentry
      split at hentry
      · rename_i chosen inner hitem
        have hplain := Option.some.inj hentry
        have hdefinition := congrArg Entry.definition hplain
        have hselections := congrArg Entry.selections hplain
        simp only [Entry.plain] at hdefinition hselections
        rw [Document.setAt?_item houter hitem rfl, Entry.scope, ← hdefinition, ← hselections]
      · cases hentry

theorem Placed.mem_fieldEntries {entry : Entry} (h : Placed schema document entry) :
    entry.plain ∈ fieldEntries schema document :=
  List.mem_filterMap.mpr ⟨entry.address, Document.mem_addresses_of_setAt? h.place.set, h⟩

/-! ## The items of a set -/

/-- What holds of a set holds of the sets of the inline fragments in it. -/
def ReachesInline (schema : Schema)
    (inside : Option TypeDefinition → Address → SelectionSet → Prop) : Prop :=
  ∀ {parent address all number} {head : InlineFragment} {inner : SelectionSet},
    inside parent address all → all[number]? = some (.inline head inner) →
      inside (match head.condition with | some condition => schema.type? condition | none => parent)
        (number :: address) inner

section

variable {inside : Option TypeDefinition → Address → SelectionSet → Prop}

mutual

theorem exists_field_of_mem_itemsOf (hinside : ReachesInline schema inside)
    {parent : Option TypeDefinition} {number : Nat} {address : Address} (selection : Selection)
    {all : List Selection} (hall : inside parent address all)
    (hitem : all[number]? = some selection) {entry : Entry}
    (h : Item.entry entry ∈ itemsOf schema parent (number :: address) selection) :
    ∃ type above siblings position, inside type above siblings ∧
      siblings[position]? = some (.field entry.field entry.selections) ∧
      entry = ⟨type, entry.field, type.bind fun known => Schema.fieldOn? known entry.field.name,
        entry.selections, position :: above⟩ := by
  cases selection with
  | field chosen inner =>
      simp only [itemsOf, List.mem_singleton, Item.entry.injEq] at h
      subst h
      exact ⟨parent, address, all, number, hall, hitem, rfl⟩
  | spread chosen => simp [itemsOf] at h
  | inline head inner =>
      rw [itemsOf] at h
      exact exists_field_of_mem_itemsOfAll hinside inner (hinside hall hitem)
        (fun _ => by rw [Nat.zero_add]) h

theorem exists_field_of_mem_itemsOfAll (hinside : ReachesInline schema inside)
    {parent : Option TypeDefinition} {number : Nat} {address : Address} (rest : List Selection)
    {all : List Selection} (hall : inside parent address all)
    (hrest : ∀ index, rest[index]? = all[number + index]?)
    {entry : Entry} (h : Item.entry entry ∈ itemsOfAll schema parent address number rest) :
    ∃ type above siblings position, inside type above siblings ∧
      siblings[position]? = some (.field entry.field entry.selections) ∧
      entry = ⟨type, entry.field, type.bind fun known => Schema.fieldOn? known entry.field.name,
        entry.selections, position :: above⟩ := by
  cases rest with
  | nil => cases h
  | cons selection others =>
      rcases List.mem_append.mp h with hhead | hothers
      · exact exists_field_of_mem_itemsOf hinside selection hall (hrest 0).symm hhead
      · refine exists_field_of_mem_itemsOfAll hinside others hall (fun index => ?_) hothers
        rw [Nat.add_assoc, Nat.add_comm 1 index, ← hrest (index + 1)]
        rfl

end

/-- A field among the items of a set stands in the set or in an inline fragment of it. -/
theorem ReachesInline.exists_field (hinside : ReachesInline schema inside)
    {parent : Option TypeDefinition} {address : Address} {selections : SelectionSet}
    (hset : inside parent address selections) {entry : Entry}
    (h : Item.entry entry ∈ itemsOfAll schema parent address 0 selections) :
    ∃ type above siblings position, inside type above siblings ∧
      siblings[position]? = some (.field entry.field entry.selections) ∧
      entry = ⟨type, entry.field, type.bind fun known => Schema.fieldOn? known entry.field.name,
        entry.selections, position :: above⟩ :=
  exists_field_of_mem_itemsOfAll hinside selections hset (fun _ => by rw [Nat.zero_add]) h

end

theorem place_reachesInline : ReachesInline schema (Place schema document) := by
  intro parent address all number head inner hplace hitem
  refine ⟨?_, ?_⟩
  · cases head.condition with
    | some condition => exact schema.lists_type? condition
    | none => exact hplace.known
  · rw [Document.setAt?_item hplace.set hitem rfl]
    cases head.condition <;> simp

/-- The fields gathered from the set at an address are those at addresses of their own. -/
theorem Place.placed (hschema : schema.FieldsOnComposites) {parent : Option TypeDefinition}
    {address : Address} {selections : SelectionSet}
    (hplace : Place schema document parent address selections) {entry : Entry}
    (h : Item.entry entry ∈ itemsOfAll schema parent address 0 selections) :
    Placed schema document entry := by
  obtain ⟨type, above, siblings, position, hinside, hfield, hentry⟩ :=
    place_reachesInline.exists_field hplace h
  rw [hentry]
  simp only [Placed, entryAt?, hinside.set, Option.bind_some, hfield, Entry.plain,
    bind_fieldOn?_selectable hschema hinside.known]

def Item.plain : Item → Item
  | .entry found => .entry found.plain
  | .spread name => .spread name

mutual

theorem itemsOf_plain (hschema : schema.FieldsOnComposites) {p q : Option TypeDefinition}
    (hp : schema.Lists p) (hq : schema.Lists q) (h : selectable p = selectable q)
    (address : Address) (selection : Selection) :
    (itemsOf schema p address selection).map Item.plain =
      (itemsOf schema q address selection).map Item.plain := by
  cases selection with
  | field chosen inner =>
      have hdefinition := bind_fieldOn?_selectable hschema hp chosen.name
      rw [h, bind_fieldOn?_selectable hschema hq chosen.name] at hdefinition
      simp [itemsOf, Item.plain, Entry.plain, h, hdefinition]
  | spread chosen => rfl
  | inline head inner =>
      rw [itemsOf, itemsOf]
      cases head.condition with
      | some condition => rfl
      | none => exact itemsOfAll_plain hschema hp hq h address 0 inner

theorem itemsOfAll_plain (hschema : schema.FieldsOnComposites) {p q : Option TypeDefinition}
    (hp : schema.Lists p) (hq : schema.Lists q) (h : selectable p = selectable q)
    (address : Address) (number : Nat) (selections : List Selection) :
    (itemsOfAll schema p address number selections).map Item.plain =
      (itemsOfAll schema q address number selections).map Item.plain := by
  cases selections with
  | nil => rfl
  | cons selection rest =>
      rw [itemsOfAll, itemsOfAll, List.map_append, List.map_append,
        itemsOf_plain hschema hp hq h, itemsOfAll_plain hschema hp hq h]

end

/-- Whoever asks for a set finds the same fields in it. -/
theorem Place.exists_entry (hschema : schema.FieldsOnComposites) {p q : Option TypeDefinition}
    {address : Address} {s t : SelectionSet} (hp : Place schema document p address s)
    (hq : Place schema document q address t) {entry : Entry}
    (h : Item.entry entry ∈ itemsOfAll schema p address 0 s) :
    ∃ other, Item.entry other ∈ itemsOfAll schema q address 0 t ∧ other.plain = entry.plain := by
  have hitems := itemsOfAll_plain hschema hp.known hq.known (hp.selectable_eq hq) address 0 s
  have hmem := List.mem_map_of_mem (f := Item.plain) h
  rw [hitems, hp.selections_eq hq] at hmem
  obtain ⟨item, hitem, hplain⟩ := List.mem_map.mp hmem
  cases item with
  | entry other =>
      simp only [Item.plain, Item.entry.injEq] at hplain
      exact ⟨other, hitem, hplain⟩
  | spread name => cases hplain

/-- Whoever asks for a set finds the same spreads in it. -/
theorem Place.mem_spread (hschema : schema.FieldsOnComposites) {p q : Option TypeDefinition}
    {address : Address} {s t : SelectionSet} (hp : Place schema document p address s)
    (hq : Place schema document q address t) {name : Name}
    (h : Item.spread name ∈ itemsOfAll schema p address 0 s) :
    Item.spread name ∈ itemsOfAll schema q address 0 t := by
  have hitems := itemsOfAll_plain hschema hp.known hq.known (hp.selectable_eq hq) address 0 s
  have hmem := List.mem_map_of_mem (f := Item.plain) h
  rw [hitems, hp.selections_eq hq] at hmem
  obtain ⟨item, hitem, hplain⟩ := List.mem_map.mp hmem
  cases item with
  | entry other => cases hplain
  | spread other =>
      cases hplain
      exact hitem

end

/-! ## What is gathered from items -/

def entriesUnder (key : Name) (items : List Item) : List Entry :=
  items.filterMap fun item =>
    match item with
    | .entry found => if found.key = key then some found else none
    | .spread _ => none

theorem mem_entriesUnder {key : Name} {items : List Item} {entry : Entry} :
    entry ∈ entriesUnder key items ↔ Item.entry entry ∈ items ∧ entry.key = key := by
  rw [entriesUnder, List.mem_filterMap]
  constructor
  · rintro ⟨item, hitem, hfound⟩
    cases item with
    | entry found =>
        simp only [Option.ite_none_right_eq_some, Option.some.injEq] at hfound
        obtain ⟨hkey, rfl⟩ := hfound
        exact ⟨hitem, hkey⟩
    | spread name => cases hfound
  · rintro ⟨hitem, hkey⟩
    exact ⟨.entry entry, hitem, by simp [hkey]⟩

/-- A gathered set holds the fields of some items key by key, and their spreads. -/
structure Gathered.Collects (gathered : Gathered) (items : List Item) : Prop where
  keys : gathered.fields.names.Nodup
  fields : ∀ key, (gathered.fields.find? key).getD [] = entriesUnder key items
  spreads : ∀ name, name ∈ gathered.spreads ↔ Item.spread name ∈ items

theorem Gathered.Collects.add {gathered : Gathered} {items : List Item}
    (h : gathered.Collects items) (item : Item) :
    (gathered.add item).Collects (items ++ [item]) := by
  cases item with
  | entry found =>
      refine ⟨NameTable.nodup_names_insert _ _ h.keys, fun key => ?_, fun name => ?_⟩
      · have happend : entriesUnder key (items ++ [.entry found]) =
            entriesUnder key items ++ if found.key = key then [found] else [] := by
          by_cases hkey : found.key = key <;> simp [entriesUnder, hkey]
        rw [happend, ← h.fields key]
        simp only [Gathered.add, addEntry, NameTable.find?_insert, Entry.key]
        by_cases hkey : found.field.responseKey = key <;> simp [hkey]
      · simp [Gathered.add, h.spreads]
  | spread spread =>
      refine ⟨h.keys, fun key => ?_, fun name => ?_⟩
      · simp [Gathered.add, h.fields, entriesUnder]
      · simp only [Gathered.add, addName]
        split
        · rename_i hmem
          simp only [h.spreads, List.mem_append, List.mem_singleton, Item.spread.injEq] at hmem ⊢
          constructor
          · exact .inl
          · rintro (hold | rfl)
            · exact hold
            · exact hmem
        · simp [h.spreads]

theorem gather_collects (schema : Schema) (parent : Option TypeDefinition) (address : Address)
    (selections : SelectionSet) :
    (gather schema parent address selections).Collects
      (itemsOfAll schema parent address 0 selections) := by
  have hfold : ∀ (items before : List Item) (gathered : Gathered), gathered.Collects before →
      (items.foldl Gathered.add gathered).Collects (before ++ items) := by
    intro items
    induction items with
    | nil =>
        intro before gathered h
        simpa using h
    | cons item rest ih =>
        intro before gathered h
        simpa using ih (before ++ [item]) (gathered.add item) (h.add item)
  have hempty : (⟨address, [], []⟩ : Gathered).Collects [] :=
    ⟨List.nodup_nil, fun _ => rfl, by simp⟩
  simpa [gather] using hfold (itemsOfAll schema parent address 0 selections) [] _ hempty

@[simp] theorem gather_address (schema : Schema) (parent : Option TypeDefinition)
    (address : Address) (selections : SelectionSet) :
    (gather schema parent address selections).address = address := by
  have hfold : ∀ (items : List Item) (gathered : Gathered),
      (items.foldl Gathered.add gathered).address = gathered.address := by
    intro items
    induction items with
    | nil => exact fun _ => rfl
    | cons item rest ih =>
        intro gathered
        rw [List.foldl_cons, ih]
        cases item <;> rfl
  exact hfold _ _

/-! ## The comparisons of what is gathered -/

namespace Gathered.Collects

variable {gathered first second : Gathered} {items others : List Item}

theorem entries_eq (h : gathered.Collects items) {key : Name} {entries : List Entry}
    (hmem : (key, entries) ∈ gathered.fields) : entries = entriesUnder key items := by
  rw [← h.fields key, NameTable.find?_of_mem h.keys hmem, Option.getD_some]

theorem find?_eq (h : gathered.Collects items) {entry : Entry} (hmem : Item.entry entry ∈ items) :
    gathered.fields.find? entry.key = some (entriesUnder entry.key items) := by
  have hentry : entry ∈ entriesUnder entry.key items := mem_entriesUnder.mpr ⟨hmem, rfl⟩
  have hfields := h.fields entry.key
  cases hfind : gathered.fields.find? entry.key with
  | some entries =>
      rw [hfind, Option.getD_some] at hfields
      rw [hfields]
  | none =>
      rw [hfind, Option.getD_none] at hfields
      rw [← hfields] at hentry
      cases hentry

/-- Every field of one set is compared with every field of the other that has its key. -/
theorem mem_tasksBetween (hfirst : first.Collects items) (hsecond : second.Collects others)
    {exclusive : Bool} {task : Task} :
    task ∈ tasksBetween exclusive first.fields second.fields ↔
      ∃ a b, Item.entry a ∈ items ∧ Item.entry b ∈ others ∧ a.key = b.key ∧
        task = .fields a.key exclusive a b := by
  rw [tasksBetween, List.mem_flatMap]
  constructor
  · rintro ⟨⟨key, entries⟩, hentries, htask⟩
    simp only at htask
    split at htask
    · rename_i found hfound
      obtain ⟨a, ha, hrest⟩ := List.mem_flatMap.mp htask
      obtain ⟨b, hb, rfl⟩ := List.mem_map.mp hrest
      rw [hfirst.entries_eq hentries, mem_entriesUnder] at ha
      rw [hsecond.entries_eq (NameTable.mem_of_find? hfound), mem_entriesUnder] at hb
      exact ⟨a, b, ha.1, hb.1, ha.2.trans hb.2.symm, by rw [ha.2]⟩
    · cases htask
  · rintro ⟨a, b, ha, hb, hkey, rfl⟩
    refine ⟨(a.key, entriesUnder a.key items), NameTable.mem_of_find? (hfirst.find?_eq ha), ?_⟩
    simp only [hkey, hsecond.find?_eq hb]
    refine List.mem_flatMap.mpr ⟨a, mem_entriesUnder.mpr ⟨ha, hkey⟩, ?_⟩
    exact List.mem_map_of_mem (mem_entriesUnder.mpr ⟨hb, rfl⟩)

end Gathered.Collects

theorem exists_of_mem_pairwise {key : Name} {entries : List Entry} {task : Task}
    (h : task ∈ pairwise key entries) :
    ∃ a ∈ entries, ∃ b ∈ entries, task = .fields key false a b := by
  induction entries with
  | nil => cases h
  | cons head rest ih =>
      rcases List.mem_append.mp h with hhead | hrest
      · obtain ⟨b, hb, rfl⟩ := List.mem_map.mp hhead
        exact ⟨head, List.mem_cons_self, b, List.mem_cons_of_mem _ hb, rfl⟩
      · obtain ⟨a, ha, b, hb, rfl⟩ := ih hrest
        exact ⟨a, List.mem_cons_of_mem _ ha, b, List.mem_cons_of_mem _ hb, rfl⟩

theorem mem_pairwise_of_ne {key : Name} {entries : List Entry} {a b : Entry} (ha : a ∈ entries)
    (hb : b ∈ entries) (hne : a ≠ b) :
    .fields key false a b ∈ pairwise key entries ∨
      .fields key false b a ∈ pairwise key entries := by
  induction entries with
  | nil => cases ha
  | cons head rest ih =>
      rcases List.mem_cons.mp ha with rfl | ha'
      · rcases List.mem_cons.mp hb with rfl | hb'
        · exact absurd rfl hne
        · exact .inl (List.mem_append_left _ (List.mem_map_of_mem hb'))
      · rcases List.mem_cons.mp hb with rfl | hb'
        · exact .inr (List.mem_append_left _ (List.mem_map_of_mem ha'))
        · exact (ih ha' hb').imp (List.mem_append_right _) (List.mem_append_right _)

namespace Gathered.Collects

variable {gathered : Gathered} {items : List Item}

theorem exists_of_mem_tasksWithin (h : gathered.Collects items) {task : Task}
    (htask : task ∈ tasksWithin gathered.fields) :
    ∃ a b, Item.entry a ∈ items ∧ Item.entry b ∈ items ∧ a.key = b.key ∧
      task = .fields a.key false a b := by
  obtain ⟨⟨key, entries⟩, hentries, hpair⟩ := List.mem_flatMap.mp htask
  obtain ⟨a, ha, b, hb, rfl⟩ := exists_of_mem_pairwise hpair
  rw [h.entries_eq hentries, mem_entriesUnder] at ha hb
  exact ⟨a, b, ha.1, hb.1, ha.2.trans hb.2.symm, by rw [ha.2]⟩

/-- Two fields of one key in one set are compared, one way round. -/
theorem mem_tasksWithin_of_ne (h : gathered.Collects items) {a b : Entry}
    (ha : Item.entry a ∈ items) (hb : Item.entry b ∈ items) (hkey : a.key = b.key) (hne : a ≠ b) :
    .fields a.key false a b ∈ tasksWithin gathered.fields ∨
      .fields a.key false b a ∈ tasksWithin gathered.fields := by
  have hentries := NameTable.mem_of_find? (h.find?_eq ha)
  have hwithin : ∀ task ∈ pairwise a.key (entriesUnder a.key items),
      task ∈ tasksWithin gathered.fields := fun task htask =>
    List.mem_flatMap.mpr ⟨_, hentries, htask⟩
  exact (mem_pairwise_of_ne (mem_entriesUnder.mpr ⟨ha, rfl⟩)
    (mem_entriesUnder.mpr ⟨hb, hkey.symm⟩) hne).imp (hwithin _) (hwithin _)

end Gathered.Collects

theorem exists_of_mem_tasksForSpreads {set : Gathered} {names : List Name} {task : Task}
    (h : task ∈ tasksForSpreads set names) :
    (∃ name ∈ names, task = .setWithFragment false set name) ∨
      ∃ a ∈ names, ∃ b ∈ names, task = .fragments false a b := by
  induction names with
  | nil => cases h
  | cons name rest ih =>
      rcases List.mem_cons.mp h with rfl | hlater
      · exact .inl ⟨name, List.mem_cons_self, rfl⟩
      · rcases List.mem_append.mp hlater with hpair | hrest
        · obtain ⟨b, hb, rfl⟩ := List.mem_map.mp hpair
          exact .inr ⟨name, List.mem_cons_self, b, List.mem_cons_of_mem _ hb, rfl⟩
        · rcases ih hrest with ⟨other, hother, rfl⟩ | ⟨a, ha, b, hb, rfl⟩
          · exact .inl ⟨other, List.mem_cons_of_mem _ hother, rfl⟩
          · exact .inr ⟨a, List.mem_cons_of_mem _ ha, b, List.mem_cons_of_mem _ hb, rfl⟩

theorem setWithFragment_mem_tasksForSpreads (set : Gathered) {names : List Name} {name : Name}
    (h : name ∈ names) : .setWithFragment false set name ∈ tasksForSpreads set names := by
  induction names with
  | nil => cases h
  | cons head rest ih =>
      rcases List.mem_cons.mp h with rfl | hrest
      · exact List.mem_cons_self
      · exact List.mem_cons_of_mem _ (List.mem_append_right _ (ih hrest))

theorem fragments_mem_tasksForSpreads (set : Gathered) {names : List Name} {a b : Name}
    (ha : a ∈ names) (hb : b ∈ names) (hne : a ≠ b) :
    .fragments false a b ∈ tasksForSpreads set names ∨
      .fragments false b a ∈ tasksForSpreads set names := by
  induction names with
  | nil => cases ha
  | cons head rest ih =>
      rcases List.mem_cons.mp ha with rfl | ha'
      · rcases List.mem_cons.mp hb with rfl | hb'
        · exact absurd rfl hne
        · exact .inl (List.mem_cons_of_mem _ (List.mem_append_left _ (List.mem_map_of_mem hb')))
      · rcases List.mem_cons.mp hb with rfl | hb'
        · exact .inr (List.mem_cons_of_mem _ (List.mem_append_left _ (List.mem_map_of_mem ha')))
        · exact (ih ha' hb').imp
            (fun h => List.mem_cons_of_mem _ (List.mem_append_right _ h))
            (fun h => List.mem_cons_of_mem _ (List.mem_append_right _ h))

end QueryAudit.Merge
