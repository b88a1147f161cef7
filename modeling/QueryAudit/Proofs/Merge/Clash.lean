import QueryAudit.Proofs.Merge.Gathering

/-!
# Clashes of fields

When two fields of one response key cannot be merged, said without a search: `Selects` gives the
fields of a selection set with those of the fragments that it spreads, directly or through other
fragments, and `Clash` compares two of them and, in turn, all pairs of fields in their
sub-selections. Nothing is remembered and nothing is left out, and fragments may spread each other
in circles.

Which arguments count as different is left open in `Clash`. The search asks one field of a pair for
the types of its arguments, so what it finds may depend on which of the two comes first.
-/

namespace QueryAudit

namespace Document

/-- The walk enters a selection set, with a parent type. -/
def Enters (schema : Schema) (document : Document) (parent : Option TypeDefinition)
    (address : Address) (selections : SelectionSet) : Prop :=
  ∃ types : Tracker, types.parent? = parent ∧
    ⟨.enter (.selectionSet address selections), types⟩ ∈ document.tree.steps schema

theorem enters_iff {schema : Schema} {document : Document} {parent : Option TypeDefinition}
    {address : Address} {selections : SelectionSet} :
    document.Enters schema parent address selections ↔
      document.setAt? schema address = some (parent, selections) := by
  constructor
  · rintro ⟨types, rfl, hstep⟩
    exact setAt?_of_mem_steps hstep
  · intro h
    obtain ⟨outer, rfl, hwalked⟩ := walked_of_setAt? h
    exact ⟨_, rfl, hwalked _ List.mem_cons_self⟩

end Document

namespace Schema

theorem typesConflict_comm (schema : Schema) (a b : TypeRef) :
    schema.typesConflict a b = schema.typesConflict b a := by
  induction a generalizing b with
  | named first firstNonNull =>
      cases b with
      | named second secondNonNull =>
          simp only [typesConflict, bne_comm (a := firstNonNull), bne_comm (a := first),
            Bool.or_comm (schema.isLeafName first)]
      | list second secondNonNull => rfl
  | list first firstNonNull ih =>
      cases b with
      | named second secondNonNull => rfl
      | list second secondNonNull =>
          simp only [typesConflict, bne_comm (a := firstNonNull), ih second]

theorem typesConflict_self (schema : Schema) (type : TypeRef) :
    schema.typesConflict type type = false := by
  induction type with
  | list element nonNull ih => simp [typesConflict, ih]
  | named name nonNull => simp [typesConflict]

end Schema

namespace Merge

/-- A selection set selects a field by way of some fragments: each but the last spreads the next
one, and the last one, or the set itself if there is none, holds the field, perhaps in inline
fragments. Of fragments of one name the first one counts. -/
def SelectsBy (schema : Schema) (document : Document) :
    List Name → Option TypeDefinition → Address → SelectionSet → Entry → Prop
  | [], parent, address, selections, entry =>
      Item.entry entry ∈ itemsOfAll schema parent address 0 selections
  | name :: path, parent, address, selections, entry =>
      Item.spread name ∈ itemsOfAll schema parent address 0 selections ∧
        ∃ target fragment, locate? document name = some (target, fragment) ∧
          SelectsBy schema document path (schema.type? fragment.condition) target
            fragment.selections entry

/-- A selection set selects a field, itself or by way of fragments. -/
def Selects (schema : Schema) (document : Document) (parent : Option TypeDefinition)
    (address : Address) (selections : SelectionSet) (entry : Entry) : Prop :=
  ∃ path, SelectsBy schema document path parent address selections entry

/-- Two fields clash. `exclusive` says that they are known never to be both present. -/
inductive Clash (schema : Schema) (document : Document) (differ : Entry → Entry → Prop) :
    Bool → Entry → Entry → Prop
  | names {exclusive : Bool} {a b : Entry} (together : (exclusive || areExclusive a b) = false)
      (names : a.field.name ≠ b.field.name) : Clash schema document differ exclusive a b
  | arguments {exclusive : Bool} {a b : Entry} (together : (exclusive || areExclusive a b) = false)
      (arguments : differ a b) : Clash schema document differ exclusive a b
  | types {exclusive : Bool} {a b : Entry} {first second : FieldDefinition}
      (hfirst : a.definition = some first) (hsecond : b.definition = some second)
      (types : schema.typesConflict first.type second.type = true) :
      Clash schema document differ exclusive a b
  | subfields {exclusive : Bool} {a b inA inB : Entry}
      (hfirst : Selects schema document (a.scope schema) a.address a.selections inA)
      (hsecond : Selects schema document (b.scope schema) b.address b.selections inB)
      (distinct : inA.address ≠ inB.address) (key : inA.key = inB.key)
      (clash : Clash schema document differ (exclusive || areExclusive a b) inA inB) :
      Clash schema document differ exclusive a b

/-- The first field has other arguments than the second, by the argument types that the definition
of the first one declares. -/
def ArgumentsDiffer (schema : Schema) (a b : Entry) : Prop :=
  sameArguments schema a.definition a.field b.field = false

/-- Two fields do not conflict by themselves if they have one name and the same arguments, unless
they are never both present, and results of one shape. -/
theorem directReason?_eq_none_iff {schema : Schema} {exclusive : Bool} {a b : Entry} :
    directReason? schema exclusive a b = none ↔
      (exclusive = false → a.field.name = b.field.name ∧ ¬ ArgumentsDiffer schema a b) ∧
        ∀ first second, a.definition = some first → b.definition = some second →
          schema.typesConflict first.type second.type = false := by
  have hshape : directReason? schema true a b = none ↔
      ∀ first second, a.definition = some first → b.definition = some second →
        schema.typesConflict first.type second.type = false := by
    unfold directReason?
    cases a.definition <;> cases b.definition <;> simp
  cases exclusive with
  | true => simpa using hshape
  | false =>
      by_cases hnames : a.field.name = b.field.name
      · by_cases harguments : sameArguments schema a.definition a.field b.field = true
        · have hsame : directReason? schema false a b = directReason? schema true a b := by
            simp [directReason?, hnames, harguments]
          simpa [hsame, hnames, harguments, ArgumentsDiffer] using hshape
        · simp [directReason?, hnames, harguments, ArgumentsDiffer]
      · simp [directReason?, hnames]

/-- Some set that the walk enters selects two distinct fields of one key that clash. -/
def HasClash (schema : Schema) (document : Document) (differ : Entry → Entry → Prop) : Prop :=
  ∃ parent address selections a b, document.Enters schema parent address selections ∧
    Selects schema document parent address selections a ∧
    Selects schema document parent address selections b ∧
    a.address ≠ b.address ∧ a.key = b.key ∧ Clash schema document differ false a b

/-! ## Fields by way of fragments -/

section

variable {schema : Schema} {document : Document}

theorem SelectsBy.placed (hschema : schema.FieldsOnComposites) {path : List Name}
    {parent : Option TypeDefinition} {address : Address} {selections : SelectionSet} {entry : Entry}
    (hplace : Place schema document parent address selections)
    (h : SelectsBy schema document path parent address selections entry) :
    Placed schema document entry := by
  induction path generalizing parent address selections with
  | nil => exact hplace.placed hschema h
  | cons name path ih =>
      obtain ⟨-, target, fragment, hlocate, hrest⟩ := h
      exact ih (place_of_locate? hlocate) hrest

/-- Whoever asks for a set finds the same fields by way of the same fragments. -/
theorem SelectsBy.congr (hschema : schema.FieldsOnComposites) {path : List Name}
    {p q : Option TypeDefinition} {address : Address} {s t : SelectionSet} {entry : Entry}
    (hp : Place schema document p address s) (hq : Place schema document q address t)
    (h : SelectsBy schema document path p address s entry) :
    ∃ other, SelectsBy schema document path q address t other ∧ other.plain = entry.plain := by
  cases path with
  | nil => exact hp.exists_entry hschema hq h
  | cons name path =>
      obtain ⟨hspread, hrest⟩ := h
      exact ⟨entry, ⟨hp.mem_spread hschema hq hspread, hrest⟩, rfl⟩

theorem Selects.placed (hschema : schema.FieldsOnComposites) {parent : Option TypeDefinition}
    {address : Address} {selections : SelectionSet} {entry : Entry}
    (hplace : Place schema document parent address selections)
    (h : Selects schema document parent address selections entry) :
    Placed schema document entry := by
  obtain ⟨path, hpath⟩ := h
  exact hpath.placed hschema hplace

/-- The set at an address selects a field by way of some fragments, up to the types without fields
on which fields may be selected. -/
def ShownBy (schema : Schema) (document : Document) (path : List Name) (address : Address)
    (entry : Entry) : Prop :=
  ∃ parent selections found, Place schema document parent address selections ∧
    SelectsBy schema document path parent address selections found ∧ found.plain = entry.plain

def SpreadsAt (schema : Schema) (document : Document) (address : Address) (name : Name) : Prop :=
  ∃ parent selections, Place schema document parent address selections ∧
    Item.spread name ∈ itemsOfAll schema parent address 0 selections

theorem SelectsBy.shownBy {path : List Name} {parent : Option TypeDefinition} {address : Address}
    {selections : SelectionSet} {entry : Entry}
    (h : SelectsBy schema document path parent address selections entry)
    (hplace : Place schema document parent address selections) :
    ShownBy schema document path address entry :=
  ⟨parent, selections, entry, hplace, h, rfl⟩

theorem shownBy_nil {parent : Option TypeDefinition} {address : Address}
    {selections : SelectionSet} {entry : Entry}
    (hplace : Place schema document parent address selections)
    (h : Item.entry entry ∈ itemsOfAll schema parent address 0 selections) :
    ShownBy schema document [] address entry :=
  ⟨parent, selections, entry, hplace, h, rfl⟩

/-- Whoever asks for the set at an address finds the fields that it shows. -/
theorem ShownBy.exists_selectsBy (hschema : schema.FieldsOnComposites) {path : List Name}
    {parent : Option TypeDefinition} {address : Address} {selections : SelectionSet} {entry : Entry}
    (h : ShownBy schema document path address entry)
    (hplace : Place schema document parent address selections) :
    ∃ found, SelectsBy schema document path parent address selections found ∧
      found.plain = entry.plain := by
  obtain ⟨p, s, found, hp, hfound, hplain⟩ := h
  obtain ⟨other, hother, heq⟩ := hfound.congr hschema hp hplace
  exact ⟨other, hother, heq.trans hplain⟩

theorem shownBy_cons (hschema : schema.FieldsOnComposites) {name : Name} {path : List Name}
    {address : Address} {entry : Entry} :
    ShownBy schema document (name :: path) address entry ↔
      SpreadsAt schema document address name ∧
        ∃ target fragment, locate? document name = some (target, fragment) ∧
          ShownBy schema document path target entry := by
  constructor
  · rintro ⟨parent, selections, found, hplace, ⟨hspread, target, fragment, hlocate, hrest⟩, hplain⟩
    exact ⟨⟨parent, selections, hplace, hspread⟩, target, fragment, hlocate,
      _, _, found, place_of_locate? hlocate, hrest, hplain⟩
  · rintro ⟨⟨parent, selections, hplace, hspread⟩, target, fragment, hlocate, hrest⟩
    obtain ⟨found, hfound, hplain⟩ := hrest.exists_selectsBy hschema (place_of_locate? hlocate)
    exact ⟨parent, selections, found, hplace, ⟨hspread, target, fragment, hlocate, hfound⟩, hplain⟩

end

/-! ## Clashes -/

section

variable {schema : Schema} {document : Document} {differ : Entry → Entry → Prop}

theorem argumentsDiffer_congr {a a' b b' : Entry} (ha : a.plain = a'.plain)
    (hb : b.plain = b'.plain) : ArgumentsDiffer schema a b ↔ ArgumentsDiffer schema a' b' := by
  rw [ArgumentsDiffer, ArgumentsDiffer, Entry.definition_eq_of_plain ha,
    Entry.field_eq_of_plain ha, Entry.field_eq_of_plain hb]

/-- A clash does not depend on the types without fields on which fields are selected. -/
theorem Clash.congr {exclusive : Bool} {a a' b b' : Entry}
    (hdiffer : differ a b → differ a' b') (ha : a.plain = a'.plain) (hb : b.plain = b'.plain)
    (h : Clash schema document differ exclusive a b) :
    Clash schema document differ exclusive a' b' := by
  cases h with
  | names together names =>
      rw [areExclusive_congr ha hb] at together
      rw [Entry.field_eq_of_plain ha, Entry.field_eq_of_plain hb] at names
      exact .names together names
  | arguments together arguments =>
      rw [areExclusive_congr ha hb] at together
      exact .arguments together (hdiffer arguments)
  | types hfirst hsecond types =>
      rw [Entry.definition_eq_of_plain ha] at hfirst
      rw [Entry.definition_eq_of_plain hb] at hsecond
      exact .types hfirst hsecond types
  | subfields hfirst hsecond distinct key clash =>
      rw [Entry.scope_eq_of_plain schema ha, Entry.address_eq_of_plain ha,
        Entry.selections_eq_of_plain ha] at hfirst
      rw [Entry.scope_eq_of_plain schema hb, Entry.address_eq_of_plain hb,
        Entry.selections_eq_of_plain hb] at hsecond
      rw [areExclusive_congr ha hb] at clash
      exact .subfields hfirst hsecond distinct key clash

theorem or_of_le {weaker exclusive found : Bool} (h : weaker = true → exclusive = true) :
    (weaker || found) = true → (exclusive || found) = true := by
  rw [Bool.or_eq_true, Bool.or_eq_true]
  exact Or.imp_left h

theorem or_eq_false_of_le {weaker exclusive found : Bool} (h : weaker = true → exclusive = true)
    (hfalse : (exclusive || found) = false) : (weaker || found) = false := by
  rw [← Bool.not_eq_true] at hfalse ⊢
  exact fun htrue => hfalse (or_of_le h htrue)

/-- Fields that clash although they are known never to be both present clash anyway. -/
theorem Clash.of_le {exclusive weaker : Bool} {a b : Entry}
    (hweaker : weaker = true → exclusive = true)
    (h : Clash schema document differ exclusive a b) : Clash schema document differ weaker a b := by
  induction h generalizing weaker with
  | names together names => exact .names (or_eq_false_of_le hweaker together) names
  | arguments together arguments => exact .arguments (or_eq_false_of_le hweaker together) arguments
  | types hfirst hsecond types => exact .types hfirst hsecond types
  | subfields hfirst hsecond distinct key _ ih =>
      exact .subfields hfirst hsecond distinct key (ih (or_of_le hweaker))

theorem Clash.symm (hdiffer : ∀ a b, differ a b → differ b a) {exclusive : Bool} {a b : Entry}
    (h : Clash schema document differ exclusive a b) :
    Clash schema document differ exclusive b a := by
  induction h with
  | names together names =>
      rw [areExclusive_comm] at together
      exact .names together names.symm
  | arguments together arguments =>
      rw [areExclusive_comm] at together
      exact .arguments together (hdiffer _ _ arguments)
  | types hfirst hsecond types =>
      rw [Schema.typesConflict_comm] at types
      exact .types hsecond hfirst types
  | subfields hfirst hsecond distinct key _ ih =>
      rw [areExclusive_comm] at ih
      exact .subfields hsecond hfirst distinct.symm key.symm ih

end

end Merge

end QueryAudit
