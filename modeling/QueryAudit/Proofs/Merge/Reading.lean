import QueryAudit.Proofs.Merge.Opening

/-!
# What a comparison of two fields reads

A search that starts with the comparison of two fields gathers their sub-selections first, each on
the type of its definition. Every other set has one type on which it is gathered: that of a
fragment is its condition, and that of the sub-selections of a field follows from the type on which
the field is selected. So whatever the order of the search, it finds the same in a set.
-/

namespace QueryAudit.Merge

/-- An entry is a field of a document, on whatever type and with whatever definition. -/
def Entry.IsIn (schema : Schema) (document : Document) (entry : Entry) : Prop :=
  ∃ number address type siblings, entry.address = number :: address ∧
    document.setAt? schema address = some (type, siblings) ∧
    siblings[number]? = some (.field entry.field entry.selections)

/-- Two entries are fields of a document, and if they are one field they have one definition. -/
structure Comparable (schema : Schema) (document : Document) (x y : Entry) : Prop where
  first : x.IsIn schema document
  second : y.IsIn schema document
  same : x.address = y.address → x.definition = y.definition

/-- The type on which the sub-selections of an entry are gathered by a search that has gathered
those of two others. -/
def Entry.scopeAfter (schema : Schema) (entry x y : Entry) : Option TypeDefinition :=
  if entry.address = x.address then x.scope schema
  else if entry.address = y.address then y.scope schema
  else entry.scope schema

/-- The type on which the set at an address is gathered by a search that has gathered the
sub-selections of two fields. -/
def typeAt (schema : Schema) (document : Document) (x y : Entry) :
    Address → Option TypeDefinition
  | [] => none
  | [number] => document.definitions[number]?.bind (Definition.scope schema)
  | number :: above :: address =>
      if number :: above :: address = x.address then x.scope schema
      else if number :: above :: address = y.address then y.scope schema
      else
        (document.setAt? schema (above :: address)).bind fun outer =>
          (outer.2[number]?.bind (Selection.inside? schema
            (typeAt schema document x y (above :: address)))).bind Prod.fst

section

variable {schema : Schema} {document : Document} {x y : Entry}

theorem Entry.IsIn.stands {entry : Entry} (h : entry.IsIn schema document) :
    ∃ type, document.setAt? schema entry.address = some (type, entry.selections) := by
  obtain ⟨number, address, type, siblings, haddress, hset, hitem⟩ := h
  rw [haddress]
  exact ⟨_, Document.setAt?_item hset hitem rfl⟩

theorem Entry.IsIn.address_ne_of_inline {entry : Entry} (h : entry.IsIn schema document)
    {number : Nat} {address : Address} {type : Option TypeDefinition} {siblings : SelectionSet}
    (hset : document.setAt? schema address = some (type, siblings)) {head : InlineFragment}
    {inner : SelectionSet} (hitem : siblings[number]? = some (.inline head inner)) :
    number :: address ≠ entry.address := by
  intro heq
  obtain ⟨position, above, other, others, haddress, hother, hfield⟩ := h
  rw [haddress] at heq
  cases heq
  rw [hset] at hother
  cases hother
  rw [hitem] at hfield
  cases hfield

theorem Entry.IsIn.exists_address {entry : Entry} (h : entry.IsIn schema document) :
    ∃ number above address, entry.address = number :: above :: address := by
  obtain ⟨number, address, type, siblings, haddress, hset, -⟩ := h
  cases address with
  | nil => cases hset
  | cons above address => exact ⟨number, above, address, haddress⟩

theorem typeAt_first (h : Comparable schema document x y) :
    typeAt schema document x y x.address = x.scope schema := by
  obtain ⟨number, above, address, haddress⟩ := h.first.exists_address
  rw [haddress, typeAt, if_pos haddress.symm]

theorem typeAt_second (h : Comparable schema document x y) :
    typeAt schema document x y y.address = y.scope schema := by
  by_cases hsame : y.address = x.address
  · rw [hsame, typeAt_first h, Entry.scope, Entry.scope, h.same hsame.symm]
  · obtain ⟨number, above, address, haddress⟩ := h.second.exists_address
    rw [haddress, typeAt, ← haddress, if_neg hsame, if_pos rfl]

theorem typeAt_item {number : Nat} {address : Address} {outer type : Option TypeDefinition}
    {siblings selections : SelectionSet} {selection : Selection}
    (houter : document.setAt? schema address = some (outer, siblings))
    (hselection : siblings[number]? = some selection)
    (hinside : selection.inside? schema (typeAt schema document x y address) =
      some (type, selections))
    (hx : number :: address ≠ x.address) (hy : number :: address ≠ y.address) :
    typeAt schema document x y (number :: address) = type := by
  cases address with
  | nil => cases houter
  | cons above rest =>
      rw [typeAt, if_neg hx, if_neg hy, houter, Option.bind_some, hselection, Option.bind_some,
        hinside, Option.bind_some]

/-- The sets on the types on which a search gathers them that has gathered the sub-selections of two
fields, and the fields in them. -/
@[reducible] def Sites.reading (schema : Schema) (document : Document) (x y : Entry) :
    Sites schema document where
  Set parent address selections := parent = typeAt schema document x y address ∧
    ∃ type, document.setAt? schema address = some (type, selections)
  Field entry := entry.scopeAfter schema x y = typeAt schema document x y entry.address ∧
    ∃ type, document.setAt? schema entry.address = some (type, entry.selections)
  Held address := address = x.address ∨ address = y.address
  stands hset := hset.2
  located hlocate := by
    obtain ⟨number, rfl, hdefinition⟩ := locate?_eq_some hlocate
    refine ⟨?_, _, Document.setAt?_definition hdefinition⟩
    rw [typeAt, hdefinition]
    rfl
  below {entry} hentry := by
    refine ⟨⟨_, rfl, hentry.2⟩, ?_⟩
    by_cases hx : entry.address = x.address
    · exact .inl (.inl hx)
    · by_cases hy : entry.address = y.address
      · exact .inl (.inr hy)
      · refine .inr ⟨?_, hentry.2⟩
        rw [← hentry.1, Entry.scopeAfter, if_neg hx, if_neg hy]

namespace Comparable

variable (h : Comparable schema document x y)

include h

theorem set_first :
    (Sites.reading schema document x y).Set (x.scope schema) x.address x.selections :=
  ⟨(typeAt_first h).symm, h.first.stands⟩

theorem set_second :
    (Sites.reading schema document x y).Set (y.scope schema) y.address y.selections :=
  ⟨(typeAt_second h).symm, h.second.stands⟩

theorem field_first : (Sites.reading schema document x y).Field x := by
  refine ⟨?_, h.first.stands⟩
  rw [typeAt_first h, Entry.scopeAfter, if_pos rfl]

theorem field_second : (Sites.reading schema document x y).Field y := by
  refine ⟨?_, h.second.stands⟩
  unfold Entry.scopeAfter
  by_cases hsame : y.address = x.address
  · rw [if_pos hsame, hsame, typeAt_first h]
  · rw [if_neg hsame, if_pos rfl, typeAt_second h]

end Comparable

theorem Sites.reading_coherent (h : Comparable schema document x y) :
    (Sites.reading schema document x y).Coherent := by
  have hinline : ReachesInline schema (Sites.reading schema document x y).Set := by
    rintro parent address all number head inner ⟨rfl, type, hset⟩ hitem
    have hx := h.first.address_ne_of_inline hset hitem
    have hy := h.second.address_ne_of_inline hset hitem
    exact ⟨(typeAt_item hset hitem rfl hx hy).symm, _, Document.setAt?_item hset hitem rfl⟩
  refine ⟨?_, ?_, ?_⟩
  · intro parent address selections entry hset hentry
    obtain ⟨type, above, siblings, position, ⟨rfl, outer, houter⟩, hfield, heq⟩ :=
      hinline.exists_field hset hentry
    have haddress : entry.address = position :: above := by rw [heq]
    refine ⟨?_, _, haddress ▸ Document.setAt?_item houter hfield rfl⟩
    unfold Entry.scopeAfter
    by_cases hx : entry.address = x.address
    · rw [if_pos hx, hx, typeAt_first h]
    · by_cases hy : entry.address = y.address
      · rw [if_neg hx, if_pos hy, hy, typeAt_second h]
      · rw [if_neg hx, if_neg hy]
        rw [haddress] at hx hy ⊢
        rw [typeAt_item houter hfield rfl hx hy, Entry.scope, heq]
  · rintro p q address s t entry hp hq hentry
    obtain rfl := Sites.selections_eq hp hq
    obtain rfl := hp.1.trans hq.1.symm
    exact ⟨entry, hentry, rfl⟩
  · rintro p q address s t name hp hq hspread
    obtain rfl := Sites.selections_eq hp hq
    obtain rfl := hp.1.trans hq.1.symm
    exact hspread

end

end QueryAudit.Merge
