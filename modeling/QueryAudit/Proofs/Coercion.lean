import QueryAudit.Proofs.Schemas
import QueryAudit.Proofs.Substitution
import QueryAudit.Value.Check
import QueryAudit.Value.Json

/-!
# Checking values and coercing them

A value is judged at a type and coerced to a type by two recursions that take lists, single items,
objects and scalars in different orders. Whatever is accepted can be coerced. A coerced value is in
the form that its type asks for, so coercing it once more gives it back, as long as converters keep
what they gave.
-/

namespace QueryAudit

/-! ## Keys of objects -/

namespace Value

variable {ν : Type}

mutual

/-- Whether no object in a value has two fields of one name. -/
def keysDistinct : Value ν → Bool
  | .list items => itemsKeysDistinct items
  | .object fields => decide (NameTable.names fields).Nodup && fieldsKeysDistinct fields
  | _ => true

/-- `keysDistinct` for the items of a list. -/
def itemsKeysDistinct : List (Value ν) → Bool
  | [] => true
  | item :: rest => keysDistinct item && itemsKeysDistinct rest

/-- `keysDistinct` for the fields of an object. -/
def fieldsKeysDistinct : List (Name × Value ν) → Bool
  | [] => true
  | (_, value) :: rest => keysDistinct value && fieldsKeysDistinct rest

end

@[simp] theorem keysDistinct_list (items : List (Value ν)) :
    keysDistinct (.list items) = true ↔ ∀ item ∈ items, item.keysDistinct = true := by
  rw [keysDistinct]
  induction items with
  | nil => simp [itemsKeysDistinct]
  | cons item rest ih => simp [itemsKeysDistinct, ih]

@[simp] theorem keysDistinct_object (fields : List (Name × Value ν)) :
    keysDistinct (.object fields) = true ↔
      (NameTable.names fields).Nodup ∧ ∀ field ∈ fields, field.2.keysDistinct = true := by
  have hfields : fieldsKeysDistinct fields = true ↔
      ∀ field ∈ fields, field.2.keysDistinct = true := by
    induction fields with
    | nil => simp [fieldsKeysDistinct]
    | cons field rest ih => simp [fieldsKeysDistinct, ih]
  simp [keysDistinct, hfields]

/-- An object whose fields were put into a table one by one. -/
theorem keysDistinct_merge {fields : List (Name × Value ν)}
    (h : ∀ field ∈ fields, field.2.keysDistinct = true) :
    keysDistinct (.object (NameTable.merge [] fields)) = true := by
  have hfold : ∀ table : NameTable (Value ν), keysDistinct (.object table) = true →
      keysDistinct (.object (NameTable.merge table fields)) = true := by
    induction fields with
    | nil => exact fun _ htable => htable
    | cons field rest ih =>
        obtain ⟨hfield, hrest⟩ := List.forall_mem_cons.mp h
        intro table htable
        obtain ⟨hnodup, hvalues⟩ := (keysDistinct_object table).mp htable
        refine ih hrest _ ((keysDistinct_object _).mpr ⟨?_, fun other hother => ?_⟩)
        · exact NameTable.nodup_names_insert _ _ hnodup
        · rcases NameTable.mem_insert hother with rfl | hold
          · exact hfield
          · exact hvalues other hold
  exact hfold [] (by simp [NameTable.names])

end Value

namespace Grammar.Reader

/-- Values as the grammar reads them. -/
theorem value_yields {ν : Type} {variableReader : Reader (Value ν)}
    (h : Yields variableReader fun value => value.keysDistinct = true) :
    Yields (value variableReader) fun value => value.keysDistinct = true := by
  have hupTo : ∀ depth,
      Yields (valueUpTo variableReader depth) fun value => value.keysDistinct = true := by
    intro depth
    induction depth with
    | zero => exact fun cursor result after hread => nomatch hread
    | succ depth ih =>
        have hfield : Yields (objectField (valueUpTo variableReader depth))
            fun field => field.2.keysDistinct = true :=
          Yields.after fun key => Yields.after fun _ =>
            ih.bind fun value hvalue => Yields.pure hvalue
        have hlist : Yields (Value.list <$> (mark "[" *>
            zeroOrMore (valueUpTo variableReader depth) <* mark "]"))
            fun value => value.keysDistinct = true :=
          Yields.change (ih.zeroOrMore.between _ _) fun items hitems =>
            (Value.keysDistinct_list items).mpr hitems
        have hobject : Yields ((fun fields => Value.object (NameTable.merge [] fields)) <$>
            (mark "\x7b" *> zeroOrMore (objectField (valueUpTo variableReader depth)) <*
              mark "\x7d")) fun value => value.keysDistinct = true :=
          Yields.change (hfield.zeroOrMore.between _ _) fun fields hfields =>
            Value.keysDistinct_merge hfields
        refine h.orElse (Yields.orElse (Yields.map fun _ => ?number)
          (Yields.orElse (Yields.map fun _ => ?string) (Yields.orElse (Yields.map fun _ => ?boolean)
            (Yields.orElse (Yields.after fun _ => Yields.pure ?null)
              (Yields.orElse (Yields.map fun _ => ?enum) (hlist.orElse hobject))))))
        all_goals rfl
  exact fun cursor => hupTo _ cursor

theorem literal_yields : Yields literal fun value => value.keysDistinct = true :=
  value_yields (Yields.map fun _ => rfl)

end Grammar.Reader

namespace Json

theorem items_all {α : Type} {p : α → Prop} {item : List Char → Option (α × List Char)}
    (h : ∀ chars result rest, item chars = some (result, rest) → p result) (close : Char)
    (rounds : Nat) {chars rest : List Char} {results : List α}
    (hread : items item close rounds chars = some (results, rest)) :
    ∀ result ∈ results, p result := by
  induction rounds generalizing chars rest results with
  | zero => cases hread
  | succ rounds ih =>
      obtain ⟨⟨first, after⟩, hfirst, hread⟩ := Option.bind_eq_some_iff.mp hread
      have hone : p first := h _ _ _ hfirst
      dsimp only at hread
      split at hread
      · obtain ⟨⟨others, left⟩, hothers, hread⟩ := Option.bind_eq_some_iff.mp hread
        cases hread
        exact List.forall_mem_cons.mpr ⟨hone, ih hothers⟩
      · split at hread
        · cases hread
          simpa using hone
        · cases hread
      · cases hread

theorem group_all {α : Type} {p : α → Prop} {item : List Char → Option (α × List Char)}
    (h : ∀ chars result rest, item chars = some (result, rest) → p result) (close : Char)
    {chars rest : List Char} {results : List α}
    (hread : group item close chars = some (results, rest)) : ∀ result ∈ results, p result := by
  unfold group at hread
  split at hread
  · split at hread
    · cases hread
      simp
    · exact items_all h close _ hread
  · cases hread

/-- Constants as they are read from JSON. -/
theorem keysDistinct_value (depth : Nat) {chars rest : List Char} {constant : Constant}
    (h : value depth chars = some (constant, rest)) : constant.keysDistinct = true := by
  induction depth generalizing chars rest constant with
  | zero => cases h
  | succ depth ih =>
      have hfield : ∀ chars result rest, field (value depth) chars = some (result, rest) →
          result.2.keysDistinct = true := by
        intro chars result rest hread
        unfold field at hread
        split at hread
        · obtain ⟨⟨key, after⟩, -, hread⟩ := Option.bind_eq_some_iff.mp hread
          dsimp only at hread
          split at hread
          · obtain ⟨⟨inner, left⟩, hinner, hread⟩ := Option.bind_eq_some_iff.mp hread
            cases hread
            exact ih hinner
          · cases hread
        · cases hread
      unfold value at h
      split at h
      · cases h
        rfl
      · cases h
        rfl
      · cases h
        rfl
      · obtain ⟨_, -, heq⟩ := Option.map_eq_some_iff.mp h
        cases heq
        rfl
      · obtain ⟨⟨items, left⟩, hitems, heq⟩ := Option.map_eq_some_iff.mp h
        cases heq
        exact (Value.keysDistinct_list items).mpr
          (group_all (fun _ _ _ hitem => ih hitem) _ hitems)
      · obtain ⟨⟨fields, left⟩, hfields, heq⟩ := Option.map_eq_some_iff.mp h
        cases heq
        have hmerged := (Value.keysDistinct_object _).mp
          (Value.keysDistinct_merge (group_all hfield _ hfields))
        have hperm := List.mergeSort_perm (NameTable.merge [] fields) fun a b => a.1 ≤ b.1
        refine (Value.keysDistinct_object _).mpr ⟨?_, fun entry hentry => ?_⟩
        · exact ((hperm.map Prod.fst).nodup_iff).mpr hmerged.1
        · exact hmerged.2 entry (hperm.mem_iff.mp hentry)
      · obtain ⟨_, -, heq⟩ := Option.map_eq_some_iff.mp h
        cases heq
        rfl

theorem keysDistinct_read {text : String} {constant : Constant}
    (h : read text = some constant) : constant.keysDistinct = true := by
  unfold read at h
  dsimp only at h
  split at h
  · rename_i found rest hvalue
    split at h
    · cases h
      exact keysDistinct_value _ hvalue
    · cases h
  · cases h

end Json

/-! ## Parts of a coerced value -/

namespace Value

variable {ν μ : Type} {schema : Schema}

theorem coerceItems_isSome {items : List (Value ν)} {element : TypeRef}
    (h : ∀ item ∈ items, (coerce schema item (some element)).isSome = true) :
    (coerceItems schema items element).isSome = true := by
  induction items with
  | nil => rfl
  | cons item rest ih =>
      obtain ⟨hitem, hrest⟩ := List.forall_mem_cons.mp h
      obtain ⟨constant, hconstant⟩ := Option.isSome_iff_exists.mp hitem
      obtain ⟨others, hothers⟩ := Option.isSome_iff_exists.mp (ih hrest)
      rw [coerceItems, hconstant, hothers]
      rfl

theorem coerceFields_isSome {inputs : NameTable InputValue} {fields : List (Name × Value ν)}
    (h : ∀ field ∈ fields,
      (coerce schema field.2 ((inputs.find? field.1).map InputValue.type)).isSome = true) :
    (coerceFields schema inputs fields).isSome = true := by
  induction fields with
  | nil => rfl
  | cons field rest ih =>
      obtain ⟨hfield, hrest⟩ := List.forall_mem_cons.mp h
      obtain ⟨constant, hconstant⟩ := Option.isSome_iff_exists.mp hfield
      obtain ⟨others, hothers⟩ := Option.isSome_iff_exists.mp (ih hrest)
      rw [coerceFields, hconstant, hothers]
      rfl

theorem coerceItems_map_congr {α : Type} {first : α → Value ν} {second : α → Value μ}
    {items : List α} {element : TypeRef} (h : ∀ item ∈ items,
      coerce schema (first item) (some element) = coerce schema (second item) (some element)) :
    coerceItems schema (items.map first) element =
      coerceItems schema (items.map second) element := by
  induction items with
  | nil => rfl
  | cons item rest ih =>
      obtain ⟨hitem, hrest⟩ := List.forall_mem_cons.mp h
      simp only [List.map_cons, coerceItems, hitem, ih hrest]

theorem coerceFields_map_congr {α : Type} {name : α → Name} {first : α → Value ν}
    {second : α → Value μ} {inputs : NameTable InputValue} {fields : List α}
    (h : ∀ field ∈ fields, ∀ type,
      coerce schema (first field) type = coerce schema (second field) type) :
    coerceFields schema inputs (fields.map fun field => (name field, first field)) =
      coerceFields schema inputs (fields.map fun field => (name field, second field)) := by
  induction fields with
  | nil => rfl
  | cons field rest ih =>
      obtain ⟨hfield, hrest⟩ := List.forall_mem_cons.mp h
      simp only [List.map_cons, coerceFields, hfield, ih hrest]

theorem inputObject_or_other (schema : Schema) (type : TypeRef) :
    (∃ definition, schema.concreteType? type = some definition ∧
        definition.kind = .inputObject) ∨
      ∀ definition, schema.concreteType? type = some definition →
        definition.kind ≠ .inputObject := by
  by_cases h : ∃ definition, schema.concreteType? type = some definition ∧
      definition.kind = .inputObject
  · exact .inl h
  · exact .inr fun definition htype hkind => h ⟨definition, htype, hkind⟩

/-- At an input object type the fields of an object are coerced. -/
theorem coerce_object_of_input {type : TypeRef} {definition : TypeDefinition}
    (htype : schema.concreteType? type = some definition) (hkind : definition.kind = .inputObject)
    (fields : List (Name × Value ν)) :
    coerce schema (.object fields) (some type) =
      ((coerceFields schema definition.inputFields fields).map .object).map (wrap type) := by
  simp only [coerce, htype, hkind]

/-- At any other type an object is coerced as values that are none. -/
theorem coerce_object_of_other {type : TypeRef}
    (h : ∀ definition, schema.concreteType? type = some definition →
      definition.kind ≠ .inputObject) (fields : List (Name × Value ν)) :
    coerce schema (.object fields) (some type) =
      (coerceNamed schema (.object fields : Value ν) type.concreteName).map (wrap type) := by
  rw [coerce]
  cases htype : schema.concreteType? type with
  | none =>
      have hname : schema.type? type.concreteName = none := htype
      simp only [coerceNamed, hname, toConstant?]
  | some definition =>
      cases hkind : definition.kind with
      | inputObject => exact absurd hkind (h definition htype)
      | scalar | enum | object | interface | union => simp only [hkind]

/-- At a named type only the constant that a value is counts. -/
theorem coerceNamed_congr {value : Value ν} {other : Value μ}
    (h : value.toConstant? = other.toConstant?) (name : Name) :
    coerceNamed schema value name = coerceNamed schema other name := by
  unfold coerceNamed
  rw [h]

theorem ofConstant_list (items : List Constant) :
    (ofConstant (.list items) : Value ν) = .list (items.map ofConstant) := by
  rw [ofConstant, bind, bindItems_eq_map]
  rfl

theorem ofConstant_object (fields : List (Name × Constant)) :
    (ofConstant (.object fields) : Value ν) =
      .object (fields.map fun field => (field.1, ofConstant field.2)) := by
  rw [ofConstant, bind, bindFields_eq_map]
  rfl

theorem items_eq_ofConstant {items : List (Value ν)}
    (hitems : ∀ item ∈ items, ∀ constant, item.toConstant? = some constant →
      item = ofConstant constant) {constants : List Constant}
    (h : itemsToConstant? items = some constants) : items = constants.map ofConstant := by
  induction items generalizing constants with
  | nil =>
      cases h
      rfl
  | cons item rest ih =>
      obtain ⟨hitem, hrest⟩ := List.forall_mem_cons.mp hitems
      rw [itemsToConstant?] at h
      split at h
      · rename_i constant others hconstant hothers
        cases h
        rw [List.map_cons, ← hitem constant hconstant, ← ih hrest hothers]
      · cases h

theorem fields_eq_ofConstant {fields : List (Name × Value ν)}
    (hfields : ∀ field ∈ fields, ∀ constant, field.2.toConstant? = some constant →
      field.2 = ofConstant constant) {constants : List (Name × Constant)}
    (h : fieldsToConstant? fields = some constants) :
    fields = constants.map fun field => (field.1, ofConstant field.2) := by
  induction fields generalizing constants with
  | nil =>
      cases h
      rfl
  | cons field rest ih =>
      obtain ⟨hfield, hrest⟩ := List.forall_mem_cons.mp hfields
      rw [fieldsToConstant?] at h
      split at h
      · rename_i constant others hconstant hothers
        cases h
        rw [List.map_cons, ← hfield constant hconstant, ← ih hrest hothers]
      · cases h

/-- A value without variables is the constant that it is. -/
theorem eq_ofConstant {value : Value ν} {constant : Constant}
    (h : value.toConstant? = some constant) : value = ofConstant constant := by
  induction value using Value.induction generalizing constant with
  | var x => cases h
  | null | number n | string s | boolean b | enum e =>
      cases h
      rfl
  | list items ih =>
      obtain ⟨constants, hconstants, rfl⟩ := Option.map_eq_some_iff.mp h
      rw [ofConstant_list, ← items_eq_ofConstant (fun item hitem _ => ih item hitem) hconstants]
  | object fields ih =>
      obtain ⟨constants, hconstants, rfl⟩ := Option.map_eq_some_iff.mp h
      rw [ofConstant_object,
        ← fields_eq_ofConstant (fun field hfield _ => ih field hfield) hconstants]

theorem keysDistinct_ofConstant (constant : Constant) :
    (ofConstant constant : Value ν).keysDistinct = constant.keysDistinct := by
  rw [Bool.eq_iff_iff]
  induction constant using Value.induction with
  | var x => exact x.elim
  | null | number n | string s | boolean b | enum e => exact Iff.rfl
  | list items ih =>
      rw [ofConstant_list, keysDistinct_list, keysDistinct_list, List.forall_mem_map]
      exact forall₂_congr ih
  | object fields ih =>
      rw [ofConstant_object, keysDistinct_object, keysDistinct_object, List.forall_mem_map]
      refine and_congr ?_ (forall₂_congr ih)
      simp only [NameTable.names, List.map_map, Function.comp_def]

theorem coerceNamed_ofConstant (schema : Schema) (constant : Constant) (name : Name) :
    coerceNamed schema (ofConstant constant : Value ν) name = coerceNamed schema constant name :=
  coerceNamed_congr (by rw [toConstant?_ofConstant, toConstant?_constant]) name

/-- A constant is coerced among literals as it is by itself. -/
theorem coerce_ofConstant (schema : Schema) (constant : Constant) (type : Option TypeRef) :
    coerce schema (ofConstant constant : Value ν) type = coerce schema constant type := by
  induction constant using Value.induction generalizing type with
  | var x => exact x.elim
  | null => rfl
  | number n | string s | boolean b | enum e =>
      cases type with
      | none => rfl
      | some type =>
          exact congrArg (Option.map (wrap type)) (coerceNamed_congr rfl type.concreteName)
  | list items ih =>
      have hlist := ofConstant_list (ν := ν) items
      cases type with
      | none =>
          have hconstant : (ofConstant (.list items) : Value ν).toConstant? = some (.list items) :=
            toConstant?_ofConstant _
          rw [hlist] at hconstant ⊢
          exact hconstant.trans (toConstant?_constant (.list items)).symm
      | some type =>
          cases type with
          | named name nonNull =>
              have hnamed := coerceNamed_ofConstant (ν := ν) schema (.list items) name
              rw [hlist] at hnamed ⊢
              exact hnamed
          | list element nonNull =>
              have hitems := coerceItems_map_congr fun item hitem => ih item hitem (some element)
              rw [List.map_id'] at hitems
              rw [hlist, coerce, coerce, hitems]
  | object fields ih =>
      have hobject := ofConstant_object (ν := ν) fields
      have hconstant : (ofConstant (.object fields) : Value ν).toConstant? =
          some (.object fields) := toConstant?_ofConstant _
      have hnamed := coerceNamed_ofConstant (ν := ν) schema (.object fields)
      have hplain := hconstant.trans (toConstant?_constant (.object fields)).symm
      have hfields : ∀ inputs, coerceFields schema inputs
          (fields.map fun field => (field.1, (ofConstant field.2 : Value ν))) =
            coerceFields schema inputs fields := by
        intro inputs
        have hcongr : coerceFields schema inputs
            (fields.map fun field => (field.1, (ofConstant field.2 : Value ν))) =
              coerceFields schema inputs (fields.map fun field => (field.1, field.2)) :=
          coerceFields_map_congr ih
        rwa [List.map_id'] at hcongr
      rw [hobject] at hplain hnamed ⊢
      cases type with
      | none => exact hplain
      | some type =>
          simp only [toConstant?] at hplain
          simp only [coerce, hfields, hnamed, hplain]

/-! ## What is accepted can be coerced -/

/-- What is no object, or stands at no input object type, is coerced where it is accepted. -/
theorem coerceNamed_isSome {value : Constant} {fields : NameTable Judgement} {name : Name}
    {path : ValuePath} (h : judgeNamed schema value fields name path = none)
    (hobject : ∀ type, schema.type? name = some type → type.kind = .inputObject →
      ∀ fields, value ≠ .object fields) :
    (coerceNamed schema value name).isSome = true := by
  have hconstant := toConstant?_constant value
  unfold judgeNamed at h
  unfold coerceNamed
  cases htype : schema.type? name with
  | none => simp [hconstant]
  | some type =>
      cases hkind : type.kind with
      | scalar =>
          simp only [htype, hkind, hconstant] at h
          simp only [hkind, hconstant, Option.bind_some]
          split at h
          · rename_i result hresult
            rw [hresult]
            rfl
          · cases h
      | inputObject =>
          simp only [htype, hkind] at h
          split at h
          · exact absurd rfl (hobject type htype hkind _)
          · cases h
      | enum | object | interface | union => simp [hkind, hconstant]

theorem coerce_isSome_of_accepts (hschema : schema.AllInputsKeyed) {constant : Constant}
    (hkeys : constant.keysDistinct = true) {type : TypeRef}
    (h : Accepts schema Empty.elim constant type) :
    (coerce schema constant (some type)).isSome = true := by
  induction constant using Value.induction generalizing type with
  | var x => exact x.elim
  | null => rfl
  | number n | string s | boolean b | enum e =>
      rw [Accepts, judge] at h
      rw [coerce, Option.isSome_map]
      exact coerceNamed_isSome h (by simp)
  | list items ih =>
      cases type with
      | named name nonNull =>
          have hjudged : judgeNamed schema _ [] name [] = none := h
          exact coerceNamed_isSome hjudged (by simp)
      | list element nonNull =>
          rw [coerce, Option.isSome_map]
          refine coerceItems_isSome fun item hitem => ?_
          have haccepts := (accepts_list_iff empty_pathFree items element nonNull).mp h
          exact ih item hitem ((keysDistinct_list items).mp hkeys item hitem) (haccepts item hitem)
  | object fields ih =>
      obtain ⟨hnodup, hvalues⟩ := (keysDistinct_object fields).mp hkeys
      rcases inputObject_or_other schema type with ⟨definition, htype, hkind⟩ | hother
      · rw [coerce_object_of_input htype hkind, Option.isSome_map, Option.isSome_map]
        refine coerceFields_isSome fun field hfield => ?_
        obtain ⟨hinputs, hknown⟩ := (accepts_object_iff empty_pathFree htype hkind).mp h
        have hhas := hknown field.1 (List.mem_map_of_mem hfield)
        obtain ⟨input, hinput⟩ := Option.isSome_iff_exists.mp hhas
        have hkeyed : definition.inputFields.Keyed InputValue.name :=
          hschema definition (NameTable.mem_entries_of_find? htype)
        have hjudged := hinputs input (NameTable.mem_entries_of_find? hinput)
        rw [hkeyed.name_of_find? hinput, NameTable.find?_of_mem hnodup hfield] at hjudged
        rw [hinput]
        exact ih field hfield (hvalues field hfield) hjudged
      · rw [coerce_object_of_other hother, Option.isSome_map]
        exact coerceNamed_isSome h fun definition htype hkind =>
          absurd hkind (hother definition htype)

end Value

/-! ## What is coerced stays as it is -/

/-- A converter keeps what it gave. -/
def Converter.Keeps (converter : Converter) : Prop :=
  ∀ value result, converter value = .ok result → converter result = .ok result

namespace Scalar

/-- The converters of the built-in scalars keep what they gave. -/
theorem builtin?_keeps {name : Name} {converter : Converter} (h : builtin? name = some converter) :
    Converter.Keeps converter := by
  unfold builtin? at h
  intro value result hresult
  split at h
  all_goals cases h
  · unfold int at hresult
    split at hresult
    · split at hresult
      · split at hresult
        · cases hresult
          simp_all [int]
        · cases hresult
      · cases hresult
    · cases hresult
  · unfold float at hresult
    split at hresult
    · cases hresult
      rfl
    · cases hresult
  · unfold string at hresult
    split at hresult
    · cases hresult
      rfl
    · cases hresult
  · unfold boolean at hresult
    split at hresult
    · cases hresult
      rfl
    · cases hresult
  · unfold id at hresult
    split at hresult
    · cases hresult
      rfl
    · cases hresult
      rfl
    · cases hresult

end Scalar

/-- The converters registered with a schema keep what they gave. -/
def Schema.ConvertersKeep (schema : Schema) : Prop :=
  ∀ name converter, schema.converters.find? name = some converter → converter.Keeps

theorem Schema.ConvertersKeep.convertScalar {schema : Schema} (h : schema.ConvertersKeep)
    (name : Name) : Converter.Keeps (schema.convertScalar name) := by
  intro value result hresult
  unfold Schema.convertScalar at hresult ⊢
  split at hresult
  · rename_i converter hfind
    exact h name converter hfind value result hresult
  · split at hresult
    · rename_i converter hbuiltin
      exact Scalar.builtin?_keeps hbuiltin value result hresult
    · rfl

namespace Value

variable {ν : Type} {schema : Schema}

/-- Coercing a constant to a type gives it back. -/
def Coerced (schema : Schema) (type : Option TypeRef) (constant : Constant) : Prop :=
  coerce schema constant type = some constant

theorem coerced_none (constant : Constant) : Coerced schema none constant := by
  have hself := toConstant?_constant constant
  cases constant with
  | var x => exact x.elim
  | null | number n | string s | boolean b | enum e => rfl
  | list items | object fields => exact hself

theorem coerce_named_nonNull (value : Value ν) (name : Name) (first second : Bool) :
    coerce schema value (some (.named name first)) =
      coerce schema value (some (.named name second)) := by
  cases value <;> rfl

/-- A value that is coerced at the core of a type is coerced at the type, once it is in lists. -/
theorem Coerced.wrap {type : TypeRef} {nonNull : Bool} {constant : Constant}
    (h : Coerced schema (some (.named type.concreteName nonNull)) constant) :
    Coerced schema (some type) (Value.wrap type constant) := by
  induction type with
  | named name other => exact (coerce_named_nonNull constant name other nonNull).trans h
  | list element other ih =>
      have hinner : coerce schema (Value.wrap element constant) (some element) = _ := ih h
      simp only [Coerced, Value.wrap, coerce, coerceItems, hinner, Option.map_some]

theorem coerced_of_coerceNamed {constant : Constant} {name : Name} (nonNull : Bool)
    (h : coerceNamed schema constant name = some constant) :
    Coerced schema (some (.named name nonNull)) constant := by
  unfold Coerced
  cases constant with
  | var x => exact x.elim
  | null => rfl
  | number n | string s | boolean b | enum e =>
      rw [coerce, TypeRef.concreteName, h]
      rfl
  | list items => exact h
  | object fields =>
      have hother : ∀ definition, schema.concreteType? (.named name nonNull) = some definition →
          definition.kind ≠ .inputObject := by
        intro definition htype hkind
        have hname : schema.type? name = some definition := htype
        simp [coerceNamed, hname, hkind] at h
      rw [coerce_object_of_other hother, TypeRef.concreteName, h]
      rfl

theorem coerceNamed_coerceNamed (hkeep : schema.ConvertersKeep) {value : Value ν} {name : Name}
    {constant : Constant} (h : coerceNamed schema value name = some constant) :
    coerceNamed schema constant name = some constant := by
  have hself := toConstant?_constant constant
  unfold coerceNamed at h ⊢
  cases htype : schema.type? name with
  | none => exact hself
  | some type =>
      cases hkind : type.kind with
      | scalar =>
          simp only [htype, hkind] at h
          obtain ⟨given, -, hgiven⟩ := Option.bind_eq_some_iff.mp h
          have hok : schema.convertScalar name given = .ok constant := by
            cases hresult : schema.convertScalar name given with
            | error reason => simp [hresult, Except.toOption] at hgiven
            | ok result => simpa [hresult, Except.toOption] using hgiven
          simp only [hkind, hself, Option.bind_some, hkeep.convertScalar name given constant hok]
          rfl
      | inputObject => simp [htype, hkind] at h
      | enum | object | interface | union => simpa [hkind] using hself

theorem coerceItems_coerceItems {items : List (Value ν)} {element : TypeRef}
    (hitems : ∀ item ∈ items, ∀ constant, coerce schema item (some element) = some constant →
      Coerced schema (some element) constant)
    {constants : List Constant} (h : coerceItems schema items element = some constants) :
    coerceItems schema constants element = some constants := by
  induction items generalizing constants with
  | nil =>
      cases h
      rfl
  | cons item rest ih =>
      obtain ⟨hitem, hrest⟩ := List.forall_mem_cons.mp hitems
      rw [coerceItems] at h
      split at h
      · rename_i constant others hconstant hothers
        cases h
        have hagain : coerce schema constant (some element) = some constant :=
          hitem constant hconstant
        rw [coerceItems, hagain, ih hrest hothers]
      · cases h

theorem coerceFields_coerceFields {inputs : NameTable InputValue} {fields : List (Name × Value ν)}
    (hfields : ∀ field ∈ fields, ∀ type constant, coerce schema field.2 type = some constant →
      Coerced schema type constant)
    {constants : List (Name × Constant)}
    (h : coerceFields schema inputs fields = some constants) :
    coerceFields schema inputs constants = some constants := by
  induction fields generalizing constants with
  | nil =>
      cases h
      rfl
  | cons field rest ih =>
      obtain ⟨hfield, hrest⟩ := List.forall_mem_cons.mp hfields
      rw [coerceFields] at h
      split at h
      · rename_i constant others hconstant hothers
        cases h
        have hagain : coerce schema constant ((inputs.find? field.1).map InputValue.type) =
            some constant := hfield _ constant hconstant
        rw [coerceFields, hagain, ih hrest hothers]
      · cases h

/-- The induction follows the value. A list is coerced item by item and an object field by field;
anything else is converted at the core of its type and put into lists. -/
theorem coerced_coerce (hkeep : schema.ConvertersKeep) {value : Value ν} {type : Option TypeRef}
    {constant : Constant} (h : coerce schema value type = some constant) :
    Coerced schema type constant := by
  induction value using Value.induction generalizing type constant with
  | var x => cases h
  | null =>
      cases h
      rfl
  | number n | string s | boolean b | enum e =>
      cases type with
      | none => exact coerced_none constant
      | some type =>
          rw [coerce] at h
          obtain ⟨core, hcore, rfl⟩ := Option.map_eq_some_iff.mp h
          exact (coerced_of_coerceNamed false (coerceNamed_coerceNamed hkeep hcore)).wrap
  | list items ih =>
      rcases type with - | ⟨name, nonNull⟩ | ⟨element, nonNull⟩
      · exact coerced_none constant
      · exact coerced_of_coerceNamed nonNull (coerceNamed_coerceNamed hkeep h)
      · rw [coerce] at h
        obtain ⟨constants, hconstants, rfl⟩ := Option.map_eq_some_iff.mp h
        have hagain := coerceItems_coerceItems (fun item hitem _ => ih item hitem) hconstants
        rw [Coerced, coerce, hagain]
        rfl
  | object fields ih =>
      cases type with
      | none => exact coerced_none constant
      | some type =>
          rcases inputObject_or_other schema type with ⟨definition, htype, hkind⟩ | hother
          · rw [coerce_object_of_input htype hkind, Option.map_map] at h
            obtain ⟨constants, hconstants, rfl⟩ := Option.map_eq_some_iff.mp h
            have hagain := coerceFields_coerceFields (fun field hfield _ _ => ih field hfield)
              hconstants
            have hnamed : schema.concreteType? (.named type.concreteName false) =
                some definition := htype
            have hcore : Coerced schema (some (.named type.concreteName false))
                (.object constants) := by
              rw [Coerced, coerce_object_of_input hnamed hkind, hagain]
              rfl
            exact hcore.wrap
          · rw [coerce_object_of_other hother] at h
            obtain ⟨core, hcore, rfl⟩ := Option.map_eq_some_iff.mp h
            exact (coerced_of_coerceNamed false (coerceNamed_coerceNamed hkeep hcore)).wrap

end Value

/-- Checking and coercing agree, in every schema that can be had. A literal without variables that
is accepted at a type can be coerced to the type. If the registered converters keep what they gave,
coercing the result again gives it back. Literals are read with the fields of an object under
different names, and so are the constants that are supplied. -/
theorem accepted_literals_coerce {schema : Schema} (hschema : schema.Built) :
    (∀ (supplied : Variables) (type : TypeRef) (value : Literal) (path : ValuePath),
      value.toConstant?.isSome = true → value.keysDistinct = true →
      value.fault? schema supplied type path = none →
        ∃ constant, value.coerce schema (some type) = some constant) ∧
    ((∀ name converter, schema.converters.find? name = some converter →
        ∀ value result, converter value = .ok result → converter result = .ok result) →
      ∀ (type : Option TypeRef) (value : Literal) (constant : Constant),
        value.coerce schema type = some constant →
          (Value.ofConstant constant : Literal).coerce schema type = some constant) ∧
    (∀ cursor value after, Grammar.Reader.literal cursor = some (value, after) →
      value.keysDistinct = true) ∧
    ∀ text constant, Json.read text = some constant → constant.keysDistinct = true := by
  refine ⟨?_, ?_, Grammar.Reader.literal_yields, fun _ _ => Json.keysDistinct_read⟩
  · intro supplied type value path hvalue hkeys haccepted
    obtain ⟨constant, hconstant⟩ := Option.isSome_iff_exists.mp hvalue
    obtain rfl := Value.eq_ofConstant hconstant
    rw [Value.keysDistinct_ofConstant] at hkeys
    rw [Value.fault?, Value.judge_ofConstant, Value.judgeConstant,
      Value.accepts_iff Value.empty_pathFree] at haccepted
    rw [Value.coerce_ofConstant]
    exact Option.isSome_iff_exists.mp
      (Value.coerce_isSome_of_accepts hschema.allInputsKeyed hkeys haccepted)
  · intro hkeep type value constant h
    rw [Value.coerce_ofConstant]
    exact Value.coerced_coerce hkeep h

/-- A converter that keeps strings and turns everything else into null. -/
def stringOrNull : Converter
  | .string text => .ok (.string text)
  | _ => .ok .null

/-- A single object at a list type, with a single item at a list type, an integer at `ID`, an enum
name, and a number that the converter registered for a scalar turns into null. -/
theorem accepted_literals_coerce_nested :
    ∃ (schema : Schema) (type : TypeRef) (value : Literal) (constant : Constant), schema.Built ∧
      value.fault? schema [] type [] = none ∧ value.coerce schema (some type) = some constant ∧
      (Value.ofConstant constant : Literal).coerce schema (some type) = some constant ∧
      constant.text = "[\x7bx: [3],id: \"7\",e: A,l: null\x7d]" := by
  let type : TypeRef := .list (.named "I" true) false
  let value : Literal := .object
    [("x", .number (.integer 3)), ("id", .number (.integer 7)), ("e", .enum "A"),
      ("l", .number (.integer 0))]
  have hpass : Schema.textsPass (fun base _ =>
      let schema := base.withConverter "L" stringOrNull
      decide (base.converters.names = []) &&
        decide (value.fault? schema [] type [] = none) &&
        (value.coerce schema (some type)).map Value.text ==
          some "[\x7bx: [3],id: \"7\",e: A,l: null\x7d]")
      "scalar L enum E{A B} input I{x:[Int!]! id:ID e:E l:L y:Int=1} type Query{a:Int}"
      "{a}" = true := by decide +kernel
  obtain ⟨base, _, hbase, hcheck⟩ := Schema.exists_of_textsPass hpass
  simp only [Bool.and_eq_true, decide_eq_true_eq, beq_iff_eq] at hcheck
  obtain ⟨⟨hnone, haccepted⟩, htext⟩ := hcheck
  have hconverters : base.converters = [] := List.map_eq_nil_iff.mp hnone
  obtain ⟨hcoerces, hagain, -⟩ := accepted_literals_coerce (hbase.withConverter "L" stringOrNull)
  obtain ⟨constant, hconstant⟩ := hcoerces [] type value [] rfl (by decide +kernel) haccepted
  refine ⟨_, type, value, constant, hbase.withConverter "L" stringOrNull, haccepted, hconstant,
    hagain ?_ _ value constant hconstant, ?_⟩
  · intro name converter hfind given result hresult
    rw [Schema.withConverter, hconverters, NameTable.insert, NameTable.find?] at hfind
    split at hfind
    · cases hfind
      cases given <;> cases hresult <;> rfl
    · cases hfind
  · rw [hconstant] at htext
    exact Option.some.inj htext

end QueryAudit
