import Mathlib.Data.List.Basic
import Mathlib.Data.List.Induction
import QueryAudit.Proofs.Schemas

/-!
# What declarations add up to

A text may declare a type several times. The last definition of a name stands, together with the
extensions that follow it; where a name is never defined, all its extensions stand. The type of a
schema is merged from what stands under its name. Then the built-in types come in where nothing
stands, the query type gets the fields of introspection, and interfaces get the objects that
implement them.
-/

namespace QueryAudit

/-! ## Members -/

/-- What a type can have, by name. The objects of a type are those that a union lists, or those that
implement an interface. -/
inductive Member where
  | field (name : Name)
  | enumValue (name : Name)
  | inputField (name : Name)
  | interface (name : Name)
  | object (name : Name)
deriving DecidableEq, Repr

theorem mem_addNames {names more : List Name} {name : Name} :
    name ∈ addNames names more ↔ name ∈ names ∨ name ∈ more := by
  unfold addNames
  induction more generalizing names with
  | nil => simp
  | cons first rest ih =>
      have hfirst : name ∈ addName names first ↔ name ∈ names ∨ name = first := by
        unfold addName
        split
        · rename_i hmem
          exact ⟨.inl, fun h => h.elim id fun heq => heq ▸ hmem⟩
        · simp
      rw [List.foldl_cons, ih, hfirst, List.mem_cons, or_assoc]

namespace TypeDefinition

def Has (type : TypeDefinition) : Member → Prop
  | .field name => name ∈ type.fields.names
  | .enumValue name => name ∈ type.enumValues.names
  | .inputField name => name ∈ type.inputFields.names
  | .interface name => name ∈ type.implements
  | .object name => name ∈ type.members

instance (type : TypeDefinition) (member : Member) : Decidable (type.Has member) := by
  cases member <;> unfold Has <;> infer_instance

theorem has_extend {type extension : TypeDefinition} {member : Member} :
    (type.extend extension).Has member ↔ type.Has member ∨ extension.Has member := by
  cases member with
  | field name => exact NameTable.mem_names_merge
  | enumValue name => exact NameTable.mem_names_merge
  | inputField name => exact NameTable.mem_names_merge
  | interface name => exact mem_addNames
  | object name => exact mem_addNames

/-- The first of some types, extended by the others in turn. -/
def merged : List TypeDefinition → Option TypeDefinition
  | [] => none
  | first :: others => some (others.foldl extend first)

theorem merged_concat (types : List TypeDefinition) (type : TypeDefinition) :
    merged (types ++ [type]) =
      some (match merged types with
        | some base => base.extend type
        | none => type) := by
  cases types with
  | nil => rfl
  | cons first others => simp [merged, List.foldl_append]

theorem foldl_extend_has {others : List TypeDefinition} {first : TypeDefinition}
    {member : Member} :
    (others.foldl extend first).Has member ↔ ∃ type ∈ first :: others, type.Has member := by
  induction others generalizing first with
  | nil => simp
  | cons second rest ih =>
      rw [List.foldl_cons, ih]
      simp [has_extend, or_assoc]

theorem foldl_extend_kind (others : List TypeDefinition) (first : TypeDefinition) :
    (others.foldl extend first).kind = first.kind := by
  induction others generalizing first with
  | nil => rfl
  | cons second rest ih => exact ih (first.extend second)

theorem has_merged {types : List TypeDefinition} {type : TypeDefinition}
    (h : merged types = some type) {member : Member} :
    type.Has member ↔ ∃ part ∈ types, part.Has member := by
  cases types with
  | nil => cases h
  | cons first others =>
      cases h
      exact foldl_extend_has

end TypeDefinition

/-! ## What stands -/

namespace Declaration

/-- What stands under a name after one more declaration: a definition starts anew, and an extension
joins what stands already. -/
def stand (name : Name) (standing : List TypeDefinition) : Declaration → List TypeDefinition
  | .type isExtension declared =>
      if declared.name = name then if isExtension then standing ++ [declared] else [declared]
      else standing
  | .roots _ | .directive _ _ => standing

/-- The declared types that stand under a name in the end. -/
def standing (name : Name) (declarations : List Declaration) : List TypeDefinition :=
  declarations.foldl (stand name) []

theorem standing_concat (name : Name) (declarations : List Declaration)
    (declaration : Declaration) :
    standing name (declarations ++ [declaration]) =
      stand name (standing name declarations) declaration := by
  simp [standing, List.foldl_append]

/-- A declaration of a type stands in a list of declarations: none that follows defines the type
anew. -/
def Stands (declarations : List Declaration) (declared : TypeDefinition) : Prop :=
  ∃ before isExtension after, declarations = before ++ .type isExtension declared :: after ∧
    ∀ later, .type false later ∈ after → later.name ≠ declared.name

theorem not_stands_nil (declared : TypeDefinition) : ¬ Stands [] declared := by
  rintro ⟨before, isExtension, after, heq, -⟩
  simp at heq

/-- What stands after one more declaration: the type it declares, and what stood before unless the
declaration defines that anew. -/
theorem stands_concat {declarations : List Declaration} {declaration : Declaration}
    {declared : TypeDefinition} :
    Stands (declarations ++ [declaration]) declared ↔
      (∃ isExtension, declaration = .type isExtension declared) ∨
        (Stands declarations declared ∧
          ∀ later, declaration = .type false later → later.name ≠ declared.name) := by
  constructor
  · rintro ⟨before, isExtension, after, heq, hlater⟩
    rcases List.eq_nil_or_concat' after with rfl | ⟨others, last, rfl⟩
    · obtain ⟨-, hlast⟩ := List.append_inj' heq rfl
      exact .inl ⟨isExtension, (List.cons.inj hlast).1⟩
    · rw [← List.cons_append, ← List.append_assoc] at heq
      obtain ⟨hfirst, hlast⟩ := List.append_inj' heq rfl
      obtain rfl : declaration = last := (List.cons.inj hlast).1
      refine .inr ⟨⟨before, isExtension, others, hfirst, fun later hmem => ?_⟩, fun later hdef => ?_⟩
      · exact hlater later (List.mem_append_left _ hmem)
      · exact hlater later (List.mem_append_right _ (by simp [hdef]))
  · rintro (⟨isExtension, rfl⟩ | ⟨⟨before, isExtension, after, rfl, hlater⟩, hlast⟩)
    · exact ⟨declarations, isExtension, [], rfl, by simp⟩
    · refine ⟨before, isExtension, after ++ [declaration], by simp, fun later hmem => ?_⟩
      rcases List.mem_append.mp hmem with hmem | hmem
      · exact hlater later hmem
      · exact hlast later (List.mem_singleton.mp hmem).symm

theorem mem_standing_iff {name : Name} {declarations : List Declaration}
    {declared : TypeDefinition} :
    declared ∈ standing name declarations ↔
      Stands declarations declared ∧ declared.name = name := by
  induction declarations using List.reverseRecOn with
  | nil =>
      exact ⟨fun h => absurd h List.not_mem_nil, fun h => absurd h.1 (not_stands_nil declared)⟩
  | append_singleton declarations declaration ih =>
      rw [standing_concat, stands_concat]
      cases declaration with
      | roots roots => simpa [stand] using ih
      | directive position directive => simpa [stand] using ih
      | type isExtension last =>
          have hdeclares : (∃ other, Declaration.type isExtension last = .type other declared) ↔
              declared = last := by
            simp [eq_comm]
          have hdefines : (∀ later, Declaration.type isExtension last = .type false later →
              later.name ≠ declared.name) ↔ (isExtension = true ∨ last.name ≠ declared.name) := by
            cases isExtension <;> simp
          rw [hdeclares, hdefines]
          by_cases hname : last.name = name
          · subst hname
            cases isExtension with
            | true =>
                simp only [stand, if_true, List.mem_append, List.mem_singleton, ih]
                grind
            | false =>
                simp only [stand, if_true, Bool.false_eq_true, if_false, List.mem_singleton]
                grind
          · simp only [stand, hname, if_false, ih]
            grind

theorem Stands.mem {declarations : List Declaration} {declared : TypeDefinition}
    (h : Stands declarations declared) :
    ∃ isExtension, .type isExtension declared ∈ declarations := by
  obtain ⟨before, isExtension, after, rfl, -⟩ := h
  exact ⟨isExtension, by simp⟩

def declared? : Declaration → Option TypeDefinition
  | .type _ declared => some declared
  | .roots _ | .directive _ _ => none

/-- Declarations of one name are of one kind. -/
def KindsAgree (declarations : List Declaration) : Prop :=
  ∀ first ∈ declarations.filterMap declared?, ∀ second ∈ declarations.filterMap declared?,
    first.name = second.name → first.kind = second.kind

instance (declarations : List Declaration) : Decidable (KindsAgree declarations) := by
  unfold KindsAgree
  infer_instance

/-- Extensions have the kind of what they extend: under each name, what stands has the kind of what
stands first. -/
def ExtensionsFit (declarations : List Declaration) : Prop :=
  ∀ name first others, standing name declarations = first :: others →
    ∀ extension ∈ others, extension.kind = first.kind

theorem mem_declared {declarations : List Declaration} {declared : TypeDefinition} :
    declared ∈ declarations.filterMap declared? ↔
      ∃ isExtension, .type isExtension declared ∈ declarations := by
  rw [List.mem_filterMap]
  constructor
  · rintro ⟨declaration, hmem, hdeclared⟩
    cases declaration with
    | type isExtension found =>
        cases hdeclared
        exact ⟨isExtension, hmem⟩
    | roots roots => cases hdeclared
    | directive position directive => cases hdeclared
  · rintro ⟨isExtension, hmem⟩
    exact ⟨_, hmem, rfl⟩

theorem KindsAgree.extensionsFit {declarations : List Declaration} (h : KindsAgree declarations) :
    ExtensionsFit declarations := by
  intro name first others hstanding extension hmem
  have hstands : ∀ declared ∈ first :: others,
      declared ∈ declarations.filterMap declared? ∧ declared.name = name := by
    intro declared hdeclared
    rw [← hstanding, mem_standing_iff] at hdeclared
    exact ⟨mem_declared.mpr hdeclared.1.mem, hdeclared.2⟩
  obtain ⟨hfirst, hname⟩ := hstands first List.mem_cons_self
  obtain ⟨hextension, hsame⟩ := hstands extension (List.mem_cons_of_mem _ hmem)
  exact h extension hextension first hfirst (hsame.trans hname.symm)

end Declaration

open Declaration (standing Stands)

/-! ## What a text declares -/

/-- Only unions list objects. -/
def TypeDefinition.ListsAsUnion (type : TypeDefinition) : Prop :=
  type.kind ≠ .union → type.members = []

/-- A declaration of a type lists objects only if it is one of a union. -/
def Declaration.ListsAsUnion : Declaration → Prop
  | .type _ declared => declared.ListsAsUnion
  | .roots _ | .directive _ _ => True

namespace Grammar.Reader

theorem fieldedBody_listsAsUnion {type : TypeDefinition} (h : type.ListsAsUnion) :
    Yields (fieldedBody type) TypeDefinition.ListsAsUnion :=
  Yields.after fun _ => Yields.after fun _ => Yields.after fun _ => Yields.pure h

theorem fieldedExtension_listsAsUnion {type : TypeDefinition} (h : type.ListsAsUnion) :
    Yields (fieldedExtension type) TypeDefinition.ListsAsUnion :=
  Yields.after fun _ => Yields.after fun _ => Yields.pure h

theorem declaration_listsAsUnion : Yields declaration Declaration.ListsAsUnion := by
  have hbare : ∀ (name : Name) (kind : TypeKind) (description : Option String),
      { TypeDefinition.bare name kind with description }.ListsAsUnion := fun _ _ _ _ => rfl
  have hunion : ∀ type : TypeDefinition, type.kind = .union → type.ListsAsUnion :=
    fun _ hkind hother => absurd hkind hother
  refine Yields.orElse ?schema (Yields.orElse ?scalar (Yields.orElse ?object
    (Yields.orElse ?interface (Yields.orElse ?union (Yields.orElse ?enum
      (Yields.orElse ?input ?directive))))))
  case schema =>
    refine Yields.after fun position => Yields.orElse ?_ ?_
    · refine Yields.after fun _ => Yields.after fun _ => Yields.after fun roots => ?_
      split
      · exact Yields.after fun _ => Yields.pure trivial
      · exact Yields.pure trivial
    · refine Yields.after fun _ => Yields.after fun _ => Yields.after fun roots => ?_
      exact Yields.pure trivial
  case scalar =>
    exact Yields.typeForms (fun name description => Yields.after fun _ => Yields.pure
      (hbare name _ description)) (fun name => Yields.after fun _ => Yields.pure
      (hbare name _ none)) fun _ _ h => h
  case object =>
    refine Yields.typeForms (fun name description => fieldedBody_listsAsUnion
      (hbare name _ description)) (fun name => ?_) fun _ _ h => h
    exact (fieldedExtension_listsAsUnion (hbare name _ none)).orElse
      (Yields.after fun _ => Yields.pure (hbare name _ none))
  case interface =>
    exact Yields.typeForms (fun name description => fieldedBody_listsAsUnion
      (hbare name _ description)) (fun name => fieldedExtension_listsAsUnion (hbare name _ none))
      fun _ _ h => h
  case union =>
    exact Yields.typeForms
      (fun name description => Yields.after fun _ => Yields.after fun _ =>
        Yields.pure (hunion _ rfl))
      (fun name => Yields.after fun _ => Yields.pure (hunion _ rfl)) fun _ _ h => h
  case enum =>
    exact Yields.typeForms
      (fun name description => Yields.after fun _ => Yields.after fun _ =>
        Yields.pure (hbare name _ description))
      (fun name => Yields.after fun _ => Yields.pure (hbare name _ none)) fun _ _ h => h
  case input =>
    exact Yields.typeForms
      (fun name description => Yields.after fun _ => Yields.after fun _ =>
        Yields.pure (hbare name _ description))
      (fun name => Yields.after fun _ => Yields.pure (hbare name _ none)) fun _ _ h => h
  case directive =>
    refine Yields.after fun _ => Yields.after fun _ => Yields.after fun _ => Yields.after fun _ =>
      Yields.after fun _ => Yields.after fun _ => Yields.after fun _ => Yields.after fun _ =>
      Yields.after fun _ => ?_
    exact Yields.pure trivial

end Grammar.Reader

theorem Declaration.ofText_listsAsUnion {text : String} {declarations : List Declaration}
    (h : Declaration.ofText text = .ok declarations) :
    ∀ declaration ∈ declarations, declaration.ListsAsUnion :=
  Grammar.Reader.declaration_listsAsUnion.oneOrMore.onText h

/-! ## Building -/

namespace Declared

theorem add_find? (text : String) {declared : Declared} {name : Name}
    {types : List TypeDefinition} (h : declared.types.find? name = TypeDefinition.merged types)
    (declaration : Declaration) :
    (declared.add text declaration).types.find? name =
      TypeDefinition.merged (declaration.stand name types) := by
  cases declaration with
  | roots roots => exact h
  | directive position directive => exact h
  | type isExtension type =>
      by_cases hname : type.name = name
      · subst hname
        cases isExtension with
        | false => simp [add, addType, Declaration.stand, NameTable.find?_insert,
            TypeDefinition.merged]
        | true =>
            simp only [add, addType, Declaration.stand, if_true, Bool.true_and, NameTable.has, h,
              TypeDefinition.merged_concat]
            cases hmerged : TypeDefinition.merged types with
            | none => simp [NameTable.find?_insert]
            | some base => simp [NameTable.find?_adjust, h, hmerged]
      · have hother : (declared.add text (.type isExtension type)).types.find? name =
            declared.types.find? name := by
          simp only [add, addType]
          split
          · simp [NameTable.find?_adjust, hname]
          · simp [NameTable.find?_insert, hname]
        rw [hother, h]
        simp [Declaration.stand, hname]

/-- Under a name there is in the end what stands under it, merged. -/
theorem ofDeclarations_find? (text : String) (declarations : List Declaration) (name : Name) :
    (ofDeclarations text declarations).types.find? name =
      TypeDefinition.merged (standing name declarations) := by
  induction declarations using List.reverseRecOn with
  | nil => rfl
  | append_singleton declarations declaration ih =>
      rw [Declaration.standing_concat, ofDeclarations, List.foldl_append]
      exact add_find? text ih declaration

theorem add_keyed (text : String) {declared : Declared}
    (h : declared.types.Keyed TypeDefinition.name) (declaration : Declaration) :
    (declared.add text declaration).types.Keyed TypeDefinition.name := by
  cases declaration with
  | roots roots => exact h
  | directive position directive => exact h
  | type isExtension type =>
      simp only [add, addType]
      split
      · exact h.adjust type.name fun base => rfl
      · exact h.insert type

theorem ofDeclarations_keyed (text : String) (declarations : List Declaration) :
    (ofDeclarations text declarations).types.Keyed TypeDefinition.name := by
  induction declarations using List.reverseRecOn with
  | nil => exact NameTable.Keyed.nil _
  | append_singleton declarations declaration ih =>
      rw [ofDeclarations, List.foldl_append]
      exact add_keyed text ih declaration

end Declared

/-! ## Completing -/

namespace Schema

def withQueryFields (type : TypeDefinition) : TypeDefinition :=
  { type with
    fields := Builtin.queryFields.foldl (fun table field => table.insert field.name field)
      type.fields }

theorem mem_names_withQueryFields {type : TypeDefinition} {name : Name} :
    name ∈ (withQueryFields type).fields.names ↔
      name ∈ type.fields.names ∨ name = "__type" ∨ name = "__schema" := by
  simp only [withQueryFields, Builtin.queryFields, List.foldl_cons, List.foldl_nil,
    NameTable.mem_names_insert, Builtin.field, Builtin.fieldWith]
  grind

/-- The types of a schema before interfaces get their objects. -/
def typesBelow (base : Schema) : NameTable TypeDefinition := base.addBuiltins.addQueryFields.types

theorem typesBelow_eq (base : Schema) :
    base.typesBelow =
      (Builtin.types.foldl (fun table type => table.insertNew type.name type) base.types).adjust
        base.query withQueryFields := by
  simp only [typesBelow, addQueryFields, addBuiltins]
  rfl

/-- The type of a name before the schema is completed: a declared one, or else a built-in one. -/
def source? (base : Schema) (name : Name) : Option TypeDefinition :=
  (base.types.find? name).or (Builtin.types.find? fun type => type.name = name)

def withRootFields (base : Schema) (name : Name) (type : TypeDefinition) : TypeDefinition :=
  if base.query = name then withQueryFields type else type

theorem withRootFields_kind (base : Schema) (name : Name) (type : TypeDefinition) :
    (base.withRootFields name type).kind = type.kind := by
  unfold withRootFields
  split <;> rfl

theorem withRootFields_members (base : Schema) (name : Name) (type : TypeDefinition) :
    (base.withRootFields name type).members = type.members := by
  unfold withRootFields
  split <;> rfl

theorem typesBelow_find? (base : Schema) (name : Name) :
    base.typesBelow.find? name = (base.source? name).map (base.withRootFields name) := by
  rw [typesBelow_eq, NameTable.find?_adjust,
    NameTable.find?_foldl_insertNew_eq TypeDefinition.name Builtin.types]
  unfold withRootFields
  split
  · rfl
  · exact Option.map_id'.symm

theorem typesBelow_keyed {base : Schema} (h : base.types.Keyed TypeDefinition.name) :
    base.typesBelow.Keyed TypeDefinition.name := by
  rw [typesBelow_eq]
  exact (h.foldl_insertNew Builtin.types).adjust _ fun _ => rfl

/-- The schema that declared types are completed to. -/
def completed (base : Schema) : Schema := base.addBuiltins.addQueryFields.addMembers

theorem completed_type? (base : Schema) (name : Name) :
    base.completed.type? name =
      (base.typesBelow.find? name).map (withMembers base.typesBelow name) := by
  unfold type? completed
  rw [addMembers_types, NameTable.find?_map]
  rfl

theorem withMembers_name (types : NameTable TypeDefinition) (name : Name)
    (type : TypeDefinition) : (withMembers types name type).name = type.name := by
  unfold withMembers
  split <;> rfl

theorem withMembers_implements (types : NameTable TypeDefinition) (name : Name)
    (type : TypeDefinition) : (withMembers types name type).implements = type.implements := by
  unfold withMembers
  split <;> rfl

theorem completed_keyed {base : Schema} (h : base.types.Keyed TypeDefinition.name) :
    base.completed.types.Keyed TypeDefinition.name := by
  unfold completed
  rw [addMembers_types]
  exact (typesBelow_keyed h).map (withMembers_name base.typesBelow)

/-- An object type declares an interface. -/
def Implements (schema : Schema) (object interface : Name) : Prop :=
  ∃ type, schema.type? object = some type ∧ type.kind = .object ∧ interface ∈ type.implements

/-- The objects that an interface is given are the object types that declare it. -/
theorem mem_implementors_iff {base : Schema} (h : base.types.Keyed TypeDefinition.name)
    {object interface : Name} :
    object ∈ implementors base.typesBelow interface ↔
      base.completed.Implements object interface := by
  have hkeyed := typesBelow_keyed h
  simp only [implementors, List.mem_map, List.mem_filter, Bool.and_eq_true, List.contains_iff_mem,
    TypeDefinition.isObject, beq_iff_eq, Implements, completed_type?, Option.map_eq_some_iff]
  constructor
  · rintro ⟨type, ⟨hmem, hkind, hinterface⟩, rfl⟩
    refine ⟨_, ⟨type, hkeyed.mem_entries_iff.mp hmem, rfl⟩, ?_, ?_⟩
    · rw [withMembers_kind, hkind]
    · rwa [withMembers_implements]
  · rintro ⟨_, ⟨type, hfound, rfl⟩, hkind, hinterface⟩
    rw [withMembers_kind] at hkind
    rw [withMembers_implements] at hinterface
    have hname := hkeyed.name_of_find? hfound
    exact ⟨type, ⟨NameTable.mem_entries_of_find? hfound, hkind, hinterface⟩, hname⟩

/-- The schema of a text is completed from what its declarations add up to. -/
theorem ofText_eq_completed {text : String} {declarations : List Declaration} {schema : Schema}
    (hread : Declaration.ofText text = .ok declarations) (hschema : ofText text = .ok schema) :
    ∃ base : Schema, base.types = (Declared.ofDeclarations text declarations).types ∧
      (∀ kind name, base.rootName? kind = some name → base.HasKind name .object) ∧
      schema = base.completed := by
  simp only [ofText, hread] at hschema
  obtain ⟨base, htypes, hroots, hcompleted⟩ := ofDeclared_eq_ok hschema
  exact ⟨base, htypes, fun kind name hname =>
    hasKind_of_checkRoot htypes (hroots kind name hname), hcompleted⟩

end Schema

/-! ## Interfaces -/

theorem Declaration.interface_members {text : String} {declarations : List Declaration}
    (hread : Declaration.ofText text = .ok declarations) (hfit : ExtensionsFit declarations)
    {name : Name} {type : TypeDefinition}
    (hmerged : TypeDefinition.merged (standing name declarations) = some type)
    (hkind : type.kind = .interface) : type.members = [] := by
  refine List.eq_nil_iff_forall_not_mem.mpr fun object hmem => ?_
  obtain ⟨part, hpart, hlists⟩ := (TypeDefinition.has_merged hmerged).mp
    (show type.Has (.object object) from hmem)
  cases hstanding : standing name declarations with
  | nil => simp [hstanding] at hpart
  | cons first others =>
      rw [hstanding] at hmerged hpart
      cases hmerged
      have hfirst : first.kind = .interface := by
        rwa [TypeDefinition.foldl_extend_kind] at hkind
      have hinterface : part.kind = .interface := by
        rcases List.mem_cons.mp hpart with rfl | hother
        · exact hfirst
        · rw [hfit name first others hstanding part hother, hfirst]
      rw [← hstanding, mem_standing_iff] at hpart
      obtain ⟨isExtension, hdeclared⟩ := hpart.1.mem
      have hnone : part.members = [] :=
        ofText_listsAsUnion hread _ hdeclared (by simp [hinterface])
      simp [TypeDefinition.Has, hnone] at hlists

namespace Schema

theorem builtin_not_interface : ∀ type ∈ Builtin.types, type.kind ≠ .interface := by
  simp [Builtin.types, Builtin.objectType, Builtin.enumType, TypeDefinition.bare]

/-- In a schema built from a text, interfaces have as members what implements them. -/
structure Exact (schema : Schema) : Prop where
  keyed : ∀ name type, schema.type? name = some type → type.name = name
  interfaces : ∀ name type, schema.type? name = some type → type.kind = .interface →
    ∀ object, object ∈ type.members ↔ schema.Implements object name

/-- Before interfaces get objects, they have none. -/
theorem source_interface_members {text : String} {declarations : List Declaration}
    (hread : Declaration.ofText text = .ok declarations)
    (hfit : Declaration.ExtensionsFit declarations) {base : Schema}
    (htypes : base.types = (Declared.ofDeclarations text declarations).types) {name : Name}
    {type : TypeDefinition} (hsource : base.source? name = some type)
    (hkind : type.kind = .interface) : type.members = [] := by
  rcases Option.or_eq_some_iff.mp hsource with hfound | ⟨-, hbuiltin⟩
  · rw [htypes, Declared.ofDeclarations_find?] at hfound
    exact Declaration.interface_members hread hfit hfound hkind
  · exact absurd hkind (builtin_not_interface type (List.mem_of_find?_eq_some hbuiltin))

theorem exact_ofText {text : String} {declarations : List Declaration} {schema : Schema}
    (hread : Declaration.ofText text = .ok declarations)
    (hfit : Declaration.ExtensionsFit declarations) (hschema : ofText text = .ok schema) :
    schema.Exact := by
  obtain ⟨base, htypes, -, rfl⟩ := ofText_eq_completed hread hschema
  have hkeyed : base.types.Keyed TypeDefinition.name :=
    htypes ▸ Declared.ofDeclarations_keyed text declarations
  refine ⟨fun name type htype => (completed_keyed hkeyed).name_of_find? htype, ?_⟩
  intro name type htype hkind object
  rw [completed_type?, Option.map_eq_some_iff] at htype
  obtain ⟨below, hbelow, rfl⟩ := htype
  rw [typesBelow_find?, Option.map_eq_some_iff] at hbelow
  obtain ⟨source, hsource, rfl⟩ := hbelow
  rw [withMembers_kind] at hkind
  have hempty : (base.withRootFields name source).members = [] := by
    rw [withRootFields_members]
    rw [withRootFields_kind] at hkind
    exact source_interface_members hread hfit htypes hsource hkind
  rw [← mem_implementors_iff hkeyed]
  unfold withMembers
  rw [hkind]
  cases himplementors : implementors base.typesBelow name with
  | nil => simp [hempty]
  | cons first others => simp

def textPasses (check : List Declaration → Schema → Bool) (text : String) : Bool :=
  match Declaration.ofText text, ofText text with
  | .ok declarations, .ok schema => check declarations schema
  | _, _ => false

theorem exists_of_textPasses {check : List Declaration → Schema → Bool} {text : String}
    (h : textPasses check text = true) :
    ∃ declarations schema, Declaration.ofText text = .ok declarations ∧
      ofText text = .ok schema ∧ check declarations schema = true := by
  unfold textPasses at h
  split at h
  · exact ⟨_, _, by assumption, by assumption, h⟩
  · cases h

end Schema

end QueryAudit
