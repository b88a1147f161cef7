import QueryAudit.Grammar.Executable
import QueryAudit.Proofs.Readers
import QueryAudit.Proofs.Tables
import QueryAudit.Schema.Build

/-!
# Schemas that can be built

A schema comes from a text, and converters may be registered with it afterwards. What holds of all
such schemas: root types are object types, and the input fields of a type stand under their own
names, each name once.
-/

namespace QueryAudit

/-! ## What readers yield -/

namespace Grammar.Reader

variable {α β : Type}

/-- Every result of a reader has a property. -/
def Yields (reader : Reader α) (p : α → Prop) : Prop :=
  ∀ cursor result after, reader cursor = some (result, after) → p result

theorem yields_true (reader : Reader α) : Yields reader fun _ => True :=
  fun _ _ _ _ => trivial

theorem Yields.pure {p : α → Prop} {result : α} (h : p result) : Yields (pure result) p := by
  intro cursor found after hread
  obtain ⟨rfl, -⟩ := pure_eq_some.mp hread
  exact h

theorem Yields.bind {p : α → Prop} {q : β → Prop} {reader : Reader α} {next : α → Reader β}
    (h : Yields reader p) (hnext : ∀ result, p result → Yields (next result) q) :
    Yields (reader >>= next) q := by
  intro cursor result after hread
  obtain ⟨first, middle, hfirst, hrest⟩ := bind_eq_some.mp hread
  exact hnext first (h _ _ _ hfirst) _ _ _ hrest

/-- A property of what comes after a reader does not depend on what that reads. -/
theorem Yields.after {q : β → Prop} {reader : Reader α} {next : α → Reader β}
    (hnext : ∀ result, Yields (next result) q) : Yields (reader >>= next) q :=
  (yields_true reader).bind fun result _ => hnext result

theorem Yields.orElse {p : α → Prop} {first second : Reader α} (hfirst : Yields first p)
    (hsecond : Yields second p) : Yields (first <|> second) p := by
  intro cursor result after hread
  rcases orElse_eq_some.mp hread with hread | ⟨-, hread⟩
  · exact hfirst _ _ _ hread
  · exact hsecond _ _ _ hread

theorem Yields.change {p : α → Prop} {q : β → Prop} {reader : Reader α} (h : Yields reader p)
    {change : α → β} (hchange : ∀ result, p result → q (change result)) :
    Yields (change <$> reader) q := by
  intro cursor result after hread
  obtain ⟨found, hfound, rfl⟩ := map_eq_some.mp hread
  exact hchange found (h _ _ _ hfound)

theorem Yields.map {p : β → Prop} {reader : Reader α} {change : α → β}
    (h : ∀ result, p (change result)) : Yields (change <$> reader) p :=
  (yields_true reader).change fun result _ => h result

theorem Yields.between {p : α → Prop} {reader : Reader α} (h : Yields reader p)
    (opening closing : String) : Yields (mark opening *> reader <* mark closing) p :=
  Yields.bind (Yields.after fun _ => h) fun _ hresult =>
    Yields.after fun _ => Yields.pure hresult

theorem Yields.atMost {p : α → Prop} {reader : Reader α} (h : Yields reader p) (bound : Nat) :
    Yields (atMost reader bound) fun results => ∀ result ∈ results, p result := by
  induction bound with
  | zero => exact Yields.pure (by simp)
  | succ bound ih =>
      refine Yields.orElse (h.bind fun first hfirst => ih.bind fun others hothers => ?_)
        (Yields.pure (by simp))
      exact Yields.pure (by simpa using ⟨hfirst, hothers⟩)

theorem Yields.zeroOrMore {p : α → Prop} {reader : Reader α} (h : Yields reader p) :
    Yields (zeroOrMore reader) fun results => ∀ result ∈ results, p result :=
  fun cursor => h.atMost cursor.rest.length cursor

theorem Yields.oneOrMore {p : α → Prop} {reader : Reader α} (h : Yields reader p) :
    Yields (oneOrMore reader) fun results => ∀ result ∈ results, p result :=
  h.bind fun first hfirst => h.zeroOrMore.bind fun others hothers =>
    Yields.pure (by simpa using ⟨hfirst, hothers⟩)

theorem Yields.onText {p : α → Prop} {reader : Reader α} (h : Yields reader p) {text : String}
    {result : α} (hread : reader.onText text = .ok result) : p result := by
  obtain ⟨last, hresult⟩ := onText_eq_ok hread
  exact h _ _ _ hresult

/-! ## Input fields of declared types -/

/-- The input fields of a type stand under their own names. -/
def InputsKeyed (type : TypeDefinition) : Prop := type.inputFields.Keyed InputValue.name

/-- A declaration of a type has its input fields under their own names. -/
def DeclaresKeyed : Declaration → Prop
  | .type _ type => InputsKeyed type
  | .roots _ | .directive _ _ => True

theorem inputsKeyed_bare (name : Name) (kind : TypeKind) :
    InputsKeyed (TypeDefinition.bare name kind) := NameTable.Keyed.nil _

/-- What holds of the type in both forms of a declaration. -/
theorem Yields.typeForms {p : TypeDefinition → Prop} {q : Declaration → Prop} {keyword : String}
    {kind : TypeKind} {body extensionBody : TypeDefinition → Reader TypeDefinition}
    (hbody : ∀ name description,
      Yields (body { TypeDefinition.bare name kind with description }) p)
    (hextension : ∀ name, Yields (extensionBody (TypeDefinition.bare name kind)) p)
    (hdeclared : ∀ isExtension type, p type → q (.type isExtension type)) :
    Yields (typeForms keyword kind body extensionBody) q := by
  apply Yields.orElse
  · refine Yields.after fun description => Yields.after fun _ => Yields.after fun name => ?_
    exact (hbody name description).bind fun type htype => Yields.pure (hdeclared false type htype)
  · refine Yields.after fun _ => Yields.after fun _ => Yields.after fun name => ?_
    exact (hextension name).bind fun type htype => Yields.pure (hdeclared true type htype)

theorem typeForms_yields (keyword : String) (kind : TypeKind)
    {body extensionBody : TypeDefinition → Reader TypeDefinition}
    (hbody : ∀ type, InputsKeyed type → Yields (body type) InputsKeyed)
    (hextension : ∀ type, InputsKeyed type → Yields (extensionBody type) InputsKeyed) :
    Yields (typeForms keyword kind body extensionBody) DeclaresKeyed :=
  Yields.typeForms (fun name _ => hbody _ (inputsKeyed_bare name kind))
    (fun name => hextension _ (inputsKeyed_bare name kind)) fun _ _ htype => htype

/-- A table of input values in which each stands under its own name. -/
def TableKeyed (table : NameTable InputValue) : Prop := NameTable.Keyed InputValue.name table

theorem inputFieldsDefinition_yields : Yields inputFieldsDefinition TableKeyed :=
  Yields.map fun items => NameTable.Keyed.ofList InputValue.name items

theorem listOrNone_inputFields_yields : Yields (listOrNone inputFieldsDefinition) TableKeyed :=
  inputFieldsDefinition_yields.orElse (Yields.pure (NameTable.Keyed.nil _))

theorem membersOrDirectives_inputFields_yields :
    Yields (membersOrDirectives inputFieldsDefinition) TableKeyed := by
  apply Yields.orElse
  · show Yields (constantDirectives >>= fun _ => inputFieldsDefinition) _
    exact Yields.after fun _ => inputFieldsDefinition_yields
  · show Yields (someConstantDirectives >>= fun _ => Pure.pure []) _
    exact Yields.after fun _ => Yields.pure (NameTable.Keyed.nil _)

theorem schemaDefinition_yields : Yields schemaDefinition DeclaresKeyed := by
  refine Yields.after fun position => Yields.orElse ?_ ?_
  · refine Yields.after fun _ => Yields.after fun _ => Yields.after fun roots => ?_
    split
    · exact Yields.after fun _ => Yields.pure trivial
    · exact Yields.pure trivial
  · refine Yields.after fun _ => Yields.after fun _ => Yields.after fun roots => ?_
    exact Yields.pure trivial

theorem fieldedBody_yields (type : TypeDefinition) (h : InputsKeyed type) :
    Yields (fieldedBody type) InputsKeyed :=
  Yields.after fun _ => Yields.after fun _ => Yields.after fun _ => Yields.pure h

theorem fieldedExtension_yields (type : TypeDefinition) (h : InputsKeyed type) :
    Yields (fieldedExtension type) InputsKeyed :=
  Yields.after fun _ => Yields.after fun _ => Yields.pure h

/-- Only input object types declare input fields, in a table made from a list. -/
theorem declaration_yields : Yields declaration DeclaresKeyed := by
  refine Yields.orElse schemaDefinition_yields (Yields.orElse ?scalar (Yields.orElse ?object
    (Yields.orElse ?interface (Yields.orElse ?union (Yields.orElse ?enum
      (Yields.orElse ?input ?directive))))))
  case scalar =>
    exact typeForms_yields _ _ (fun type h => Yields.after fun _ => Yields.pure h)
      fun type h => Yields.after fun _ => Yields.pure h
  case object =>
    refine typeForms_yields _ _ fieldedBody_yields fun type h => ?_
    exact (fieldedExtension_yields type h).orElse (Yields.after fun _ => Yields.pure h)
  case interface => exact typeForms_yields _ _ fieldedBody_yields fieldedExtension_yields
  case union =>
    exact typeForms_yields _ _
      (fun type h => Yields.after fun _ => Yields.after fun _ => Yields.pure h)
      fun type h => Yields.after fun _ => Yields.pure h
  case enum =>
    exact typeForms_yields _ _
      (fun type h => Yields.after fun _ => Yields.after fun _ => Yields.pure h)
      fun type h => Yields.after fun _ => Yields.pure h
  case input =>
    refine typeForms_yields _ _ (fun type _ => Yields.after fun _ => ?_) fun type _ => ?_
    · exact listOrNone_inputFields_yields.bind fun fields hfields => Yields.pure hfields
    · exact membersOrDirectives_inputFields_yields.bind fun fields hfields => Yields.pure hfields
  case directive =>
    refine Yields.after fun _ => Yields.after fun _ => Yields.after fun _ => Yields.after fun _ =>
      Yields.after fun _ => Yields.after fun _ => Yields.after fun _ => Yields.after fun _ =>
      Yields.after fun _ => ?_
    exact Yields.pure trivial

end Grammar.Reader

open Grammar.Reader (InputsKeyed DeclaresKeyed)

theorem Declaration.ofText_keyed {text : String} {declarations : List Declaration}
    (h : Declaration.ofText text = .ok declarations) :
    ∀ declaration ∈ declarations, DeclaresKeyed declaration :=
  Grammar.Reader.declaration_yields.oneOrMore.onText h

/-! ## Building -/

theorem TypeDefinition.extend_inputsKeyed {type extension : TypeDefinition}
    (h : InputsKeyed type) (hextension : InputsKeyed extension) :
    InputsKeyed (type.extend extension) :=
  NameTable.Keyed.merge h hextension

namespace Declared

/-- Every type declared so far has its input fields under their own names. -/
def TypesKeyed (declared : Declared) : Prop :=
  ∀ type ∈ declared.types.entries, InputsKeyed type

theorem TypesKeyed.add {declared : Declared} (h : declared.TypesKeyed) (text : String)
    {declaration : Declaration} (hdeclaration : DeclaresKeyed declaration) :
    (declared.add text declaration).TypesKeyed := by
  cases declaration with
  | roots roots => exact h
  | directive position directive => exact h
  | type isExtension type =>
      intro other hother
      simp only [Declared.add, addType] at hother
      split at hother
      · rcases NameTable.mem_entries_adjust hother with hold | ⟨base, hbase, rfl⟩
        · exact h other hold
        · exact TypeDefinition.extend_inputsKeyed (h base hbase) hdeclaration
      · rcases NameTable.mem_entries_insert hother with rfl | hold
        · exact hdeclaration
        · exact h other hold

theorem ofDeclarations_typesKeyed (text : String) {declarations : List Declaration}
    (h : ∀ declaration ∈ declarations, DeclaresKeyed declaration) :
    (ofDeclarations text declarations).TypesKeyed := by
  have hfold : ∀ declared : Declared, declared.TypesKeyed →
      (declarations.foldl (Declared.add text) declared).TypesKeyed := by
    induction declarations with
    | nil => exact fun _ hdeclared => hdeclared
    | cons declaration rest ih =>
        intro declared hdeclared
        exact ih (fun other hother => h other (List.mem_cons_of_mem _ hother)) _
          (hdeclared.add text (h declaration List.mem_cons_self))
  exact hfold empty (by simp [TypesKeyed, empty, NameTable.entries])

end Declared

namespace Schema

def withMembers (types : NameTable TypeDefinition) (name : Name) (type : TypeDefinition) :
    TypeDefinition :=
  match type.kind, implementors types name with
  | .interface, first :: others => { type with members := first :: others }
  | _, _ => type

theorem addMembers_types (schema : Schema) :
    schema.addMembers.types =
      schema.types.map fun entry => (entry.1, withMembers schema.types entry.1 entry.2) := by
  unfold addMembers
  refine List.map_congr_left fun entry _ => ?_
  obtain ⟨name, type⟩ := entry
  simp only [withMembers]
  cases type.kind <;> cases implementors schema.types name <;> rfl

theorem withMembers_kind (types : NameTable TypeDefinition) (name : Name)
    (type : TypeDefinition) : (withMembers types name type).kind = type.kind := by
  unfold withMembers
  split <;> rfl

theorem withMembers_inputFields (types : NameTable TypeDefinition) (name : Name)
    (type : TypeDefinition) : (withMembers types name type).inputFields = type.inputFields := by
  unfold withMembers
  split <;> rfl

/-- A type keeps its kind while a schema is completed. -/
def HasKind (schema : Schema) (name : Name) (kind : TypeKind) : Prop :=
  ∃ type, schema.type? name = some type ∧ type.kind = kind

theorem builtin_inputFields : ∀ type ∈ Builtin.types, type.inputFields = [] := by
  simp [Builtin.types, Builtin.objectType, Builtin.enumType, TypeDefinition.bare]

/-- The built-in types are added where they are missing; none of them is an input object. -/
theorem addBuiltins_types (schema : Schema) :
    ∃ more : List TypeDefinition, (∀ type ∈ more, type.inputFields = []) ∧
      schema.addBuiltins.types =
        more.foldl (fun table type => table.insertNew type.name type) schema.types :=
  ⟨Builtin.types, builtin_inputFields, by simp only [addBuiltins]⟩

theorem HasKind.addBuiltins {schema : Schema} {name : Name} {kind : TypeKind}
    (h : schema.HasKind name kind) : schema.addBuiltins.HasKind name kind := by
  obtain ⟨type, htype, hkind⟩ := h
  obtain ⟨more, -, htypes⟩ := addBuiltins_types schema
  refine ⟨type, ?_, hkind⟩
  unfold type? at htype ⊢
  rw [htypes]
  exact NameTable.find?_foldl_insertNew htype TypeDefinition.name more

theorem HasKind.addQueryFields {schema : Schema} {name : Name} {kind : TypeKind}
    (h : schema.HasKind name kind) : schema.addQueryFields.HasKind name kind := by
  obtain ⟨type, htype, hkind⟩ := h
  unfold HasKind type? Schema.addQueryFields
  rw [NameTable.find?_adjust]
  unfold type? at htype
  split
  · rw [htype]
    exact ⟨_, rfl, hkind⟩
  · exact ⟨type, htype, hkind⟩

theorem HasKind.addMembers {schema : Schema} {name : Name} {kind : TypeKind}
    (h : schema.HasKind name kind) : schema.addMembers.HasKind name kind := by
  obtain ⟨type, htype, hkind⟩ := h
  refine ⟨withMembers schema.types name type, ?_, by rw [withMembers_kind, hkind]⟩
  unfold type? at htype ⊢
  rw [addMembers_types, NameTable.find?_map, htype]
  rfl

theorem hasKind_of_checkRoot {declared : Declared} {schema : Schema} {name : Name}
    (htypes : schema.types = declared.types) (h : declared.checkRoot name = .ok ()) :
    schema.HasKind name .object := by
  unfold Declared.checkRoot at h
  cases hfind : declared.types.find? name with
  | none => simp [hfind] at h
  | some type =>
      simp only [hfind] at h
      split at h
      · rename_i hobject
        exact ⟨type, by rw [type?, htypes, hfind], by simpa [TypeDefinition.isObject] using hobject⟩
      · cases h

theorem bind_eq_ok {ε α β : Type} {first : Except ε α} {next : α → Except ε β} {result : β}
    (h : (first >>= next) = .ok result) : ∃ a, first = .ok a ∧ next a = .ok result := by
  cases first with
  | error cause => cases h
  | ok a => exact ⟨a, rfl, h⟩

/-- A schema is built from declared types whose roots have been checked. -/
theorem ofDeclared_eq_ok {declared : Declared} {schema : Schema}
    (h : ofDeclared declared = .ok schema) :
    ∃ base : Schema, base.types = declared.types ∧
      (∀ kind name, base.rootName? kind = some name → declared.checkRoot name = .ok ()) ∧
      schema = base.addBuiltins.addQueryFields.addMembers := by
  unfold ofDeclared at h
  rcases hnames : declared.rootNames with ⟨query, mutation, subscription⟩
  simp only [hnames] at h
  obtain ⟨_, hquery, h⟩ := bind_eq_ok h
  obtain ⟨_, hmutation, h⟩ := bind_eq_ok h
  obtain ⟨_, hsubscription, h⟩ := bind_eq_ok h
  refine ⟨_, rfl, ?_, (Except.ok.inj h).symm⟩
  intro kind name hname
  cases kind with
  | query =>
      cases hname
      exact hquery
  | mutation =>
      simp only [rootName?] at hname
      subst hname
      exact hmutation
  | subscription =>
      simp only [rootName?] at hname
      subst hname
      exact hsubscription

theorem rootName?_completed (schema : Schema) (kind : OperationKind) :
    schema.addBuiltins.addQueryFields.addMembers.rootName? kind = schema.rootName? kind := by
  cases kind <;> simp only [rootName?, addMembers, addQueryFields, addBuiltins]

/-- The schemas that can be had: from a text, and with converters registered. -/
inductive Built : Schema → Prop
  | ofText {text : String} {schema : Schema} (h : Schema.ofText text = .ok schema) : Built schema
  | withConverter {schema : Schema} (h : Built schema) (name : Name) (converter : Converter) :
      Built (schema.withConverter name converter)

theorem ofText_eq_ok {text : String} {schema : Schema} (h : Schema.ofText text = .ok schema) :
    ∃ declared : Declared, declared.TypesKeyed ∧ ofDeclared declared = .ok schema := by
  unfold Schema.ofText at h
  cases hread : Declaration.ofText text with
  | error cause => simp [hread] at h
  | ok declarations =>
      simp only [hread] at h
      exact ⟨_, Declared.ofDeclarations_typesKeyed text (Declaration.ofText_keyed hread), h⟩

/-- The root types of a schema are object types. -/
theorem Built.isObject_rootType {schema : Schema} (h : schema.Built) {kind : OperationKind}
    {type : TypeDefinition} (hroot : schema.rootType? kind = some type) :
    type.isObject = true := by
  induction h with
  | withConverter _ _ _ ih => exact ih hroot
  | ofText htext =>
      obtain ⟨declared, -, hdeclared⟩ := ofText_eq_ok htext
      obtain ⟨base, htypes, hroots, rfl⟩ := ofDeclared_eq_ok hdeclared
      rw [rootType?, rootName?_completed] at hroot
      cases hname : base.rootName? kind with
      | none => simp [hname] at hroot
      | some name =>
          have hkind := hasKind_of_checkRoot htypes (hroots kind name hname)
          obtain ⟨found, hfound, hobject⟩ := hkind.addBuiltins.addQueryFields.addMembers
          rw [hname, Option.bind_some, hfound] at hroot
          cases hroot
          simp [TypeDefinition.isObject, hobject]

/-- The input fields of every type stand under their own names. -/
def AllInputsKeyed (schema : Schema) : Prop := ∀ type ∈ schema.types.entries, InputsKeyed type

theorem AllInputsKeyed.addBuiltins {schema : Schema} (h : schema.AllInputsKeyed) :
    schema.addBuiltins.AllInputsKeyed := by
  intro type hmem
  obtain ⟨more, hmore, htypes⟩ := addBuiltins_types schema
  rw [htypes] at hmem
  rcases NameTable.mem_entries_foldl_insertNew hmem with hbuiltin | hold
  · rw [InputsKeyed, hmore type hbuiltin]
    exact NameTable.Keyed.nil _
  · exact h type hold

theorem AllInputsKeyed.addQueryFields {schema : Schema} (h : schema.AllInputsKeyed) :
    schema.addQueryFields.AllInputsKeyed := by
  intro type hmem
  rcases NameTable.mem_entries_adjust hmem with hold | ⟨old, hold, hchanged⟩
  · exact h type hold
  · rw [hchanged]
    exact h old hold

theorem AllInputsKeyed.addMembers {schema : Schema} (h : schema.AllInputsKeyed) :
    schema.addMembers.AllInputsKeyed := by
  intro type hmem
  rw [addMembers_types, NameTable.entries, List.map_map] at hmem
  obtain ⟨entry, hentry, rfl⟩ := List.mem_map.mp hmem
  have hold : InputsKeyed entry.2 := h entry.2 (List.mem_map_of_mem hentry)
  simpa [InputsKeyed, withMembers_inputFields] using hold

/-- The input fields of the types of a schema stand under their own names. -/
theorem Built.allInputsKeyed {schema : Schema} (h : schema.Built) : schema.AllInputsKeyed := by
  induction h with
  | withConverter _ _ _ ih => exact ih
  | ofText htext =>
      obtain ⟨declared, hkeyed, hdeclared⟩ := ofText_eq_ok htext
      obtain ⟨base, htypes, -, rfl⟩ := ofDeclared_eq_ok hdeclared
      have hbase : base.AllInputsKeyed := by
        rw [AllInputsKeyed, htypes]
        exact hkeyed
      exact hbase.addBuiltins.addQueryFields.addMembers

/-- Whether two texts can be read as a schema and as definitions, operations before fragments, that
pass a check. -/
def textsPass (check : Schema → Document → Bool) (schemaText documentText : String) : Bool :=
  match Schema.ofText schemaText, Source.ofText documentText with
  | .ok schema, .ok source =>
      check schema ⟨source.operations.map .operation ++ source.fragments.map .fragment⟩
  | _, _ => false

theorem exists_of_textsPass {check : Schema → Document → Bool}
    {schemaText documentText : String} (h : textsPass check schemaText documentText = true) :
    ∃ schema document, schema.Built ∧ check schema document = true := by
  unfold textsPass at h
  split at h
  · rename_i schema source hschema hsource
    exact ⟨schema, _, .ofText hschema, h⟩
  · cases h

def sourcesPass (check : Schema → Source → Bool) (schemaText sourceText : String) : Bool :=
  match Schema.ofText schemaText, Source.ofText sourceText with
  | .ok schema, .ok source => check schema source
  | _, _ => false

theorem exists_of_sourcesPass {check : Schema → Source → Bool} {schemaText sourceText : String}
    (h : sourcesPass check schemaText sourceText = true) :
    ∃ schema source, check schema source = true := by
  unfold sourcesPass at h
  split at h
  · exact ⟨_, _, h⟩
  · cases h

end Schema

end QueryAudit
