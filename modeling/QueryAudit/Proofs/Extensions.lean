import Mathlib.Data.List.Nodup
import QueryAudit.Proofs.Declarations

/-!
# What becomes of extensions

A type has what its definition and its extensions declare, so far as they stand: a definition does
away with the extensions ahead of it. Where none is ahead, nothing is lost and the order of the
declarations makes no difference to what the types have.
-/

namespace QueryAudit

namespace Declaration

def Declares (declarations : List Declaration) (name : Name) : Prop :=
  ∃ declared ∈ declarations.filterMap declared?, declared.name = name

def defines? : Declaration → Option Name
  | .type false declared => some declared.name
  | _ => none

/-- No type is defined twice. -/
def DefinedOnce (declarations : List Declaration) : Prop :=
  (declarations.filterMap defines?).Nodup

instance (declarations : List Declaration) : Decidable (DefinedOnce declarations) := by
  unfold DefinedOnce
  infer_instance

def extends? : Declaration → Option Name
  | .type true declared => some declared.name
  | _ => none

/-- No extension comes ahead of the definition of its type. -/
def InOrder (declarations : List Declaration) : Prop :=
  declarations.Pairwise fun earlier later =>
    earlier.extends? = none ∨ later.defines? ≠ earlier.extends?

instance (declarations : List Declaration) : Decidable (InOrder declarations) := by
  unfold InOrder
  infer_instance

def ofType? : Declaration → Option (Bool × TypeDefinition)
  | .type isExtension declared => some (isExtension, declared)
  | .roots _ | .directive _ _ => none

/-- Texts with the same declarations of types, in any order, declare the same types. -/
theorem mem_declared_of_perm {declarations others : List Declaration}
    (h : (others.filterMap ofType?).Perm (declarations.filterMap ofType?))
    (declared : TypeDefinition) :
    declared ∈ others.filterMap declared? ↔ declared ∈ declarations.filterMap declared? := by
  have hpart : declared? = fun declaration => (ofType? declaration).map Prod.snd := by
    funext declaration
    cases declaration <;> rfl
  rw [hpart, ← List.map_filterMap, ← List.map_filterMap]
  exact (h.map Prod.snd).mem_iff

theorem DefinedOnce.of_perm {declarations others : List Declaration}
    (honce : DefinedOnce declarations)
    (h : (others.filterMap ofType?).Perm (declarations.filterMap ofType?)) :
    DefinedOnce others := by
  have hpart : defines? = fun declaration => (ofType? declaration).bind fun part =>
      if part.1 then none else some part.2.name := by
    funext declaration
    rcases declaration with _ | ⟨_ | _, _⟩ | _ <;> rfl
  unfold DefinedOnce at honce ⊢
  rw [hpart, ← List.filterMap_filterMap] at honce ⊢
  exact (h.filterMap _).nodup_iff.mpr honce

/-- Where nothing is ahead of its definition, all declarations stand. -/
theorem stands_iff_of_inOrder {declarations : List Declaration} (honce : DefinedOnce declarations)
    (horder : InOrder declarations) {declared : TypeDefinition} :
    Stands declarations declared ↔ declared ∈ declarations.filterMap declared? := by
  rw [mem_declared]
  constructor
  · exact Stands.mem
  · rintro ⟨isExtension, hmem⟩
    obtain ⟨before, after, rfl⟩ := List.append_of_mem hmem
    refine ⟨before, isExtension, after, rfl, fun later hlater hname => ?_⟩
    cases isExtension with
    | true =>
        obtain ⟨-, hafter, -⟩ := List.pairwise_append.mp horder
        rcases (List.pairwise_cons.mp hafter).1 _ hlater with hnone | hother
        · cases hnone
        · exact hother (congrArg some hname)
    | false =>
        unfold DefinedOnce at honce
        rw [List.filterMap_append,
          List.filterMap_cons_some (show defines? (.type false declared) = some _ from rfl)] at honce
        have hfresh := (List.nodup_cons.mp (List.nodup_append.mp honce).2.1).1
        exact hfresh (List.mem_filterMap.mpr ⟨_, hlater, congrArg some hname⟩)

/-- Nothing stands under a name exactly if it is not declared. -/
theorem standing_eq_nil_iff {name : Name} {declarations : List Declaration} :
    standing name declarations = [] ↔ ¬ Declares declarations name := by
  unfold Declares
  induction declarations using List.reverseRecOn with
  | nil => simp [standing]
  | append_singleton declarations declaration ih =>
      rw [standing_concat, List.filterMap_append]
      cases declaration with
      | roots roots => simpa [stand, declared?] using ih
      | directive position directive => simpa [stand, declared?] using ih
      | type isExtension last =>
          by_cases hname : last.name = name
          · cases isExtension <;> simp [stand, declared?, hname]
          · simpa [stand, declared?, hname, or_and_right, exists_or] using ih

end Declaration

open Declaration (Declares Stands standing)

namespace Schema

def Has (schema : Schema) (name : Name) (member : Member) : Prop :=
  ∃ type, schema.type? name = some type ∧ type.Has member

theorem has_withQueryFields {type : TypeDefinition} {member : Member} :
    (withQueryFields type).Has member ↔
      type.Has member ∨ member = .field "__type" ∨ member = .field "__schema" := by
  cases member with
  | field name => simpa [TypeDefinition.Has] using mem_names_withQueryFields
  | enumValue | inputField | interface | object => simp [TypeDefinition.Has, withQueryFields]

/-- An interface gets objects; the other members of a type stay as they are. -/
theorem withMembers_has {types : NameTable TypeDefinition} {name : Name} {type : TypeDefinition}
    {member : Member} (h : type.kind = .interface → ∀ object, member ≠ .object object) :
    (withMembers types name type).Has member ↔ type.Has member := by
  unfold withMembers
  split
  · rename_i hkind _
    cases member with
    | object object => exact absurd rfl (h hkind object)
    | field | enumValue | inputField | interface => rfl
  · rfl

theorem implements_iff {schema : Schema} {object interface : Name} :
    schema.Implements object interface ↔
      schema.HasKind object .object ∧ schema.Has object (.interface interface) := by
  constructor
  · rintro ⟨type, htype, hkind, hmem⟩
    exact ⟨⟨type, htype, hkind⟩, type, htype, hmem⟩
  · rintro ⟨⟨type, htype, hkind⟩, other, hother, hmem⟩
    rw [htype] at hother
    cases hother
    exact ⟨type, htype, hkind, hmem⟩

theorem builtin_names_nodup : (Builtin.types.map TypeDefinition.name).Nodup := by
  decide +kernel

theorem builtin_find?_eq_some {name : Name} {type : TypeDefinition} :
    (Builtin.types.find? fun type => type.name = name) = some type ↔
      type ∈ Builtin.types ∧ type.name = name := by
  constructor
  · intro hfind
    exact ⟨List.mem_of_find?_eq_some hfind, by simpa using List.find?_some hfind⟩
  · rintro ⟨hmem, rfl⟩
    cases hfind : Builtin.types.find? fun other => other.name = type.name with
    | none => simpa using List.find?_eq_none.mp hfind type hmem
    | some other =>
        have hname : other.name = type.name := by simpa using List.find?_some hfind
        rw [List.inj_on_of_nodup_map builtin_names_nodup (List.mem_of_find?_eq_some hfind) hmem hname]

section

variable {text : String} {declarations : List Declaration} {base : Schema}
  (htypes : base.types = (Declared.ofDeclarations text declarations).types) (name : Name)

include htypes

/-- A type comes from what stands under its name, or else is a built-in one. -/
theorem source_cases :
    (∃ first others, standing name declarations = first :: others ∧ Declares declarations name ∧
        base.source? name = some (others.foldl TypeDefinition.extend first)) ∨
      (standing name declarations = [] ∧ ¬ Declares declarations name ∧
        base.source? name = Builtin.types.find? fun type => type.name = name) := by
  unfold source?
  rw [htypes, Declared.ofDeclarations_find?]
  have hnil : standing name declarations = [] ↔ ¬ Declares declarations name :=
    Declaration.standing_eq_nil_iff
  cases hstanding : standing name declarations with
  | nil => exact .inr ⟨rfl, hnil.mp hstanding, rfl⟩
  | cons first others =>
      refine .inl ⟨first, others, rfl, ?_, rfl⟩
      by_contra hnone
      rw [hnil.mpr hnone] at hstanding
      cases hstanding

theorem source_has (member : Member) :
    (∃ type, base.source? name = some type ∧ type.Has member) ↔
      (∃ declared, Stands declarations declared ∧ declared.name = name ∧ declared.Has member) ∨
        (¬ Declares declarations name ∧
          ∃ type ∈ Builtin.types, type.name = name ∧ type.Has member) := by
  have hstands : (∃ declared, Stands declarations declared ∧ declared.name = name ∧
      declared.Has member) ↔ ∃ declared ∈ standing name declarations, declared.Has member := by
    simp only [Declaration.mem_standing_iff, and_assoc]
  rw [hstands]
  rcases source_cases htypes name with ⟨first, others, hstanding, hdeclares, hsource⟩ |
    ⟨hstanding, hnone, hsource⟩
  · rw [hstanding, ← TypeDefinition.foldl_extend_has, hsource]
    simp [hdeclares]
  · rw [hstanding, hsource]
    simp [hnone, builtin_find?_eq_some, and_assoc]

theorem source_kind (hkinds : Declaration.KindsAgree declarations) (kind : TypeKind) :
    (∃ type, base.source? name = some type ∧ type.kind = kind) ↔
      (∃ declared ∈ declarations.filterMap Declaration.declared?,
        declared.name = name ∧ declared.kind = kind) ∨
        (¬ Declares declarations name ∧
          ∃ type ∈ Builtin.types, type.name = name ∧ type.kind = kind) := by
  rcases source_cases htypes name with ⟨first, others, hstanding, hdeclares, hsource⟩ |
    ⟨hstanding, hnone, hsource⟩
  · have hfirst : first ∈ standing name declarations := by simp [hstanding]
    rw [Declaration.mem_standing_iff] at hfirst
    obtain ⟨hstands, hname⟩ := hfirst
    have hmem := Declaration.mem_declared.mpr hstands.mem
    have hkind : ∀ declared ∈ declarations.filterMap Declaration.declared?,
        declared.name = name → declared.kind = first.kind := fun declared hdeclared hsame =>
      hkinds declared hdeclared first hmem (hsame.trans hname.symm)
    rw [hsource]
    simp only [Option.some.injEq, exists_eq_left', TypeDefinition.foldl_extend_kind, hdeclares,
      not_true_eq_false, false_and, or_false]
    constructor
    · exact fun heq => ⟨first, hmem, hname, heq⟩
    · rintro ⟨declared, hdeclared, hsame, rfl⟩
      exact (hkind declared hdeclared hsame).symm
  · have hother : ¬ ∃ declared ∈ declarations.filterMap Declaration.declared?,
        declared.name = name ∧ declared.kind = kind :=
      fun ⟨declared, hmem, hname, _⟩ => hnone ⟨declared, hmem, hname⟩
    rw [hsource]
    simp only [builtin_find?_eq_some, hother, hnone, not_false_eq_true, true_and, false_or, and_assoc]

end

theorem completed_source (base : Schema) (name : Name) :
    base.completed.type? name = (base.source? name).map fun type =>
      withMembers base.typesBelow name (base.withRootFields name type) := by
  rw [completed_type?, typesBelow_find?, Option.map_map]
  rfl

theorem completed_hasKind (base : Schema) (name : Name) (kind : TypeKind) :
    base.completed.HasKind name kind ↔
      ∃ type, base.source? name = some type ∧ type.kind = kind := by
  unfold HasKind
  rw [completed_source]
  simp only [Option.map_eq_some_iff]
  constructor
  · rintro ⟨_, ⟨type, hsource, rfl⟩, hkind⟩
    rw [withMembers_kind, withRootFields_kind] at hkind
    exact ⟨type, hsource, hkind⟩
  · rintro ⟨type, hsource, hkind⟩
    exact ⟨_, ⟨type, hsource, rfl⟩, by rwa [withMembers_kind, withRootFields_kind]⟩

theorem withRootFields_has {base : Schema} {name : Name} {type : TypeDefinition} {member : Member} :
    (base.withRootFields name type).Has member ↔ type.Has member ∨
      (base.query = name ∧ (member = .field "__type" ∨ member = .field "__schema")) := by
  unfold withRootFields
  split
  · rename_i hquery
    simp [has_withQueryFields, hquery]
  · rename_i hother
    simp [hother]

/-- What the types of a schema have: what is declared and stands, or what the built-in types have;
then the query type has the fields of introspection, and interfaces the objects that implement
them. -/
theorem has_iff {text : String} {declarations : List Declaration} {schema : Schema}
    (hread : Declaration.ofText text = .ok declarations)
    (hkinds : Declaration.KindsAgree declarations) (hschema : ofText text = .ok schema)
    (name : Name) (member : Member) :
    schema.Has name member ↔
      ((∃ declared, Stands declarations declared ∧ declared.name = name ∧ declared.Has member) ∨
        (¬ Declares declarations name ∧
          ∃ type ∈ Builtin.types, type.name = name ∧ type.Has member)) ∨
      (schema.query = name ∧ (member = .field "__type" ∨ member = .field "__schema")) ∨
      ∃ object, member = .object object ∧ schema.HasKind name .interface ∧
        schema.Implements object name := by
  have hexact := exact_ofText hread hkinds.extensionsFit hschema
  obtain ⟨base, htypes, hroots, rfl⟩ := ofText_eq_completed hread hschema
  have hquery : base.completed.query = base.query :=
    Option.some.inj (rootName?_completed base .query)
  rw [← source_has htypes name member, hquery]
  by_cases hobjects : ∃ object, member = .object object ∧ base.completed.HasKind name .interface
  · obtain ⟨object, rfl, hinterface⟩ := hobjects
    have hobject : base.completed.Has name (.object object) ↔
        base.completed.Implements object name := by
      obtain ⟨type, htype, hkind⟩ := hinterface
      rw [← hexact.interfaces name type htype hkind object]
      simp [Has, htype, TypeDefinition.Has]
    have hsource : ¬ ∃ type, base.source? name = some type ∧ type.Has (.object object) := by
      rintro ⟨type, hfound, hmem⟩
      obtain ⟨other, hother, hkind⟩ := (completed_hasKind base name .interface).mp hinterface
      rw [hfound] at hother
      cases hother
      have hnone := source_interface_members hread hkinds.extensionsFit htypes hfound hkind
      simp [TypeDefinition.Has, hnone] at hmem
    simp [hobject, hsource, hinterface]
  · have hmembers : ∀ type, base.source? name = some type →
        ((withMembers base.typesBelow name (base.withRootFields name type)).Has member ↔
          type.Has member ∨
            (base.query = name ∧ (member = .field "__type" ∨ member = .field "__schema"))) := by
      intro type hsource
      rw [withMembers_has, withRootFields_has]
      intro hkind object heq
      rw [withRootFields_kind] at hkind
      exact hobjects ⟨object, heq, (completed_hasKind base name .interface).mpr ⟨type, hsource, hkind⟩⟩
    have hroot : base.query = name → ∃ type, base.source? name = some type := by
      rintro rfl
      obtain ⟨type, htype, -⟩ := hroots .query base.query rfl
      exact ⟨type, Option.or_eq_some_iff.mpr (.inl htype)⟩
    unfold Has
    rw [completed_source]
    simp only [Option.map_eq_some_iff]
    constructor
    · rintro ⟨_, ⟨type, hsource, rfl⟩, hhas⟩
      rcases (hmembers type hsource).mp hhas with hhas | hintrospection
      · exact .inl ⟨type, hsource, hhas⟩
      · exact .inr (.inl hintrospection)
    · rintro (⟨type, hsource, hhas⟩ | hintrospection | ⟨object, heq, hkind, -⟩)
      · exact ⟨_, ⟨type, hsource, rfl⟩, (hmembers type hsource).mpr (.inl hhas)⟩
      · obtain ⟨type, hsource⟩ := hroot hintrospection.1
        exact ⟨_, ⟨type, hsource, rfl⟩, (hmembers type hsource).mpr (.inr hintrospection)⟩
      · exact absurd ⟨object, heq, hkind⟩ hobjects

theorem hasKind_iff {text : String} {declarations : List Declaration} {schema : Schema}
    (hread : Declaration.ofText text = .ok declarations)
    (hkinds : Declaration.KindsAgree declarations) (hschema : ofText text = .ok schema)
    (name : Name) (kind : TypeKind) :
    schema.HasKind name kind ↔
      (∃ declared ∈ declarations.filterMap Declaration.declared?,
        declared.name = name ∧ declared.kind = kind) ∨
        (¬ Declares declarations name ∧
          ∃ type ∈ Builtin.types, type.name = name ∧ type.kind = kind) := by
  obtain ⟨base, htypes, -, rfl⟩ := ofText_eq_completed hread hschema
  rw [completed_hasKind, source_kind htypes name hkinds]

end Schema

open Schema (hasKind_iff has_iff)

/-- Take a text that defines no type twice and whose declarations of one name are of one kind. Its
types are the declared ones, with the members that stand, and the built-in ones beside them. If no
extension comes ahead of the definition that it extends, then everything that is declared stands;
and another such text with the same declarations of types in any order, whatever else it declares,
gives types of the same kinds with the same members, the possible types of interfaces included. -/
theorem extensions_kept_in_order {text : String} {declarations : List Declaration}
    {schema : Schema} (hread : Declaration.ofText text = .ok declarations)
    (hschema : Schema.ofText text = .ok schema) (honce : Declaration.DefinedOnce declarations)
    (hkinds : Declaration.KindsAgree declarations) :
    (∀ name kind, schema.HasKind name kind ↔
        (∃ declared ∈ declarations.filterMap Declaration.declared?,
          declared.name = name ∧ declared.kind = kind) ∨
        (¬ Declares declarations name ∧
          ∃ type ∈ Builtin.types, type.name = name ∧ type.kind = kind)) ∧
      (∀ name member, schema.Has name member ↔
        ((∃ declared, Stands declarations declared ∧ declared.name = name ∧
            declared.Has member) ∨
          (¬ Declares declarations name ∧
            ∃ type ∈ Builtin.types, type.name = name ∧ type.Has member)) ∨
        (schema.query = name ∧ (member = .field "__type" ∨ member = .field "__schema")) ∨
        ∃ object, member = .object object ∧ schema.HasKind name .interface ∧
          schema.Implements object name) ∧
      (Declaration.InOrder declarations →
        (∀ declared ∈ declarations.filterMap Declaration.declared?, ∀ member,
          declared.Has member → schema.Has declared.name member) ∧
        ∀ (otherText : String) (others : List Declaration) (other : Schema),
          Declaration.ofText otherText = .ok others → Schema.ofText otherText = .ok other →
          (others.filterMap Declaration.ofType?).Perm
            (declarations.filterMap Declaration.ofType?) → Declaration.InOrder others →
          (∀ name kind, other.HasKind name kind ↔ schema.HasKind name kind) ∧
          (∀ object interface,
            other.Implements object interface ↔ schema.Implements object interface) ∧
          ∀ name member,
            ((member = .field "__type" ∨ member = .field "__schema") →
              other.query = schema.query) →
            (other.Has name member ↔ schema.Has name member)) := by
  refine ⟨hasKind_iff hread hkinds hschema, has_iff hread hkinds hschema, fun horder => ⟨?_, ?_⟩⟩
  · intro declared hmem member hhas
    rw [has_iff hread hkinds hschema]
    have hstands := (Declaration.stands_iff_of_inOrder honce horder).mpr hmem
    exact .inl (.inl ⟨declared, hstands, rfl, hhas⟩)
  · intro otherText others other hotherRead hother hperm hotherOrder
    have hdeclared := Declaration.mem_declared_of_perm hperm
    have hotherKinds : Declaration.KindsAgree others := fun first hfirst second hsecond =>
      hkinds first ((hdeclared first).mp hfirst) second ((hdeclared second).mp hsecond)
    have hotherOnce := honce.of_perm hperm
    have hdeclares : ∀ name, Declares others name ↔ Declares declarations name := by
      intro name
      simp only [Declares, hdeclared]
    have hstands : ∀ declared, Stands others declared ↔ Stands declarations declared := by
      intro declared
      rw [Declaration.stands_iff_of_inOrder hotherOnce hotherOrder,
        Declaration.stands_iff_of_inOrder honce horder, hdeclared]
    have hkind : ∀ name kind, other.HasKind name kind ↔ schema.HasKind name kind := by
      intro name kind
      simp only [hasKind_iff hotherRead hotherKinds hother, hasKind_iff hread hkinds hschema,
        hdeclared, hdeclares]
    have himplements : ∀ object interface,
        other.Implements object interface ↔ schema.Implements object interface := by
      intro object interface
      rw [Schema.implements_iff, Schema.implements_iff, hkind,
        has_iff hotherRead hotherKinds hother, has_iff hread hkinds hschema]
      simp only [hstands, hdeclares, reduceCtorEq, false_and, and_false, or_self, exists_false]
    refine ⟨hkind, himplements, fun name member hquery => ?_⟩
    rw [has_iff hotherRead hotherKinds hother, has_iff hread hkinds hschema]
    simp only [hstands, hdeclares, hkind, himplements]
    by_cases hintrospection : member = .field "__type" ∨ member = .field "__schema"
    · rw [hquery hintrospection]
    · simp only [hintrospection, and_false]

/-- A definition with an extension on either side keeps the second one only; with both behind it
keeps both. -/
theorem extensions_kept_in_order_query :
    (∃ (text : String) (declarations : List Declaration) (schema : Schema),
      Declaration.ofText text = .ok declarations ∧ Schema.ofText text = .ok schema ∧
      Declaration.DefinedOnce declarations ∧ Declaration.KindsAgree declarations ∧
      (∃ declared ∈ declarations.filterMap Declaration.declared?,
        declared.name = "Query" ∧ declared.Has (.field "b")) ∧
      schema.Has "Query" (.field "a") ∧ schema.Has "Query" (.field "c") ∧
      ¬ schema.Has "Query" (.field "b")) ∧
    ∃ (text : String) (declarations : List Declaration) (schema : Schema),
      Declaration.ofText text = .ok declarations ∧ Schema.ofText text = .ok schema ∧
      Declaration.DefinedOnce declarations ∧ Declaration.KindsAgree declarations ∧
      Declaration.InOrder declarations ∧ schema.Has "Query" (.field "b") := by
  constructor
  · have hpass : Schema.textPasses (fun declarations schema =>
        decide (Declaration.DefinedOnce declarations ∧ Declaration.KindsAgree declarations ∧
          (∃ declared ∈ declarations.filterMap Declaration.declared?,
            declared.name = "Query" ∧ declared.Has (.field "b")) ∧
          (∃ declared ∈ standing "Query" declarations, declared.Has (.field "a")) ∧
          (∃ declared ∈ standing "Query" declarations, declared.Has (.field "c")) ∧
          ∀ declared ∈ standing "Query" declarations, ¬ declared.Has (.field "b")))
        "extend type Query{b:Int}type Query{a:Int}extend type Query{c:Int}" = true := by
      decide +kernel
    obtain ⟨declarations, schema, hread, hschema, hcheck⟩ := Schema.exists_of_textPasses hpass
    obtain ⟨honce, hkinds, hdeclared, ha, hc, hb⟩ := of_decide_eq_true hcheck
    obtain ⟨-, hhas, -⟩ := extensions_kept_in_order hread hschema honce hkinds
    have hkept : ∀ member, (∃ declared ∈ standing "Query" declarations, declared.Has member) →
        schema.Has "Query" member := by
      rintro member ⟨declared, hmem, hmember⟩
      obtain ⟨hstands, hname⟩ := Declaration.mem_standing_iff.mp hmem
      exact (hhas "Query" member).mpr (.inl (.inl ⟨declared, hstands, hname, hmember⟩))
    refine ⟨_, declarations, schema, hread, hschema, honce, hkinds, hdeclared, hkept _ ha,
      hkept _ hc, fun hlost => ?_⟩
    obtain ⟨declared, hmem, hname, -⟩ := hdeclared
    rcases (hhas _ _).mp hlost with (⟨other, hstands, hother, hmember⟩ | ⟨hnone, -⟩) |
      ⟨-, hfield⟩ | ⟨object, hobject, -⟩
    · exact hb other (Declaration.mem_standing_iff.mpr ⟨hstands, hother⟩) hmember
    · exact hnone ⟨declared, hmem, hname⟩
    · simp at hfield
    · cases hobject
  · have hpass : Schema.textPasses (fun declarations schema =>
        decide (Declaration.DefinedOnce declarations ∧ Declaration.KindsAgree declarations ∧
          Declaration.InOrder declarations ∧
          ∃ declared ∈ declarations.filterMap Declaration.declared?,
            declared.name = "Query" ∧ declared.Has (.field "b")))
        "type Query{a:Int}extend type Query{b:Int}extend type Query{c:Int}" = true := by
      decide +kernel
    obtain ⟨declarations, schema, hread, hschema, hcheck⟩ := Schema.exists_of_textPasses hpass
    obtain ⟨honce, hkinds, horder, declared, hmem, hname, hb⟩ := of_decide_eq_true hcheck
    obtain ⟨-, -, hordered⟩ := extensions_kept_in_order hread hschema honce hkinds
    have hkept := (hordered horder).1 declared hmem (.field "b") hb
    exact ⟨_, declarations, schema, hread, hschema, honce, hkinds, horder, hname ▸ hkept⟩

end QueryAudit
