import QueryAudit.Document

/-!
# Schemas

The types and directives that documents may use, how types compare, and what the definitions of a
schema text declare.
-/

/-!
## Types and directives

A schema names the types and directives that documents may use. Every type has one table for each
sort of member. The kind of a type decides how the type is used, not which tables are filled: an
extension adds its members to a type of any kind.
-/

namespace QueryAudit

inductive Deprecation where
  | current
  | deprecated (reason : Option String)
deriving DecidableEq, Repr

structure InputValue where
  description : Option String
  name : Name
  type : TypeRef
  default : Option Constant

structure FieldDefinition where
  description : Option String
  name : Name
  arguments : NameTable InputValue
  type : TypeRef
  deprecation : Deprecation

structure EnumValue where
  description : Option String
  name : Name
  deprecation : Deprecation

inductive TypeKind where
  | scalar
  | object
  | interface
  | union
  | enum
  | inputObject
deriving DecidableEq, Repr

structure TypeDefinition where
  description : Option String
  name : Name
  kind : TypeKind
  /-- The interfaces that the type declares, each once. -/
  implements : List Name
  fields : NameTable FieldDefinition
  /-- The members of a union, or the objects that implement an interface, each once. -/
  members : List Name
  enumValues : NameTable EnumValue
  inputFields : NameTable InputValue

inductive DirectiveLocation where
  | query
  | mutation
  | subscription
  | field
  | fragmentDefinition
  | fragmentSpread
  | inlineFragment
  | variableDefinition
  | schema
  | scalar
  | object
  | fieldDefinition
  | argumentDefinition
  | interface
  | union
  | enum
  | enumValue
  | inputObject
  | inputFieldDefinition
deriving DecidableEq, Repr

structure DirectiveDefinition where
  description : Option String
  name : Name
  locations : List DirectiveLocation
  arguments : NameTable InputValue
  repeatable : Bool

/-- Checks and converts the constants of a scalar type; a refusal gives its reason. -/
abbrev Converter := Constant → Except String Constant

structure Schema where
  query : Name
  mutation : Option Name
  subscription : Option Name
  types : NameTable TypeDefinition
  directives : NameTable DirectiveDefinition
  /-- The converters registered for scalar types. -/
  converters : NameTable Converter

/-- Put a name at the end of a list of names that does not hold it yet. -/
def addName (names : List Name) (name : Name) : List Name :=
  if name ∈ names then names else names ++ [name]

/-- The distinct names of a list, by first occurrence, after those of another. -/
def addNames (names more : List Name) : List Name := more.foldl addName names

/-- Names that start with two underscores are reserved for introspection. -/
def isReserved (name : Name) : Bool := "__".toList.isPrefixOf name.toList

namespace DirectiveLocation

def keyword : DirectiveLocation → String
  | .query => "QUERY"
  | .mutation => "MUTATION"
  | .subscription => "SUBSCRIPTION"
  | .field => "FIELD"
  | .fragmentDefinition => "FRAGMENT_DEFINITION"
  | .fragmentSpread => "FRAGMENT_SPREAD"
  | .inlineFragment => "INLINE_FRAGMENT"
  | .variableDefinition => "VARIABLE_DEFINITION"
  | .schema => "SCHEMA"
  | .scalar => "SCALAR"
  | .object => "OBJECT"
  | .fieldDefinition => "FIELD_DEFINITION"
  | .argumentDefinition => "ARGUMENT_DEFINITION"
  | .interface => "INTERFACE"
  | .union => "UNION"
  | .enum => "ENUM"
  | .enumValue => "ENUM_VALUE"
  | .inputObject => "INPUT_OBJECT"
  | .inputFieldDefinition => "INPUT_FIELD_DEFINITION"

end DirectiveLocation

namespace InputValue

/-- Whether a value must be given: null is excluded and there is no default. -/
def isRequired (input : InputValue) : Bool := input.type.isNonNull && input.default.isNone

end InputValue

namespace TypeDefinition

def bare (name : Name) (kind : TypeKind) : TypeDefinition where
  description := none
  name := name
  kind := kind
  implements := []
  fields := []
  members := []
  enumValues := []
  inputFields := []

def isIntrospection (type : TypeDefinition) : Bool := isReserved type.name

/-- Whether fields can be selected on the type. -/
def isComposite (type : TypeDefinition) : Bool :=
  match type.kind with
  | .object | .interface | .union => true
  | _ => false

/-- Whether the type stands for several object types. -/
def isAbstract (type : TypeDefinition) : Bool :=
  match type.kind with
  | .interface | .union => true
  | _ => false

/-- Whether values of the type have no fields. -/
def isLeaf (type : TypeDefinition) : Bool :=
  match type.kind with
  | .scalar | .enum => true
  | _ => false

def isInput (type : TypeDefinition) : Bool :=
  match type.kind with
  | .scalar | .enum | .inputObject => true
  | _ => false

def isObject (type : TypeDefinition) : Bool := type.kind == .object

/-- The names of the object types that satisfy the type. -/
def possibleTypes (type : TypeDefinition) : List Name :=
  (if type.isObject then [type.name] else []) ++ type.members

def isPossible (type : TypeDefinition) (name : Name) : Bool :=
  match type.kind with
  | .interface | .union => type.members.contains name
  | .object => type.name == name
  | _ => false

/-- Whether an object could be of both types. -/
def overlaps (a b : TypeDefinition) : Bool :=
  if a.name = b.name then true
  else
    match a.isAbstract, b.isAbstract with
    | true, true => a.members.any b.isPossible
    | true, false => a.isPossible b.name
    | false, true => b.isPossible a.name
    | false, false => false

end TypeDefinition

namespace Schema

def type? (schema : Schema) (name : Name) : Option TypeDefinition := schema.types.find? name

def concreteType? (schema : Schema) (ref : TypeRef) : Option TypeDefinition :=
  schema.type? ref.concreteName

def directive? (schema : Schema) (name : Name) : Option DirectiveDefinition :=
  schema.directives.find? name

def rootName? (schema : Schema) : OperationKind → Option Name
  | .query => some schema.query
  | .mutation => schema.mutation
  | .subscription => schema.subscription

def rootType? (schema : Schema) (kind : OperationKind) : Option TypeDefinition :=
  (schema.rootName? kind).bind schema.type?

/-- The field that every composite type has and none declares. -/
def typenameField : FieldDefinition where
  description := none
  name := "__typename"
  arguments := []
  type := .named "String" true
  deprecation := .current

def fieldOn? (type : TypeDefinition) (name : Name) : Option FieldDefinition :=
  if name = "__typename" ∧ type.isComposite then some typenameField else type.fields.find? name

/-- The schema with a converter registered for a scalar type; the last one registered counts. -/
def withConverter (schema : Schema) (name : Name) (converter : Converter) : Schema :=
  { schema with converters := schema.converters.insert name converter }

/-- Whether a type reference names a known type that may be given as input. -/
def isInputType (schema : Schema) (ref : TypeRef) : Bool :=
  match schema.concreteType? ref with
  | some type => type.isInput
  | none => false

end Schema

end QueryAudit

/-!
## Comparing types

When a value of one type may stand where another is expected, when a variable may be used at a
place, and when two fields of one response key have results of different shape.
-/

namespace QueryAudit.Schema

/-- Whether a value of the first type can always be used where the second is expected: wherever the
second excludes null the first does, lists stand over lists, and at the core the names are equal or
an object type satisfies an abstract one. -/
def isSubtype (schema : Schema) : TypeRef → TypeRef → Bool
  | .list sub subNonNull, .list super superNonNull =>
      (subNonNull || !superNonNull) && isSubtype schema sub super
  | .named sub subNonNull, .named super superNonNull =>
      (subNonNull || !superNonNull) &&
        (sub == super ||
          match schema.type? sub, schema.type? super with
          | some subType, some superType =>
              superType.isAbstract && subType.isObject && superType.isPossible subType.name
          | _, _ => false)
  | _, _ => false

/-- Whether a variable may be used at a place. A nullable variable may stand where null is excluded
if it has a default other than null or the place has a default. -/
def allowsVariable (schema : Schema) (declared : TypeRef) (default : Option Constant)
    (place : TypeRef) (placeHasDefault : Bool) : Bool :=
  if place.isNonNull && !declared.isNonNull then
    let hasDefault := match default with
      | some value => !value.isNull
      | none => false
    (hasDefault || placeHasDefault) && schema.isSubtype declared place.nullable
  else schema.isSubtype declared place

def isLeafName (schema : Schema) (name : Name) : Bool :=
  match schema.type? name with
  | some type => type.isLeaf
  | none => false

/-- Whether two result types cannot stand under one response key: they differ in nullability or list
depth, or one is a leaf and the names differ. -/
def typesConflict (schema : Schema) : TypeRef → TypeRef → Bool
  | .list a aNonNull, .list b bNonNull => aNonNull != bNonNull || typesConflict schema a b
  | .named a aNonNull, .named b bNonNull =>
      aNonNull != bNonNull ||
        ((schema.isLeafName a || schema.isLeafName b) && a != b)
  | _, _ => true

end QueryAudit.Schema

/-!
## Declarations of a schema text

What one definition of a schema text declares: the root types, a type or an extension of one, or a
directive.
-/

namespace QueryAudit

structure Roots where
  query : Option Name
  mutation : Option Name
  subscription : Option Name
deriving DecidableEq, Repr

structure ConstantDirective where
  name : Name
  arguments : List (Name × Constant)

/-- One definition of a schema text. A directive comes with the place where its definition starts,
and is repeatable when the grammar met the keyword. -/
inductive Declaration where
  | roots (roots : Roots)
  | type (isExtension : Bool) (definition : TypeDefinition)
  | directive (position : Position) (definition : DirectiveDefinition)

namespace Roots

def none : Roots := ⟨.none, .none, .none⟩

def get? (roots : Roots) : OperationKind → Option Name
  | .query => roots.query
  | .mutation => roots.mutation
  | .subscription => roots.subscription

def set (roots : Roots) (kind : OperationKind) (name : Name) : Roots :=
  match kind with
  | .query => { roots with query := name }
  | .mutation => { roots with mutation := name }
  | .subscription => { roots with subscription := name }

end Roots

namespace Deprecation

def reasonOf : List (Name × Constant) → Option String
  | [] => none
  | ("reason", .string reason) :: _ => some reason
  | _ :: rest => reasonOf rest

/-- The deprecation that a list of directives declares; the first directive of that name counts. -/
def ofDirectives (directives : List ConstantDirective) : Deprecation :=
  match directives.find? fun directive => directive.name = "deprecated" with
  | some directive => .deprecated (reasonOf directive.arguments)
  | none => .current

end Deprecation

end QueryAudit
