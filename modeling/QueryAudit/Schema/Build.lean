import QueryAudit.Grammar.TypeSystem
import QueryAudit.Schema.Basic
import QueryAudit.Text

/-!
# From a text to a schema

A schema is built from the declarations of its text and from what every schema has. Whether a
directive may be repeated is looked up in the text itself.
-/

/-!
## Repeatable directives

Whether a directive may be repeated is looked up in the schema text: from the place where the
definition is reported, the first `@` is found, and after the name and a list of arguments in
parentheses the next word is compared with the keyword. Strings, block strings, comments and ignored
characters stand between the words.
-/

namespace QueryAudit.Repeatable

/-- A text without its first lines; each line ends after its line feed. -/
def dropLines : Nat → List Char → List Char
  | 0, chars => chars
  | _ + 1, [] => []
  | count + 1, c :: rest => if c = '\n' then dropLines count rest else dropLines (count + 1) rest

/-- A text without the first characters of its first line, which is left at its end at the latest.
-/
def dropInLine : Nat → List Char → List Char
  | 0, chars => chars
  | _ + 1, [] => []
  | count + 1, c :: rest => if c = '\n' then rest else dropInLine count rest

def suffixAt (chars : List Char) (position : Position) : List Char :=
  dropInLine (position.column - 1) (dropLines (position.line - 1) chars)

inductive Mode where
  | plain
  | comment
  | string (escaped : Bool)
  | block (afterBackslash : Bool)

def isWordChar (c : Char) : Bool := c.isAlphanum || c == '_'

def isPassed (c : Char) : Bool := Text.isBlank c || c == ',' || c == '\ufeff'

/-- Put a word in front of the words that follow it, unless it is empty. -/
def closeWord (word : List Char) (words : List String) : List String :=
  if word.isEmpty then words else String.ofList word :: words

/-- The words and marks of a text; `word` holds the characters of the word being read. -/
def words : Mode → List Char → List Char → List String
  | .plain, word, '"' :: '"' :: '"' :: rest => closeWord word (words (.block false) [] rest)
  | .plain, word, [] => closeWord word []
  | .plain, word, c :: rest =>
      if isWordChar c then words .plain (word ++ [c]) rest
      else
        closeWord word <|
          if isPassed c then words .plain [] rest
          else if c = '#' then words .comment [] rest
          else if c = '"' then words (.string false) [] rest
          else String.singleton c :: words .plain [] rest
  | .comment, _, [] => []
  | .comment, _, c :: rest => if c = '\n' then words .plain [] rest else words .comment [] rest
  | .string _, _, [] => []
  | .string escaped, _, c :: rest =>
      if escaped then words (.string false) [] rest
      else if c = '\\' then words (.string true) [] rest
      else if c = '"' ∨ c = '\n' then words .plain [] rest
      else words (.string false) [] rest
  | .block afterBackslash, _, '"' :: '"' :: '"' :: rest =>
      if afterBackslash then words (.block false) [] rest else words .plain [] rest
  | .block _, _, [] => []
  | .block _, _, c :: rest => words (.block (c = '\\')) [] rest

/-- The words after the parenthesis that closes the outermost of `depth` open ones. -/
def afterParens : Nat → List String → List String
  | _, [] => []
  | depth, word :: rest =>
      if word = "(" then afterParens (depth + 1) rest
      else if word = ")" then
        if depth ≤ 1 then rest else afterParens (depth - 1) rest
      else afterParens depth rest

/-- Whether the keyword follows the first directive name and its arguments. -/
def keywordFollows (all : List String) : Bool :=
  match all.dropWhile (· ≠ "@") with
  | _ :: _ :: rest =>
      match rest with
      | "(" :: inside => (afterParens 1 inside).head? = some "repeatable"
      | next :: _ => next = "repeatable"
      | [] => false
  | _ => false

def isRepeatable (text : String) (position : Position) : Bool :=
  keywordFollows (words .plain [] (suffixAt text.toList position))

end QueryAudit.Repeatable

/-!
## Built-in definitions

The scalars, directives and introspection types that every schema has unless it defines them itself,
and the two introspection fields of the query type.
-/

namespace QueryAudit.Builtin

def optional (name : Name) : TypeRef := .named name false

def required (name : Name) : TypeRef := .named name true

def listOf (name : Name) : TypeRef := .list (required name) false

/-- A list of values, neither the list nor any of them null. -/
def requiredListOf (name : Name) : TypeRef := .list (required name) true

def argument (name : Name) (type : TypeRef) (default : Option Constant) : InputValue :=
  { description := none, name, type, default }

def fieldWith (arguments : List InputValue) (name : Name) (type : TypeRef) : FieldDefinition :=
  { description := none, name, arguments := NameTable.ofList InputValue.name arguments, type,
    deprecation := .current }

def field (name : Name) (type : TypeRef) : FieldDefinition := fieldWith [] name type

/-- A field whose argument tells whether deprecated items are listed too. -/
def listingField (name : Name) (type : TypeRef) : FieldDefinition :=
  fieldWith [argument "includeDeprecated" (optional "Boolean") (some (.boolean false))] name type

def objectType (name : Name) (fields : List FieldDefinition) : TypeDefinition :=
  { TypeDefinition.bare name .object with fields := NameTable.ofList FieldDefinition.name fields }

def enumType (name : Name) (values : List Name) : TypeDefinition :=
  { TypeDefinition.bare name .enum with
    enumValues := NameTable.ofList EnumValue.name
      (values.map fun value => { description := none, name := value, deprecation := .current }) }

def directive (name : Name) (arguments : List InputValue) (locations : List DirectiveLocation) :
    DirectiveDefinition :=
  { description := none, name, locations,
    arguments := NameTable.ofList InputValue.name arguments, repeatable := false }

def types : List TypeDefinition :=
  [ TypeDefinition.bare "Int" .scalar,
    TypeDefinition.bare "Float" .scalar,
    TypeDefinition.bare "String" .scalar,
    TypeDefinition.bare "Boolean" .scalar,
    TypeDefinition.bare "ID" .scalar,
    objectType "__Schema"
      [ field "description" (optional "String"),
        field "types" (requiredListOf "__Type"),
        field "queryType" (required "__Type"),
        field "mutationType" (optional "__Type"),
        field "subscriptionType" (optional "__Type"),
        field "directives" (requiredListOf "__Directive") ],
    objectType "__Type"
      [ field "kind" (required "__TypeKind"),
        field "name" (optional "String"),
        field "description" (optional "String"),
        field "specifiedByURL" (optional "String"),
        listingField "fields" (listOf "__Field"),
        field "interfaces" (listOf "__Type"),
        field "possibleTypes" (listOf "__Type"),
        listingField "enumValues" (listOf "__EnumValue"),
        listingField "inputFields" (listOf "__InputValue"),
        field "ofType" (optional "__Type") ],
    enumType "__TypeKind"
      ["SCALAR", "OBJECT", "INTERFACE", "UNION", "ENUM", "INPUT_OBJECT", "LIST", "NON_NULL"],
    objectType "__Field"
      [ field "name" (required "String"),
        field "description" (optional "String"),
        listingField "args" (requiredListOf "__InputValue"),
        field "type" (required "__Type"),
        field "isDeprecated" (required "Boolean"),
        field "deprecationReason" (optional "String") ],
    objectType "__InputValue"
      [ field "name" (required "String"),
        field "description" (optional "String"),
        field "type" (required "__Type"),
        field "defaultValue" (optional "String"),
        field "isDeprecated" (required "Boolean"),
        field "deprecationReason" (optional "String") ],
    objectType "__EnumValue"
      [ field "name" (required "String"),
        field "description" (optional "String"),
        field "isDeprecated" (required "Boolean"),
        field "deprecationReason" (optional "String") ],
    objectType "__Directive"
      [ field "name" (required "String"),
        field "description" (optional "String"),
        field "locations" (requiredListOf "__DirectiveLocation"),
        listingField "args" (requiredListOf "__InputValue"),
        field "isRepeatable" (required "Boolean") ],
    enumType "__DirectiveLocation"
      ["QUERY", "MUTATION", "SUBSCRIPTION", "FIELD", "FRAGMENT_DEFINITION", "FRAGMENT_SPREAD",
        "INLINE_FRAGMENT", "VARIABLE_DEFINITION", "SCHEMA", "SCALAR", "OBJECT",
        "FIELD_DEFINITION", "ARGUMENT_DEFINITION", "INTERFACE", "UNION", "ENUM", "ENUM_VALUE",
        "INPUT_OBJECT", "INPUT_FIELD_DEFINITION"] ]

def directives : List DirectiveDefinition :=
  [ directive "skip" [argument "if" (required "Boolean") none]
      [.field, .fragmentSpread, .inlineFragment],
    directive "include" [argument "if" (required "Boolean") none]
      [.field, .fragmentSpread, .inlineFragment],
    directive "deprecated"
      [argument "reason" (optional "String") (some (.string "No longer supported"))]
      [.fieldDefinition, .argumentDefinition, .inputFieldDefinition, .enumValue],
    directive "specifiedBy" [argument "url" (required "String") none] [.scalar] ]

def queryFields : List FieldDefinition :=
  [ fieldWith [argument "name" (required "String") none] "__type" (optional "__Type"),
    field "__schema" (required "__Schema") ]

end QueryAudit.Builtin

/-!
## Building a schema

Declarations are taken in order. An extension adds its members to the type that has its name; one
that finds no such type is a type of its own. A later definition replaces an earlier one. Then the
roots are settled and checked, the built-in definitions are added where they are missing, and the
members of each interface are the objects that declare it.
-/

namespace QueryAudit

inductive SchemaError where
  | unreadable (cause : ReadError)
  | unknownRootType (name : Name)
  | rootTypeNotObject (name : Name)
deriving DecidableEq, Repr

namespace SchemaError

def message : SchemaError → String
  | .unreadable cause => "Failed to parse schema: " ++ cause.message
  | .unknownRootType name => "Root operation type '" ++ name ++ "' is not defined."
  | .rootTypeNotObject name => "Root operation type '" ++ name ++ "' must be an object type."

end SchemaError

namespace TypeDefinition

/-- A type with the members of an extension; its kind and description stay. -/
def extend (type extension : TypeDefinition) : TypeDefinition :=
  { type with
    implements := addNames type.implements extension.implements
    fields := type.fields.merge extension.fields
    members := addNames type.members extension.members
    enumValues := type.enumValues.merge extension.enumValues
    inputFields := type.inputFields.merge extension.inputFields }

end TypeDefinition

structure Declared where
  roots : Option Roots
  types : NameTable TypeDefinition
  directives : NameTable DirectiveDefinition

namespace Declared

def empty : Declared := ⟨none, [], []⟩

def addType (declared : Declared) (isExtension : Bool) (type : TypeDefinition) : Declared :=
  if isExtension && declared.types.has type.name then
    { declared with types := declared.types.adjust type.name fun base => base.extend type }
  else { declared with types := declared.types.insert type.name type }

def add (text : String) (declared : Declared) : Declaration → Declared
  | .roots roots => { declared with roots := some roots }
  | .type isExtension type => declared.addType isExtension type
  | .directive position directive =>
      let repeatable := Repeatable.isRepeatable text position
      { declared with
        directives := declared.directives.insert directive.name { directive with repeatable } }

def ofDeclarations (text : String) (declarations : List Declaration) : Declared :=
  declarations.foldl (add text) empty

/-- The root types: as the last schema definition says, or else by their usual names. The query type
always has a name. -/
def rootNames (declared : Declared) : Name × Option Name × Option Name :=
  match declared.roots with
  | some roots => (roots.query.getD "Query", roots.mutation, roots.subscription)
  | none =>
      ("Query", if declared.types.has "Mutation" then some "Mutation" else none,
        if declared.types.has "Subscription" then some "Subscription" else none)

/-- Refuse a root type that is unknown or no object type. -/
def checkRoot (declared : Declared) (name : Name) : Except SchemaError Unit :=
  match declared.types.find? name with
  | none => .error (.unknownRootType name)
  | some type => if type.isObject then .ok () else .error (.rootTypeNotObject name)

end Declared

namespace Schema

def addBuiltins (schema : Schema) : Schema :=
  { schema with
    types := Builtin.types.foldl (fun table type => table.insertNew type.name type) schema.types
    directives := Builtin.directives.foldl
      (fun table directive => table.insertNew directive.name directive) schema.directives }

def addQueryFields (schema : Schema) : Schema :=
  { schema with
    types := schema.types.adjust schema.query fun type =>
      { type with
        fields := Builtin.queryFields.foldl (fun table field => table.insert field.name field)
          type.fields } }

def implementors (types : NameTable TypeDefinition) (interface : Name) : List Name :=
  (types.entries.filter fun type => type.isObject && type.implements.contains interface).map
    TypeDefinition.name

/-- Give each interface that some object declares the objects that do as its members. -/
def addMembers (schema : Schema) : Schema :=
  { schema with
    types := schema.types.map fun (name, type) =>
      match type.kind, implementors schema.types name with
      | .interface, first :: others => (name, { type with members := first :: others })
      | _, _ => (name, type) }

def ofDeclared (declared : Declared) : Except SchemaError Schema := do
  let (query, mutation, subscription) := declared.rootNames
  declared.checkRoot query
  mutation.forM declared.checkRoot
  subscription.forM declared.checkRoot
  let schema : Schema :=
    { query, mutation, subscription, types := declared.types, directives := declared.directives,
      converters := [] }
  pure schema.addBuiltins.addQueryFields.addMembers

def ofText (text : String) : Except SchemaError Schema :=
  match Declaration.ofText text with
  | .error cause => .error (.unreadable cause)
  | .ok declarations => ofDeclared (Declared.ofDeclarations text declarations)

end Schema

end QueryAudit
