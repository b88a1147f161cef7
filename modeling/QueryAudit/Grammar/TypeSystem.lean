import QueryAudit.Grammar.Executable
import QueryAudit.Schema.Basic

/-!
# Reading schema texts

Each sort of type comes as a definition, with an optional description, or as an extension, which
must add something. Member lists keep the order of the text; a repeated member keeps its first place
and takes the last content.
-/

namespace QueryAudit

namespace Grammar.Reader

def constantArgument : Reader (Name × Constant) := do
  let name ← name
  mark ":"
  let value ← constant
  pure (name, value)

def constantDirective : Reader ConstantDirective := do
  mark "@"
  let name ← name
  let arguments ← listOrNone (mark "(" *> oneOrMore constantArgument <* mark ")")
  pure { name, arguments }

def constantDirectives : Reader (List ConstantDirective) := zeroOrMore constantDirective

def someConstantDirectives : Reader (List ConstantDirective) := oneOrMore constantDirective

def description : Reader (Option String) := maybe string

def inputValue : Reader InputValue := do
  let description ← description
  let name ← name
  mark ":"
  let type ← typeRef
  let default ← defaultValue
  let _ ← constantDirectives
  pure { description, name, type, default := default.map Default.value }

def argumentsDefinition : Reader (NameTable InputValue) :=
  NameTable.ofList InputValue.name <$> (mark "(" *> oneOrMore inputValue <* mark ")")

def inputFieldsDefinition : Reader (NameTable InputValue) :=
  NameTable.ofList InputValue.name <$> (mark "\x7b" *> oneOrMore inputValue <* mark "\x7d")

def fieldDefinition : Reader FieldDefinition := do
  let description ← description
  let name ← name
  let arguments ← listOrNone argumentsDefinition
  mark ":"
  let type ← typeRef
  let directives ← constantDirectives
  pure { description, name, arguments, type, deprecation := .ofDirectives directives }

def fieldsDefinition : Reader (NameTable FieldDefinition) :=
  NameTable.ofList FieldDefinition.name <$>
    (mark "\x7b" *> oneOrMore fieldDefinition <* mark "\x7d")

def enumValue : Reader EnumValue := do
  let description ← description
  let name ← enumName
  let directives ← constantDirectives
  pure { description, name, deprecation := .ofDirectives directives }

def enumValues : Reader (NameTable EnumValue) :=
  NameTable.ofList EnumValue.name <$> (mark "\x7b" *> oneOrMore enumValue <* mark "\x7d")

/-- Names with a mark between them, and perhaps before the first. -/
def separated {α : Type} (separator : String) (item : Reader α) : Reader (List α) := do
  let _ ← maybe (mark separator)
  let first ← item
  let others ← zeroOrMore (mark separator *> item)
  pure (first :: others)

def implementsInterfaces : Reader (List Name) :=
  addNames [] <$> (mark "implements" *> separated "&" name)

def unionMembers : Reader (List Name) := addNames [] <$> (mark "=" *> separated "|" name)

def membersOrDirectives {α : Type} (members : Reader (List α)) : Reader (List α) :=
  (constantDirectives *> members) <|> (someConstantDirectives *> pure [])

def extend : Reader Unit := mark "extend"

/-- The two forms of a sort of types: a definition, whose body may be empty, and an extension. -/
def typeForms (keyword : String) (kind : TypeKind)
    (body extensionBody : TypeDefinition → Reader TypeDefinition) : Reader Declaration :=
  (do
    let description ← description
    mark keyword
    let name ← name
    let definition ← body { TypeDefinition.bare name kind with description }
    pure (.type false definition))
  <|> (do
    extend
    mark keyword
    let name ← name
    let definition ← extensionBody (TypeDefinition.bare name kind)
    pure (.type true definition))

def scalarType : Reader Declaration :=
  typeForms "scalar" .scalar
    (fun type => do
      let _ ← constantDirectives
      pure type)
    (fun type => do
      let _ ← someConstantDirectives
      pure type)

def fieldedBody (type : TypeDefinition) : Reader TypeDefinition := do
  let implements ← listOrNone implementsInterfaces
  let _ ← constantDirectives
  let fields ← listOrNone fieldsDefinition
  pure { type with implements, fields }

/-- The body of an extension of an object or interface type that adds fields or directives. -/
def fieldedExtension (type : TypeDefinition) : Reader TypeDefinition := do
  let implements ← listOrNone implementsInterfaces
  let fields ← membersOrDirectives fieldsDefinition
  pure { type with implements, fields }

/-- An object type. Its extension may also add interfaces alone. -/
def objectType : Reader Declaration :=
  typeForms "type" .object fieldedBody fun type =>
    fieldedExtension type <|> (do
      let implements ← implementsInterfaces
      pure { type with implements })

def interfaceType : Reader Declaration :=
  typeForms "interface" .interface fieldedBody fieldedExtension

def unionType : Reader Declaration :=
  typeForms "union" .union
    (fun type => do
      let _ ← constantDirectives
      let members ← listOrNone unionMembers
      pure { type with members })
    (fun type => do
      let members ← membersOrDirectives unionMembers
      pure { type with members })

def enumType : Reader Declaration :=
  typeForms "enum" .enum
    (fun type => do
      let _ ← constantDirectives
      let enumValues ← listOrNone enumValues
      pure { type with enumValues })
    (fun type => do
      let enumValues ← membersOrDirectives enumValues
      pure { type with enumValues })

def inputObjectType : Reader Declaration :=
  typeForms "input" .inputObject
    (fun type => do
      let _ ← constantDirectives
      let inputFields ← listOrNone inputFieldsDefinition
      pure { type with inputFields })
    (fun type => do
      let inputFields ← membersOrDirectives inputFieldsDefinition
      pure { type with inputFields })

def rootType : Reader (OperationKind × Name × Position) := do
  let position ← here
  let kind ← operationKind
  mark ":"
  let name ← name
  pure (kind, name, position)

/-- Collect root types. A second one of the same kind is a fault. -/
def collectRoots (schema : Position) :
    Roots → List (OperationKind × Name × Position) → Reader Roots
  | roots, [] => pure roots
  | roots, (kind, name, position) :: rest => do
      if (roots.get? kind).isSome then blame (.multipleRoots kind position schema)
      collectRoots schema (roots.set kind name) rest

def rootTypes (schema : Position) : Reader Roots := do
  let roots ← mark "\x7b" *> oneOrMore rootType <* mark "\x7d"
  collectRoots schema Roots.none roots

/-- A schema definition or an extension of one. A definition without query root is a fault. -/
def schemaDefinition : Reader Declaration := do
  let position ← here
  (do
    mark "schema"
    let _ ← constantDirectives
    let roots ← rootTypes position
    if roots.query.isNone then blame (.missingQueryRoot position)
    pure (.roots roots))
  <|> (do
    extend
    mark "schema"
    let roots ← (constantDirectives *> rootTypes position) <|>
      (someConstantDirectives *> pure Roots.none)
    pure (.roots roots))

/-- The keyword of one place where a directive may stand. -/
def locationKeyword (location : DirectiveLocation) : Reader DirectiveLocation :=
  mark location.keyword *> pure location

/-- A place where a directive may stand; a keyword that another one starts with comes later. -/
def directiveLocation : Reader DirectiveLocation :=
  locationKeyword .query
  <|> locationKeyword .mutation
  <|> locationKeyword .subscription
  <|> locationKeyword .fieldDefinition
  <|> locationKeyword .field
  <|> locationKeyword .fragmentDefinition
  <|> locationKeyword .fragmentSpread
  <|> locationKeyword .inlineFragment
  <|> locationKeyword .variableDefinition
  <|> locationKeyword .schema
  <|> locationKeyword .scalar
  <|> locationKeyword .object
  <|> locationKeyword .argumentDefinition
  <|> locationKeyword .interface
  <|> locationKeyword .union
  <|> locationKeyword .enumValue
  <|> locationKeyword .enum
  <|> locationKeyword .inputObject
  <|> locationKeyword .inputFieldDefinition

def directiveDefinition : Reader Declaration := do
  let position ← here
  let description ← description
  mark "directive"
  mark "@"
  let name ← name
  let arguments ← listOrNone argumentsDefinition
  let repeatable ← (mark "repeatable" *> pure true) <|> pure false
  mark "on"
  let locations ← separated "|" directiveLocation
  pure (.directive position { description, name, locations, arguments, repeatable })

def declaration : Reader Declaration :=
  schemaDefinition <|> scalarType <|> objectType <|> interfaceType <|> unionType <|> enumType
  <|> inputObjectType <|> directiveDefinition

end Grammar.Reader

namespace Declaration

def ofText (text : String) : Except ReadError (List Declaration) :=
  (Grammar.Reader.oneOrMore Grammar.Reader.declaration).onText text

end Declaration

end QueryAudit
