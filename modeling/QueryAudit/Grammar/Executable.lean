import QueryAudit.Grammar.Reader

/-!
# Reading documents

The grammar of operations and fragments, with the values, arguments and directives in them.
-/

/-!
## Values, arguments and directives

The grammar of values comes twice, with and without variables: `value` takes the reader of variables
as a parameter.
-/

namespace QueryAudit.Grammar.Reader

variable {ν : Type}

/-- A variable: its name after a dollar sign. -/
def variableName : Reader Name := mark "$" *> name

def objectField (inner : Reader (Value ν)) : Reader (Name × Value ν) := do
  let key ← name
  mark ":"
  let value ← inner
  pure (key, value)

/-- A value whose items and fields are read by `inner`. The choices are tried in order. A repeated
key of an object keeps its first place and takes the last value. -/
def valueStep (variableReader inner : Reader (Value ν)) : Reader (Value ν) :=
  variableReader
  <|> (Value.number <$> number)
  <|> (Value.string <$> string)
  <|> (Value.boolean <$> boolean)
  <|> (null *> pure Value.null)
  <|> (Value.enum <$> enumName)
  <|> (Value.list <$> (mark "[" *> zeroOrMore inner <* mark "]"))
  <|> ((fun fields => Value.object (NameTable.merge [] fields)) <$>
        (mark "\x7b" *> zeroOrMore (objectField inner) <* mark "\x7d"))

/-- A value with lists and objects nested to a given depth at most. -/
def valueUpTo (variableReader : Reader (Value ν)) : Nat → Reader (Value ν)
  | 0 => failure
  | depth + 1 => valueStep variableReader (valueUpTo variableReader depth)

/-- A value. Each list or object takes a character, so the characters left bound the nesting. -/
def value (variableReader : Reader (Value ν)) : Reader (Value ν) := fun cursor =>
  valueUpTo variableReader (cursor.rest.length + 1) cursor

def literal : Reader Literal := value (Value.var <$> variableName)

def constant : Reader Constant := value failure

def argument : Reader Argument := do
  let position ← here
  let name ← name
  mark ":"
  let valuePosition ← here
  let value ← literal
  pure { name, position, value, valuePosition }

/-- Arguments in parentheses: at least one. -/
def arguments : Reader (List Argument) := mark "(" *> oneOrMore argument <* mark ")"

def directive : Reader Directive := do
  let position ← here
  mark "@"
  let name ← name
  let arguments ← listOrNone arguments
  pure { name, position, arguments }

def directives : Reader (List Directive) := zeroOrMore directive

def defaultValue : Reader (Option Default) := maybe do
  mark "="
  let position ← here
  let value ← constant
  pure { value, position }

end QueryAudit.Grammar.Reader

/-!
## Operations and fragments

Operations and fragments. A selection set below that of its definition counts against a limit of
nesting; one too many is a fault. After the whole text has been read, its definitions are collected:
an operation without name must be the only one, and names must be unique.
-/

namespace QueryAudit.Grammar

/-- How deep selection sets may be nested below that of their definition. -/
def nestingLimit : Nat := 64

namespace Reader

def operationKind : Reader OperationKind :=
  (mark "query" *> pure .query)
  <|> (mark "mutation" *> pure .mutation)
  <|> (mark "subscription" *> pure .subscription)

/-- A type condition: `on`, at least one ignored character but no comment, and a name. -/
def typeCondition : Reader Name := token do
  word "on"
  let _ ← one isIgnored
  let _ ← run isIgnored
  rawName

/-- The declaration of a variable; its directives come before its default. -/
def variableDefinition : Reader VariableDefinition := do
  let position ← here
  let name ← variableName
  mark ":"
  let type ← typeRef
  let directives ← directives
  let default ← defaultValue
  pure { name, position, type, directives, default }

def variableDefinitions : Reader (List VariableDefinition) :=
  mark "(" *> zeroOrMore variableDefinition <* mark ")"

/-- A field; `nested` reads its sub-selections. -/
def field (nested : Reader SelectionSet) : Reader Selection := do
  let position ← here
  let aliasName ← maybe (name <* mark ":")
  let name ← name
  let arguments ← listOrNone arguments
  let directives ← directives
  let selections ← listOrNone nested
  pure (.field { aliasName, name, position, arguments, directives } selections)

def inlineFragment (nested : Reader SelectionSet) : Reader Selection := do
  let position ← here
  mark "..."
  let condition ← maybe typeCondition
  let directives ← directives
  let selections ← nested
  pure (.inline { condition, position, directives } selections)

def fragmentSpread : Reader Selection := do
  let position ← here
  mark "..."
  notAhead typeCondition
  let name ← name
  let directives ← directives
  pure (.spread { name, position, directives })

def selection (nested : Reader SelectionSet) : Reader Selection :=
  field nested <|> inlineFragment nested <|> fragmentSpread

/-- A selection set, below which `limit` more levels are allowed, read in `steps` levels at most. -/
def selectionSetUpTo : Nat → Nat → Reader SelectionSet
  | 0, _ => failure
  | steps + 1, limit =>
      let enter := if limit = 0 then blame .recursionLimitExceeded else pure ()
      mark "\x7b" *> oneOrMore (selection (enter *> selectionSetUpTo steps (limit - 1))) <*
        mark "\x7d"

/-- The selection set of a definition. Each level takes a character, so the characters left bound
the levels. -/
def selectionSet : Reader SelectionSet := fun cursor =>
  selectionSetUpTo (cursor.rest.length + 1) nestingLimit cursor

def namedOperation : Reader Operation := do
  let position ← here
  let kind ← operationKind
  let name ← maybe name
  let variableDefinitions ← listOrNone variableDefinitions
  let directives ← directives
  let selections ← selectionSet
  pure { kind, name, position, variableDefinitions, directives, selections }

def bareQuery : Reader Operation := do
  let position ← here
  let selections ← selectionSet
  pure
    { kind := .query, name := none, position, variableDefinitions := [], directives := [],
      selections }

def fragmentDefinition : Reader Fragment := do
  let position ← here
  mark "fragment"
  let name ← name
  let condition ← typeCondition
  let directives ← directives
  let selections ← selectionSet
  pure { name, condition, position, directives, selections }

def definition : Reader Definition :=
  (Definition.operation <$> (namedOperation <|> bareQuery))
  <|> (Definition.fragment <$> fragmentDefinition)

end Reader

end Grammar

namespace Source

/-- Add an operation. An operation without name must be the only one. -/
def addOperation (source : Source) (operation : Operation) : Except ReadError Source :=
  match operation.name with
  | none =>
      if source.operations.isEmpty then .ok { source with operations := [operation] }
      else .error .multipleOperations
  | some name =>
      if source.operations.any fun other => other.name.isNone then .error .multipleOperations
      else
        match source.operations.find? fun other => other.name = some name with
        | some first => .error (.operationDuplicated name operation.position first.position)
        | none => .ok { source with operations := source.operations ++ [operation] }

def addFragment (source : Source) (fragment : Fragment) : Except ReadError Source :=
  match source.fragments.find? fun other => other.name = fragment.name with
  | some first => .error (.fragmentDuplicated fragment.name fragment.position first.position)
  | none => .ok { source with fragments := source.fragments ++ [fragment] }

def addDefinition (source : Source) : Definition → Except ReadError Source
  | .operation operation => source.addOperation operation
  | .fragment fragment => source.addFragment fragment

/-- Collect definitions in order; the first clash of names wins. -/
def ofDefinitions (definitions : List Definition) : Except ReadError Source := do
  let source ← definitions.foldlM addDefinition ⟨[], []⟩
  if source.operations.isEmpty then .error .missingOperation else .ok source

def ofText (text : String) : Except ReadError Source := do
  let definitions ← (Grammar.Reader.oneOrMore Grammar.Reader.definition).onText text
  ofDefinitions definitions

end Source

end QueryAudit
