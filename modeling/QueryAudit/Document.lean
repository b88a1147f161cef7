import QueryAudit.NameTable
import QueryAudit.Text
import QueryAudit.Value.Basic

/-!
# Documents

What a document is made of, down to the types and values that it names, and which fragments it
reaches from a selection set.
-/

/-!
## Type references

A type reference names a type or a list of some element type, each nullable or not. It is written
as in `[Int!]!`.
-/

namespace QueryAudit

inductive TypeRef where
  | named (name : Name) (nonNull : Bool)
  | list (element : TypeRef) (nonNull : Bool)
deriving DecidableEq, Repr, Inhabited

namespace TypeRef

def concreteName : TypeRef → Name
  | .named name _ => name
  | .list element _ => element.concreteName

def isNonNull : TypeRef → Bool
  | .named _ nonNull => nonNull
  | .list _ nonNull => nonNull

def nullable : TypeRef → TypeRef
  | .named name _ => .named name false
  | .list element _ => .list element false

def required : TypeRef → TypeRef
  | .named name _ => .named name true
  | .list element _ => .list element true

def element? : TypeRef → Option TypeRef
  | .named _ _ => none
  | .list element _ => some element

def bang (nonNull : Bool) : String := if nonNull then "!" else ""

def text : TypeRef → String
  | .named name nonNull => name ++ bang nonNull
  | .list element nonNull => "[" ++ element.text ++ "]" ++ bang nonNull

/-- Read a type from its characters: one `!` at the end is taken off; what then opens with `[`
must end with `]`, and the inside is read the same way; anything else, even nothing, is a name. Each
step into a list drops a character, so the number of characters bounds the steps. -/
def ofChars : Nat → List Char → Option TypeRef
  | 0, _ => none
  | steps + 1, chars =>
      let (body, nonNull) :=
        if chars.getLast? = some '!' then (chars.dropLast, true) else (chars, false)
      match body with
      | '[' :: inside =>
          if inside.getLast? = some ']' then
            (ofChars steps inside.dropLast).map fun element => .list element nonNull
          else none
      | _ => some (.named (String.ofList body) nonNull)

/-- Read a type from its text; none when a `[` is not matched by a `]` at the end. -/
def ofText? (text : String) : Option TypeRef :=
  let chars := text.toList
  ofChars (chars.length + 1) chars

@[simp] theorem isNonNull_required (t : TypeRef) : t.required.isNonNull = true := by
  cases t <;> rfl

theorem nullable_of_not_nonNull {t : TypeRef} (h : t.isNonNull = false) : t.nullable = t := by
  cases t <;> simp_all [nullable, isNonNull]

end TypeRef

end QueryAudit

/-!
## Operations and fragments

A document is a list of operations and fragments, put together from one or more sources. Names need
not be unique across sources; a spread means the first fragment of its name.
-/

namespace QueryAudit

structure Argument where
  name : Name
  position : Position
  value : Literal
  valuePosition : Position

structure Directive where
  name : Name
  position : Position
  arguments : List Argument

/-- A selected field, without its sub-selections. It stands at its alias if it has one. -/
structure Field where
  aliasName : Option Name
  name : Name
  position : Position
  arguments : List Argument
  directives : List Directive

structure Spread where
  name : Name
  position : Position
  directives : List Directive

structure InlineFragment where
  condition : Option Name
  position : Position
  directives : List Directive

/-- One item of a selection set. A field without sub-selections has an empty list of them. -/
inductive Selection where
  | field (field : Field) (selections : List Selection)
  | spread (spread : Spread)
  | inline (fragment : InlineFragment) (selections : List Selection)

abbrev SelectionSet := List Selection

inductive OperationKind where
  | query
  | mutation
  | subscription
deriving DecidableEq, Repr

/-- A value together with the place where it is written. -/
structure Default where
  value : Constant
  position : Position

structure VariableDefinition where
  name : Name
  position : Position
  type : TypeRef
  directives : List Directive
  default : Option Default

structure Operation where
  kind : OperationKind
  name : Option Name
  position : Position
  variableDefinitions : List VariableDefinition
  directives : List Directive
  selections : SelectionSet

structure Fragment where
  name : Name
  condition : Name
  position : Position
  directives : List Directive
  selections : SelectionSet

inductive Definition where
  | operation (operation : Operation)
  | fragment (fragment : Fragment)

/-- What one source text holds. The order of the two lists carries no meaning. -/
structure Source where
  operations : List Operation
  fragments : List Fragment

structure Document where
  definitions : List Definition

namespace OperationKind

def text : OperationKind → String
  | .query => "query"
  | .mutation => "mutation"
  | .subscription => "subscription"

end OperationKind

namespace Field

def responseKey (field : Field) : Name := field.aliasName.getD field.name

end Field

namespace Definition

def position : Definition → Position
  | .operation o => o.position
  | .fragment f => f.position

def selections : Definition → SelectionSet
  | .operation o => o.selections
  | .fragment f => f.selections

def operation? : Definition → Option Operation
  | .operation o => some o
  | .fragment _ => none

def fragment? : Definition → Option Fragment
  | .operation _ => none
  | .fragment f => some f

end Definition

namespace Source

/-- The definitions of a source, by the place where they start. -/
def definitions (source : Source) : List Definition :=
  (source.operations.map Definition.operation ++ source.fragments.map Definition.fragment).mergeSort
    fun a b => a.position.before b.position

def fragmentsOnly (source : Source) : Source := { source with operations := [] }

end Source

namespace Document

def empty : Document := ⟨[]⟩

def add (document : Document) (source : Source) : Document :=
  ⟨document.definitions ++ source.definitions⟩

def ofSources (sources : List Source) : Document := sources.foldl add empty

def operations (document : Document) : List Operation :=
  document.definitions.filterMap Definition.operation?

def numberedOperations (document : Document) : List (Nat × Operation) :=
  document.definitions.zipIdx.filterMap fun (definition, number) =>
    definition.operation?.map fun operation => (number, operation)

def fragments (document : Document) : List Fragment :=
  document.definitions.filterMap Definition.fragment?

def fragment? (document : Document) (name : Name) : Option Fragment :=
  document.fragments.find? fun fragment => fragment.name = name

end Document

mutual

/-- The spreads in a selection, at any depth of fields and inline fragments, in order. -/
def Selection.spreads : Selection → List Spread
  | .field _ inner => SelectionSet.spreads inner
  | .spread chosen => [chosen]
  | .inline _ inner => SelectionSet.spreads inner

/-- The spreads in a selection set, at any depth of fields and inline fragments, in order. -/
def SelectionSet.spreads : List Selection → List Spread
  | [] => []
  | selection :: rest => Selection.spreads selection ++ SelectionSet.spreads rest

end

end QueryAudit

/-!
## Fragments reached by spreads

The fragments that a selection set reaches by one spread or more, each once, in order of discovery:
the spreads of a set are taken in order, and the fragment found last is opened next.
-/

namespace QueryAudit.Document

/-- Take spreads in order: the names seen afterwards, and the defined fragments among the new ones.
-/
def discover (document : Document) : List Name → List Spread → List Name × List Fragment
  | seen, [] => (seen, [])
  | seen, spread :: rest =>
      if spread.name ∈ seen then discover document seen rest
      else
        let (after, found) := discover document (spread.name :: seen) rest
        match document.fragment? spread.name with
        | some fragment => (after, fragment :: found)
        | none => (after, found)

/-- Open selection sets from the front of a list, putting the fragments found there in front of it,
last one first, for a number of rounds at most. -/
def reach (document : Document) : Nat → List SelectionSet → List Name → List Fragment
  | 0, _, _ => []
  | _ + 1, [], _ => []
  | rounds + 1, set :: waiting, seen =>
      let (after, found) := document.discover seen (SelectionSet.spreads set)
      found ++ document.reach rounds ((found.map Fragment.selections).reverse ++ waiting) after

/-- The fragments that a selection set reaches. Every round but the first opens a fragment that was
not opened before, so there is at most one more than there are fragments. -/
def reachable (document : Document) (selections : SelectionSet) : List Fragment :=
  document.reach (document.fragments.length + 1) [selections] []

end QueryAudit.Document
