import QueryAudit.Problem
import QueryAudit.Schema.Basic
import QueryAudit.Value.Check
import QueryAudit.Walk

/-!
# Merging fields

Fields under one response key are to give one result. Whether they do is found by comparing them two
by two, down into their sub-selections and through the fragments that they spread.
-/

/-!
## The fields of a selection set

What a selection set selects at its own level: the fields in it and in its inline fragments, each
with the type it is selected on, and the names of the fragments spread there. Fields are grouped by
the key under which they stand in the response.
-/

namespace QueryAudit.Merge

structure Entry where
  /-- The type on which the field is selected, if it is known. -/
  parent : Option TypeDefinition
  field : Field
  definition : Option FieldDefinition
  selections : SelectionSet
  /-- The address of its sub-selections. -/
  address : Address

/-- A field or a spread at the level of a selection set. -/
inductive Item where
  | entry (entry : Entry)
  | spread (name : Name)

structure Gathered where
  address : Address
  /-- The fields by response key, keys and fields in order of arrival. -/
  fields : NameTable (List Entry)
  /-- The names of the fragments spread, each once. -/
  spreads : List Name

mutual

/-- What an item of a selection set selects at the level of the set. -/
def itemsOf (schema : Schema) (parent : Option TypeDefinition) (address : Address) :
    Selection → List Item
  | .field chosen inner =>
      let definition := parent.bind fun type => Schema.fieldOn? type chosen.name
      [.entry { parent, field := chosen, definition, selections := inner, address }]
  | .spread chosen => [.spread chosen.name]
  | .inline head inner =>
      let type := match head.condition with
        | some condition => schema.type? condition
        | none => parent
      itemsOfAll schema type address 0 inner

/-- What the items of the set at an address select; the first of them has the given number. -/
def itemsOfAll (schema : Schema) (parent : Option TypeDefinition) (address : Address) :
    Nat → List Selection → List Item
  | _, [] => []
  | number, selection :: rest =>
      itemsOf schema parent (number :: address) selection ++
        itemsOfAll schema parent address (number + 1) rest

end

/-- Put a field at the end of those of its response key. -/
def addEntry (fields : NameTable (List Entry)) (entry : Entry) : NameTable (List Entry) :=
  let key := entry.field.responseKey
  fields.insert key ((fields.find? key).getD [] ++ [entry])

def Gathered.add (gathered : Gathered) : Item → Gathered
  | .entry entry => { gathered with fields := addEntry gathered.fields entry }
  | .spread name => { gathered with spreads := addName gathered.spreads name }

def gather (schema : Schema) (parent : Option TypeDefinition) (address : Address)
    (selections : SelectionSet) : Gathered :=
  (itemsOfAll schema parent address 0 selections).foldl Gathered.add ⟨address, [], []⟩

end QueryAudit.Merge

/-!
## Conflicts between two fields

Two fields of one response key conflict by themselves if they could both be present and are
different fields or have differing arguments, or if their results differ in shape.
-/

namespace QueryAudit.Merge

/-- A conflict of fields under one response key, with the fields of either side. -/
structure Conflict where
  key : Name
  reason : MergeReason
  first : List Field
  second : List Field

/-- Whether two argument values mean the same: their coerced values are equal, or, where either
cannot be coerced, they are written alike. -/
def sameValue (schema : Schema) (type : Option TypeRef) (a b : Literal) : Bool :=
  match a.coerce schema type, b.coerce schema type with
  | some first, some second => Value.sameConstant first second
  | _, _ => Value.sameLiteral a b

/-- Whether two fields have the same arguments, whatever their order; `definition` declares the
types of the arguments. -/
def sameArguments (schema : Schema) (definition : Option FieldDefinition) (a b : Field) : Bool :=
  a.arguments.length == b.arguments.length &&
    a.arguments.all fun argument =>
      match b.arguments.find? fun other => argument.name = other.name with
      | none => false
      | some other =>
          let type := (definition.bind fun d => d.arguments.find? argument.name).map InputValue.type
          sameValue schema type argument.value other.value

/-- Whether two fields can never both be present: they are selected on different object types. -/
def areExclusive (a b : Entry) : Bool :=
  match a.parent, b.parent with
  | some first, some second => first.name != second.name && first.isObject && second.isObject
  | _, _ => false

def directReason? (schema : Schema) (exclusive : Bool) (a b : Entry) : Option MergeReason :=
  if !exclusive && a.field.name != b.field.name then
    some (.differentFields a.field.name b.field.name)
  else if !exclusive && !sameArguments schema a.definition a.field b.field then
    some .differingArguments
  else
    match a.definition, b.definition with
    | some first, some second =>
        if schema.typesConflict first.type second.type then
          some (.conflictingTypes first.type second.type)
        else none
    | _, _ => none

def Conflict.direct (key : Name) (reason : MergeReason) (a b : Entry) : Conflict :=
  ⟨key, reason, [a.field], [b.field]⟩

/-- The conflict of two fields whose sub-selections conflict; none if they do not. -/
def Conflict.ofSubfields (key : Name) (a b : Entry) (below : List Conflict) : List Conflict :=
  if below.isEmpty then []
  else
    [{ key
       reason := .subfields (below.map fun conflict => (conflict.key, conflict.reason))
       first := a.field :: below.flatMap Conflict.first
       second := b.field :: below.flatMap Conflict.second }]

def Conflict.diagnostic (conflict : Conflict) : Diagnostic :=
  { problem := .unmergeable conflict.key conflict.reason
    positions := (conflict.first ++ conflict.second).map Field.position }

end QueryAudit.Merge

/-!
## Searching for conflicts

The fields of a selection set are compared with each other, with those of the fragments spread in
it, and those fragments with each other; fields of one key are compared in turn by their
sub-selections. Each comparison is a task. Opening a task settles it or breaks it into further
tasks, which are done in order.

A ledger is kept over the whole search. A selection set is gathered once, on the type it was first
asked for. A set is compared with a fragment once for each assumption about exclusiveness. Two
fragments are compared again only if they were compared as exclusive before and are not now. So the
search ends, however fragments spread each other.
-/

namespace QueryAudit.Merge

/-- A comparison. `exclusive` says that the fields compared are known never to be both present. -/
inductive Task where
  /-- Compare two fields of one response key. -/
  | fields (key : Name) (exclusive : Bool) (a b : Entry)
  /-- Compare the fields of a set with those of a fragment. -/
  | setWithFragment (exclusive : Bool) (set : Gathered) (name : Name)
  /-- Compare the fields of two fragments. -/
  | fragments (exclusive : Bool) (a b : Name)

/-- What the search has done. The comparisons stand in the order in which they were opened, last one
first. -/
structure Ledger where
  gathered : List (Address × Gathered)
  setsWithFragments : List (Address × Name × Bool)
  fragmentPairs : List ((Name × Name) × Bool)

/-- An opened task: the ledger afterwards, the tasks it breaks into, and what their conflicts mean
for it. -/
structure Opened where
  ledger : Ledger
  tasks : List Task
  conclude : List Conflict → List Conflict

namespace Ledger

def empty : Ledger := ⟨[], [], []⟩

def gathered? (ledger : Ledger) (address : Address) : Option Gathered :=
  (ledger.gathered.find? fun entry => entry.1 = address).map Prod.snd

/-- What the set at an address selects: as found before, or else on the given type. -/
def gather (schema : Schema) (ledger : Ledger) (parent : Option TypeDefinition)
    (address : Address) (selections : SelectionSet) : Ledger × Gathered :=
  match ledger.gathered? address with
  | some found => (ledger, found)
  | none =>
      let found := Merge.gather schema parent address selections
      ({ ledger with gathered := (address, found) :: ledger.gathered }, found)

/-- Two names in an order that does not depend on which comes first. -/
def pairKey (a b : Name) : Name × Name := if a < b then (a, b) else (b, a)

/-- Whether two fragments need not be compared: they were compared as exclusive and are exclusive
now, or they were compared as not exclusive. -/
def hasPair (ledger : Ledger) (exclusive : Bool) (a b : Name) : Bool :=
  match ledger.fragmentPairs.find? fun entry => entry.1 = pairKey a b with
  | some (_, before) => exclusive || !before
  | none => false

end Ledger

def Opened.nothing (ledger : Ledger) : Opened := ⟨ledger, [], fun conflicts => conflicts⟩

def Opened.into (ledger : Ledger) (tasks : List Task) : Opened :=
  ⟨ledger, tasks, fun conflicts => conflicts⟩

def locate? (document : Document) (name : Name) : Option (Address × Fragment) :=
  document.definitions.zipIdx.findSome? fun (definition, number) =>
    match definition with
    | .fragment fragment => if fragment.name = name then some ([number], fragment) else none
    | .operation _ => none

def pairwise (key : Name) : List Entry → List Task
  | [] => []
  | entry :: rest => rest.map (Task.fields key false entry) ++ pairwise key rest

/-- Compare the fields of one set with each other, key by key. -/
def tasksWithin (fields : NameTable (List Entry)) : List Task :=
  fields.flatMap fun (key, entries) => pairwise key entries

def tasksBetween (exclusive : Bool) (first second : NameTable (List Entry)) : List Task :=
  first.flatMap fun (key, entries) =>
    match second.find? key with
    | some others => entries.flatMap fun entry => others.map (Task.fields key exclusive entry)
    | none => []

/-- Compare a set with each of its fragments, and each fragment with the later ones. -/
def tasksForSpreads (set : Gathered) : List Name → List Task
  | [] => []
  | name :: rest =>
      Task.setWithFragment false set name ::
        (rest.map (Task.fragments false name) ++ tasksForSpreads set rest)

def tasksForSet (set : Gathered) : List Task :=
  tasksWithin set.fields ++ tasksForSpreads set set.spreads

/-- All comparisons for the sub-selections of two fields. -/
def tasksForSubsets (exclusive : Bool) (first second : Gathered) : List Task :=
  tasksBetween exclusive first.fields second.fields ++
    second.spreads.map (Task.setWithFragment exclusive first) ++
    first.spreads.map (Task.setWithFragment exclusive second) ++
    first.spreads.flatMap fun name => second.spreads.map (Task.fragments exclusive name)

def openFields (schema : Schema) (ledger : Ledger) (key : Name) (exclusive : Bool)
    (a b : Entry) : Opened :=
  let exclusive := exclusive || areExclusive a b
  match directReason? schema exclusive a b with
  | some reason => ⟨ledger, [], fun _ => [Conflict.direct key reason a b]⟩
  | none =>
      if a.selections.isEmpty || b.selections.isEmpty then Opened.nothing ledger
      else
        let typeOf := fun (entry : Entry) =>
          entry.definition.bind fun d => schema.concreteType? d.type
        let (ledger, first) := ledger.gather schema (typeOf a) a.address a.selections
        let (ledger, second) := ledger.gather schema (typeOf b) b.address b.selections
        ⟨ledger, tasksForSubsets exclusive first second, Conflict.ofSubfields key a b⟩

def openSetWithFragment (schema : Schema) (document : Document) (ledger : Ledger)
    (exclusive : Bool) (set : Gathered) (name : Name) : Opened :=
  if (set.address, name, exclusive) ∈ ledger.setsWithFragments then Opened.nothing ledger
  else
    let ledger := { ledger with
      setsWithFragments := (set.address, name, exclusive) :: ledger.setsWithFragments }
    match locate? document name with
    | none => Opened.nothing ledger
    | some (address, fragment) =>
        let (ledger, found) :=
          ledger.gather schema (schema.type? fragment.condition) address fragment.selections
        if found.address = set.address then Opened.nothing ledger
        else
          Opened.into ledger
            (tasksBetween exclusive set.fields found.fields ++
              found.spreads.map (Task.setWithFragment exclusive set))

def openFragments (schema : Schema) (document : Document) (ledger : Ledger) (exclusive : Bool)
    (a b : Name) : Opened :=
  if a = b || ledger.hasPair exclusive a b then Opened.nothing ledger
  else
    let ledger := { ledger with
      fragmentPairs := (Ledger.pairKey a b, exclusive) :: ledger.fragmentPairs }
    match locate? document a, locate? document b with
    | some (addressA, fragmentA), some (addressB, fragmentB) =>
        let (ledger, first) :=
          ledger.gather schema (schema.type? fragmentA.condition) addressA fragmentA.selections
        let (ledger, second) :=
          ledger.gather schema (schema.type? fragmentB.condition) addressB fragmentB.selections
        Opened.into ledger
          (tasksBetween exclusive first.fields second.fields ++
            second.spreads.map (Task.fragments exclusive a) ++
            first.spreads.map fun name => Task.fragments exclusive name b)
    | _, _ => Opened.nothing ledger

def openTask (schema : Schema) (document : Document) (ledger : Ledger) : Task → Opened
  | .fields key exclusive a b => openFields schema ledger key exclusive a b
  | .setWithFragment exclusive set name =>
      openSetWithFragment schema document ledger exclusive set name
  | .fragments exclusive a b => openFragments schema document ledger exclusive a b

def doAll (doTask : Ledger → Task → Option (Ledger × List Conflict)) :
    Ledger → List Task → Option (Ledger × List Conflict)
  | ledger, [] => some (ledger, [])
  | ledger, task :: rest => do
      let (ledger, conflicts) ← doTask ledger task
      let (ledger, others) ← doAll doTask ledger rest
      pure (ledger, conflicts ++ others)

/-- Do a task, with tasks nested to a given depth at most; none if that is not enough. -/
def doTask (schema : Schema) (document : Document) :
    Nat → Ledger → Task → Option (Ledger × List Conflict)
  | 0, _, _ => none
  | depth + 1, ledger, task => do
      let opened := openTask schema document ledger task
      let (ledger, conflicts) ← doAll (doTask schema document depth) opened.ledger opened.tasks
      pure (ledger, opened.conclude conflicts)

mutual

def setCount : Selection → Nat
  | .field _ inner => 1 + setCountAll inner
  | .spread _ => 0
  | .inline _ inner => 1 + setCountAll inner

def setCountAll : List Selection → Nat
  | [] => 0
  | selection :: rest => setCount selection + setCountAll rest

end

/-- How deep tasks of a document can be nested. Every task that breaks into others, but for the
comparison of two fields, is a new entry of the ledger, and comparisons of fields in a row go down
the selection sets. -/
def depthBound (document : Document) : Nat :=
  let sets := document.definitions.foldl (fun n d => n + 1 + setCountAll d.selections) 0
  let names := (document.definitions.flatMap fun d =>
    (SelectionSet.spreads d.selections).map Spread.name).eraseDups.length
  (2 * sets * names + 2 * names * names + 1) * (sets + 2) + 1

def conflictsIn (schema : Schema) (document : Document) (ledger : Ledger)
    (parent : Option TypeDefinition) (address : Address) (selections : SelectionSet) :
    Option (Ledger × List Conflict) :=
  let (ledger, set) := ledger.gather schema parent address selections
  doAll (doTask schema document (depthBound document)) ledger (tasksForSet set)

end QueryAudit.Merge
