import QueryAudit.Document
import QueryAudit.Schema.Basic

/-!
# Walking through a document

A document is a tree of nodes. A walk enters and leaves each of them, with the types in scope there;
what is asked about it along the way is found once and kept.
-/

/-!
## The nodes of a document

A document is walked as a tree of nodes. Every part that a rule can speak of is a node of its own:
definitions, declarations of variables, directives, arguments, selection sets and their items, and
values with their parts. Default values of variables are no nodes. Selection sets are told apart by
their address, the way from the document down to them.
-/

namespace QueryAudit

/-- The way from a document to a selection set: the number of the definition, and then the number of
an item in each set on the way, innermost first. The set of a definition has one number. -/
abbrev Address := List Nat

/-- A node of a document. Parts of a value stand where the whole argument value stands. -/
inductive Node where
  | document
  | operation (operation : Operation)
  | fragment (fragment : Fragment)
  | variableDefinition (definition : VariableDefinition)
  | directive (directive : Directive)
  | argument (argument : Argument)
  | selectionSet (address : Address) (selections : SelectionSet)
  | selection (selection : Selection)
  | field (field : Field) (selections : SelectionSet)
  | spread (spread : Spread)
  | inline (fragment : InlineFragment)
  | value (position : Position) (value : Literal)
  | listItem (position : Position) (value : Literal)
  | objectField (position : Position) (name : Name) (value : Literal)
  | variableUse (position : Position) (name : Name)

inductive NodeTree where
  | node (node : Node) (children : List NodeTree)

/-- A walk enters a node, walks what is below it, and leaves it. -/
inductive Event where
  | enter (node : Node)
  | leave (node : Node)

mutual

def NodeTree.events : NodeTree → List Event
  | .node here children => .enter here :: (NodeTree.forestEvents children ++ [.leave here])

/-- The events of a walk through trees one after the other. -/
def NodeTree.forestEvents : List NodeTree → List Event
  | [] => []
  | tree :: rest => NodeTree.events tree ++ NodeTree.forestEvents rest

end

mutual

def Value.tree (position : Position) : Literal → NodeTree
  | .var name => .node (.value position (.var name)) [.node (.variableUse position name) []]
  | .list items => .node (.value position (.list items)) (Value.itemTrees position items)
  | .object fields => .node (.value position (.object fields)) (Value.fieldTrees position fields)
  | .null => .node (.value position .null) []
  | .number n => .node (.value position (.number n)) []
  | .string s => .node (.value position (.string s)) []
  | .boolean b => .node (.value position (.boolean b)) []
  | .enum e => .node (.value position (.enum e)) []

def Value.itemTrees (position : Position) : List Literal → List NodeTree
  | [] => []
  | item :: rest =>
      .node (.listItem position item) [Value.tree position item] ::
        Value.itemTrees position rest

def Value.fieldTrees (position : Position) : List (Name × Literal) → List NodeTree
  | [] => []
  | (name, value) :: rest =>
      .node (.objectField position name value) [Value.tree position value] ::
        Value.fieldTrees position rest

end

def Argument.tree (argument : Argument) : NodeTree :=
  .node (.argument argument) [argument.value.tree argument.valuePosition]

def Directive.tree (directive : Directive) : NodeTree :=
  .node (.directive directive) (directive.arguments.map Argument.tree)

def VariableDefinition.tree (definition : VariableDefinition) : NodeTree :=
  .node (.variableDefinition definition) (definition.directives.map Directive.tree)

mutual

/-- The nodes of an item of a selection set; its own set, if it has one, has the given address. -/
def Selection.tree (address : Address) : Selection → NodeTree
  | .field chosen inner =>
      .node (.selection (.field chosen inner))
        [.node (.field chosen inner)
          (chosen.arguments.map Argument.tree ++ chosen.directives.map Directive.tree ++
            [.node (.selectionSet address inner) (Selection.trees address 0 inner)])]
  | .spread chosen =>
      .node (.selection (.spread chosen))
        [.node (.spread chosen) (chosen.directives.map Directive.tree)]
  | .inline head inner =>
      .node (.selection (.inline head inner))
        [.node (.inline head)
          (head.directives.map Directive.tree ++
            [.node (.selectionSet address inner) (Selection.trees address 0 inner)])]

/-- The nodes of the items of the set at an address; the first of them has the given number. -/
def Selection.trees (address : Address) : Nat → List Selection → List NodeTree
  | _, [] => []
  | number, selection :: rest =>
      Selection.tree (number :: address) selection :: Selection.trees address (number + 1) rest

end

def SelectionSet.tree (address : Address) (selections : SelectionSet) : NodeTree :=
  .node (.selectionSet address selections) (Selection.trees address 0 selections)

def Definition.tree (number : Nat) : Definition → NodeTree
  | .operation o =>
      .node (.operation o)
        (o.variableDefinitions.map VariableDefinition.tree ++ o.directives.map Directive.tree ++
          [SelectionSet.tree [number] o.selections])
  | .fragment f =>
      .node (.fragment f)
        (f.directives.map Directive.tree ++ [SelectionSet.tree [number] f.selections])

def Document.tree (document : Document) : NodeTree :=
  .node .document (document.definitions.mapIdx Definition.tree)

end QueryAudit

/-!
## Tracking types along a walk

The tracker knows the types in scope at the node of a walk. Each of its stacks grows where a node is
entered and shrinks where that node is left, so its tops always speak of the current node. A slot
says whether the walk is inside a directive, and which definition that has; another holds the
declaration of the current argument.
-/

namespace QueryAudit

/-- The types in scope; the top of each stack comes first. -/
structure Tracker where
  types : List (Option TypeDefinition)
  parents : List (Option TypeDefinition)
  fields : List (Option FieldDefinition)
  inputTypes : List (Option TypeRef)
  defaults : List (Option Constant)
  /-- Present inside a directive; holds its definition if the directive is known. -/
  directive : Option (Option DirectiveDefinition)
  argument : Option InputValue

/-- An event of a walk with what is tracked there: at an enter with the node, at a leave still with
it. -/
structure Step where
  event : Event
  types : Tracker

namespace Tracker

def empty : Tracker := ⟨[], [], [], [], [], none, none⟩

def type? (tracker : Tracker) : Option TypeDefinition := tracker.types.head?.join

/-- The composite type on which the current selection set selects. -/
def parent? (tracker : Tracker) : Option TypeDefinition := tracker.parents.head?.join

def field? (tracker : Tracker) : Option FieldDefinition := tracker.fields.head?.join

def inputType? (tracker : Tracker) : Option TypeRef := tracker.inputTypes.head?.join

/-- The default of the argument or input field at the current node. -/
def default? (tracker : Tracker) : Option Constant := tracker.defaults.head?.join

/-- The declared arguments that govern an argument here: those of the directive around it, or else
those of the field. -/
def declaredArguments? (tracker : Tracker) : Option (NameTable InputValue) :=
  match tracker.directive with
  | some directive => directive.map DirectiveDefinition.arguments
  | none => tracker.field?.map FieldDefinition.arguments

def pushInput (tracker : Tracker) (type : Option TypeRef) (default : Option Constant) : Tracker :=
  { tracker with
    inputTypes := type :: tracker.inputTypes
    defaults := default :: tracker.defaults }

def popInput (tracker : Tracker) : Tracker :=
  { tracker with inputTypes := tracker.inputTypes.tail, defaults := tracker.defaults.tail }

/-- The input field that an object field means, where an object is expected. -/
def inputField? (schema : Schema) (expected : Option TypeRef) (name : Name) : Option InputValue :=
  match expected with
  | some (.named typeName _) =>
      match schema.type? typeName with
      | some type => if type.kind = .inputObject then type.inputFields.find? name else none
      | none => none
  | _ => none

def enter (schema : Schema) (tracker : Tracker) : Node → Tracker
  | .operation operation =>
      { tracker with types := schema.rootType? operation.kind :: tracker.types }
  | .fragment fragment => { tracker with types := schema.type? fragment.condition :: tracker.types }
  | .inline fragment =>
      let type := match fragment.condition with
        | some condition => schema.type? condition
        | none => tracker.type?
      { tracker with types := type :: tracker.types }
  | .selectionSet _ _ =>
      { tracker with parents := tracker.type?.filter TypeDefinition.isComposite :: tracker.parents }
  | .field field _ =>
      let definition := tracker.parent?.bind fun parent => Schema.fieldOn? parent field.name
      { tracker with
        fields := definition :: tracker.fields
        types := (definition.bind fun d => schema.concreteType? d.type) :: tracker.types }
  | .variableDefinition definition => tracker.pushInput (some definition.type) none
  | .directive directive => { tracker with directive := some (schema.directive? directive.name) }
  | .argument argument =>
      let declared := tracker.declaredArguments?.bind fun table => table.find? argument.name
      { tracker.pushInput (declared.map InputValue.type) (declared.bind InputValue.default) with
        argument := declared }
  | .listItem _ _ =>
      tracker.pushInput (tracker.inputType?.map fun type => type.element?.getD type) none
  | .objectField _ name _ =>
      let declared := inputField? schema tracker.inputType? name
      tracker.pushInput (declared.map InputValue.type) (declared.bind InputValue.default)
  | .document | .selection _ | .spread _ | .value _ _ | .variableUse _ _ => tracker

def leave (tracker : Tracker) : Node → Tracker
  | .operation _ | .fragment _ | .inline _ => { tracker with types := tracker.types.tail }
  | .selectionSet _ _ => { tracker with parents := tracker.parents.tail }
  | .field _ _ => { tracker with fields := tracker.fields.tail, types := tracker.types.tail }
  | .directive _ => { tracker with directive := none }
  | .argument _ => { tracker.popInput with argument := none }
  | .variableDefinition _ | .listItem _ _ | .objectField _ _ _ => tracker.popInput
  | .document | .selection _ | .spread _ | .value _ _ | .variableUse _ _ => tracker

def after (schema : Schema) (tracker : Tracker) : Event → Tracker
  | .enter node => tracker.enter schema node
  | .leave node => tracker.leave node

def steps (schema : Schema) : Tracker → List Event → List Step
  | _, [] => []
  | tracker, .enter node :: rest =>
      let inside := tracker.enter schema node
      ⟨.enter node, inside⟩ :: steps schema inside rest
  | tracker, .leave node :: rest =>
      ⟨.leave node, tracker⟩ :: steps schema (tracker.leave node) rest

end Tracker

/-- The steps of a walk through a tree, with nothing tracked at first. -/
def NodeTree.steps (schema : Schema) (tree : NodeTree) : List Step :=
  Tracker.steps schema Tracker.empty tree.events

end QueryAudit

/-!
## Uses of variables

A use of a variable comes with the input type and the default expected where it stands. The uses of
an operation are its own, in order of the walk, and then those of the fragments that it reaches.
-/

namespace QueryAudit

structure VariableUse where
  name : Name
  position : Position
  /-- The input type expected there, if one is known. -/
  type : Option TypeRef
  /-- The default of the argument or input field there. -/
  default : Option Constant

namespace VariableUse

def ofStep? (step : Step) : Option VariableUse :=
  match step.event with
  | .enter (.variableUse position name) =>
      some ⟨name, position, step.types.inputType?, step.types.default?⟩
  | _ => none

def inTree (schema : Schema) (tree : NodeTree) : List VariableUse :=
  (tree.steps schema).filterMap ofStep?

def ofOperation (schema : Schema) (document : Document) (operation : Operation) :
    List VariableUse :=
  inTree schema (Definition.tree 0 (.operation operation)) ++
    (document.reachable operation.selections).flatMap fun fragment =>
      inTree schema (Definition.tree 0 (.fragment fragment))

end VariableUse

end QueryAudit

/-!
## Answers that are kept

Several rules ask which fragments an operation reaches and where variables are used in it. The
answers are found once and kept for the rest of an audit. A selection set is known by its address,
an operation by its number among the definitions, and a fragment by its name: of fragments of one
name only the first is ever reached.
-/

namespace QueryAudit

inductive UseOwner where
  | operation (number : Nat)
  | fragment (name : Name)
deriving DecidableEq, Repr

/-- The answers kept, each under what it is about, last one first. -/
structure Memory where
  /-- The fragments that selection sets reach. -/
  reached : List (Address × List Fragment)
  /-- The uses in one definition alone. -/
  uses : List (UseOwner × List VariableUse)
  /-- The uses in an operation and in the fragments that it reaches. -/
  allUses : List (Nat × List VariableUse)

namespace Memory

def empty : Memory := ⟨[], [], []⟩

def reachedFrom (document : Document) (memory : Memory) (address : Address)
    (selections : SelectionSet) : Memory × List Fragment :=
  match memory.reached.lookup address with
  | some found => (memory, found)
  | none =>
      let found := document.reachable selections
      ({ memory with reached := (address, found) :: memory.reached }, found)

def usesIn (schema : Schema) (memory : Memory) (owner : UseOwner) (definition : Definition) :
    Memory × List VariableUse :=
  match memory.uses.lookup owner with
  | some found => (memory, found)
  | none =>
      let found := VariableUse.inTree schema (Definition.tree 0 definition)
      ({ memory with uses := (owner, found) :: memory.uses }, found)

def usesInEach (schema : Schema) : Memory → List Fragment → Memory × List VariableUse
  | memory, [] => (memory, [])
  | memory, fragment :: rest =>
      let (memory, uses) := memory.usesIn schema (.fragment fragment.name) (.fragment fragment)
      let (memory, others) := usesInEach schema memory rest
      (memory, uses ++ others)

def usesOf (schema : Schema) (document : Document) (memory : Memory) (number : Nat)
    (operation : Operation) : Memory × List VariableUse :=
  match memory.allUses.lookup number with
  | some found => (memory, found)
  | none =>
      let (memory, own) := memory.usesIn schema (.operation number) (.operation operation)
      let (memory, fragments) := memory.reachedFrom document [number] operation.selections
      let (memory, others) := memory.usesInEach schema fragments
      let found := own ++ others
      ({ memory with allUses := (number, found) :: memory.allUses }, found)

end Memory

end QueryAudit
