import QueryAudit.Merge
import QueryAudit.Rule.Checker

/-!
# Rules on fields, arguments and directives

What stands at a selected field: the field itself, the arguments given to it or to a directive, and
the directives that may stand there and at other nodes.
-/

/-!
## Rules on fields

Fields exist on the types they are selected on, fields of one response key can be merged, and
exactly the fields of composite type have sub-selections.
-/

namespace QueryAudit.Checker

def typesWithField (schema : Schema) (parent : TypeDefinition) (field : Name) : List Name :=
  let types := parent.possibleTypes.filter fun name =>
    match schema.type? name with
    | some type => type.fields.has field
    | none => false
  types.mergeSort fun a b => a ≤ b

/-- What to try in place of a field that a type does not have: an inline fragment on an object type
that has it, or else a field of a near name. -/
def fieldHint (schema : Schema) (parent : TypeDefinition) (field : Name) : FieldHint :=
  let types := if parent.isAbstract then typesWithField schema parent field else []
  if types.isEmpty then
    .near (Suggestion.nearest field (parent.fields.names.filter fun name => !isReserved name))
  else .onTypes types

def fieldsOnCorrectType : Checker := stateless fun scene event =>
  match event with
  | .enter (.field field _) =>
      match scene.types.parent?, scene.types.field? with
      | some parent, none =>
          let hint := fieldHint scene.schema parent field.name
          [(Problem.unknownField field.name parent.name hint).at field.position]
      | _, _ => []
  | _ => []

def overlappingFieldsCanBeMerged : Checker :=
  ofStep Merge.Ledger Merge.Ledger.empty fun scene ledger event =>
    match event with
    | .enter (.selectionSet address selections) =>
        match Merge.conflictsIn scene.schema scene.document ledger scene.types.parent? address
          selections with
        | some (after, conflicts) => (after, conflicts.map Merge.Conflict.diagnostic)
        | none => (ledger, [])
    | _ => (ledger, [])

/-- Exactly the fields of composite type have sub-selections. -/
def scalarLeafs : Checker := stateless fun scene event =>
  match event with
  | .enter (.field field selections) =>
      match scene.types.field?, scene.types.type? with
      | some definition, some type =>
          if type.isLeaf && !selections.isEmpty then
            [(Problem.leafWithSelection field.name definition.type).at field.position]
          else if type.isComposite && selections.isEmpty then
            [(Problem.compositeWithoutSelection field.name definition.type).at field.position]
          else []
      | _, _ => []
  | _ => []

end QueryAudit.Checker

/-!
## Rules on arguments

Arguments are declared, given once, given where they are required, and have values of their type.
-/

namespace QueryAudit.Checker

/-- What the arguments at the current node are given to, with those it declares: the directive
around them, or else the field. -/
def argumentOwner? (types : Tracker) : Option (ArgumentOwner × NameTable InputValue) :=
  match types.directive with
  | some (some directive) => some (.directive directive.name, directive.arguments)
  | some none => none
  | none =>
      match types.parent?, types.field? with
      | some parent, some field => some (.field field.name parent.name, field.arguments)
      | _, _ => none

def knownArgumentNames : Checker := stateless fun scene event =>
  match event with
  | .enter (.argument argument) =>
      match argumentOwner? scene.types with
      | some (owner, declared) =>
          if declared.has argument.name then []
          else
            let near := Suggestion.nearest argument.name declared.names
            [(Problem.unknownArgument argument.name owner near).at argument.position]
      | none => []
  | _ => []

def uniqueArgumentNames : Checker := ofStep FirstPlaces [] fun _ places event =>
  match event with
  | .enter (.field _ _) | .enter (.directive _) => ([], [])
  | .enter (.argument argument) =>
      places.note argument.name argument.position (.duplicateArgument argument.name)
  | _ => (places, [])

def missingArgument? (declared : NameTable InputValue) (given : List Argument) :
    Option InputValue :=
  declared.entries.find? fun input =>
    input.isRequired && !given.any fun argument => argument.name = input.name

def providedNonNullArguments : Checker := stateless fun scene event =>
  match event with
  | .enter (.directive directive) =>
      match scene.schema.directive? directive.name with
      | some definition =>
          match missingArgument? definition.arguments directive.arguments with
          | some input =>
              [(Problem.missingArgument (.directive directive.name) input.name input.type).at
                directive.position]
          | none => []
      | none => []
  | .enter (.field field _) =>
      match scene.types.field? with
      | some definition =>
          match missingArgument? definition.arguments field.arguments with
          | some input =>
              [(Problem.missingArgument (.field field.name) input.name input.type).at
                field.position]
          | none => []
      | none => []
  | _ => []

def argumentsOfCorrectType : Checker := stateless fun scene event =>
  match event with
  | .enter (.argument argument) =>
      match scene.types.argument with
      | some declared =>
          match argument.value.fault? scene.schema scene.supplied declared.type
            [.field argument.name] with
          | some fault => [(Problem.badArgument fault).at argument.valuePosition]
          | none => []
      | none => []
  | _ => []

def defaultValuesOfCorrectType : Checker := stateless fun scene event =>
  match event with
  | .enter (.variableDefinition definition) =>
      match definition.default with
      | some default =>
          match (Value.ofConstant default.value).fault? scene.schema scene.supplied
            definition.type [.field definition.name] with
          | some fault => [(Problem.badDefault fault).at default.position]
          | none => []
      | none => []
  | _ => []

end QueryAudit.Checker

/-!
## Rules on directives

Directives are declared, stand where they may, and are repeated only if they are repeatable.
-/

namespace QueryAudit

namespace Node

def directives : Node → List Directive
  | .operation it => it.directives
  | .fragment it => it.directives
  | .variableDefinition it => it.directives
  | .field it _ => it.directives
  | .spread it => it.directives
  | .inline it => it.directives
  | _ => []

def directiveLocation? : Node → Option DirectiveLocation
  | .operation it =>
      match it.kind with
      | .query => some .query
      | .mutation => some .mutation
      | .subscription => some .subscription
  | .fragment _ => some .fragmentDefinition
  | .variableDefinition _ => some .variableDefinition
  | .field _ _ => some .field
  | .spread _ => some .fragmentSpread
  | .inline _ => some .inlineFragment
  | _ => none

end Node

namespace Checker

def knownDirectives : Checker := stateless fun scene event =>
  match event with
  | .enter (.directive directive) =>
      match scene.schema.directive? directive.name with
      | some _ => []
      | none =>
          let known := scene.schema.directives.entries.map fun definition => "@" ++ definition.name
          let near := Suggestion.nearest ("@" ++ directive.name) known
          [(Problem.unknownDirective directive.name near).at directive.position]
  | _ => []

def misplacedDirective (schema : Schema) (directive : Directive) (location : DirectiveLocation) :
    List Diagnostic :=
  match schema.directive? directive.name with
  | some definition =>
      if location ∈ definition.locations then []
      else [(Problem.misplacedDirective directive.name location).at directive.position]
  | none => []

/-- Directives stand where they may. The state holds the locations that the walk is inside of,
innermost first. -/
def directivesInValidLocations : Checker :=
  ofStep (List DirectiveLocation) [] fun scene locations event =>
    match event with
    | .enter (.directive directive) =>
        match locations with
        | location :: _ => (locations, misplacedDirective scene.schema directive location)
        | [] => (locations, [])
    | .enter node => (node.directiveLocation?.toList ++ locations, [])
    | .leave node =>
        match node.directiveLocation? with
        | some _ => (locations.tail, [])
        | none => (locations, [])

/-- Whether a directive may stand once only at a node: it is declared, and not as repeatable. -/
def isUnrepeatable (schema : Schema) (directive : Directive) : Bool :=
  match schema.directive? directive.name with
  | some definition => !definition.repeatable
  | none => false

/-- The reports on directives that come after one of the same name. -/
def repeatedDirectives : FirstPlaces → List Directive → List Diagnostic
  | _, [] => []
  | places, directive :: rest =>
      let (places, repeated) :=
        places.note directive.name directive.position (.duplicateDirective directive.name)
      repeated ++ repeatedDirectives places rest

/-- Directives are repeated at a node only if they are repeatable. -/
def uniqueDirectivesPerLocation : Checker := stateless fun scene event =>
  match event with
  | .enter node => repeatedDirectives [] (node.directives.filter (isUnrepeatable scene.schema))
  | .leave _ => []

end Checker

end QueryAudit
