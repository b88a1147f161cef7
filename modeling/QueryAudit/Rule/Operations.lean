import QueryAudit.Rule.Checker
import QueryAudit.Schema.Basic

/-!
# Rules on operations and variables

Operations among each other, and the variables that they declare and use.
-/

/-!
## Rules on operations

Names of operations are unique, an operation without name is alone, and a subscription selects one
root field, which is no introspection field.
-/

namespace QueryAudit

namespace Document

mutual

/-- The root fields of an item of a selection set. `opened` holds the names of the fragments opened
before, and `openFragment` collects those of a fragment. -/
def rootFieldsOf (openFragment : List Name → Name → List Name × List Field) (opened : List Name) :
    Selection → List Name × List Field
  | .field chosen _ => (opened, [chosen])
  | .spread chosen =>
      if chosen.name ∈ opened then (opened, [])
      else openFragment (chosen.name :: opened) chosen.name
  | .inline _ inner => rootFieldsOfAll openFragment opened inner

def rootFieldsOfAll (openFragment : List Name → Name → List Name × List Field)
    (opened : List Name) : List Selection → List Name × List Field
  | [] => (opened, [])
  | selection :: rest =>
      let (opened, fields) := rootFieldsOf openFragment opened selection
      let (opened, others) := rootFieldsOfAll openFragment opened rest
      (opened, fields ++ others)

end

/-- The root fields of a fragment, with fragments opened inside each other to a given depth. -/
def rootFieldsOfFragment (document : Document) :
    Nat → List Name → Name → List Name × List Field
  | 0, opened, _ => (opened, [])
  | depth + 1, opened, name =>
      match document.fragment? name with
      | some fragment =>
          rootFieldsOfAll (document.rootFieldsOfFragment depth) opened fragment.selections
      | none => (opened, [])

/-- The fields at the root of a selection set: in it, in its inline fragments, and in the fragments
it spreads, each opened once. Fragments opened inside each other are distinct, so their number
bounds the depth. -/
def rootFields (document : Document) (selections : SelectionSet) : List Field :=
  (rootFieldsOfAll (document.rootFieldsOfFragment document.fragments.length) [] selections).2

end Document

namespace Checker

def uniqueOperationNames : Checker := ofStep FirstPlaces [] fun _ places event =>
  match event with
  | .enter (.operation operation) =>
      match operation.name with
      | some name => places.note name operation.position (.duplicateOperation name)
      | none => (places, [])
  | _ => (places, [])

def loneAnonymousOperation : Checker := stateless fun scene event =>
  match event with
  | .enter (.operation operation) =>
      if operation.name.isNone && 1 < scene.document.operations.length then
        [Problem.anonymousNotAlone.at operation.position]
      else []
  | _ => []

/-- What is wrong with the root fields of a subscription: those under another key than the first
are reported together, and each introspection field by itself. -/
def rootFieldDiagnostics (name : Option Name) (fields : List Field) : List Diagnostic :=
  let firstKey := fields.head?.map Field.responseKey
  let extra := fields.filter fun field => some field.responseKey ≠ firstKey
  let several :=
    if extra.isEmpty then []
    else [⟨.severalRootFields name, extra.map Field.position⟩]
  let introspection := (fields.filter fun field => isReserved field.name).map fun field =>
    (Problem.introspectionRootField name).at field.position
  several ++ introspection

def singleFieldSubscriptions : Checker := stateless fun scene event =>
  match event with
  | .enter (.operation operation) =>
      if operation.kind = .subscription then
        rootFieldDiagnostics operation.name (scene.document.rootFields operation.selections)
      else []
  | _ => []

end Checker

end QueryAudit

/-!
## Rules on variables

The variables of an operation have different names and input types. Every variable that the
operation uses, itself or through fragments, is declared and fits where it is used, and every
declared one is used.
-/

namespace QueryAudit.Checker

def uniqueVariableNames : Checker := ofStep FirstPlaces [] fun _ places event =>
  match event with
  | .enter (.operation _) => ([], [])
  | .enter (.variableDefinition definition) =>
      places.note definition.name definition.position (.duplicateVariable definition.name)
  | _ => (places, [])

def variablesAreInputTypes : Checker := stateless fun scene event =>
  match event with
  | .enter (.variableDefinition definition) =>
      match scene.schema.concreteType? definition.type with
      | some type =>
          if type.isInput then []
          else [(Problem.nonInputVariable definition.name definition.type).at definition.position]
      | none => []
  | _ => []

def declaration? (operation : Operation) (name : Name) : Option VariableDefinition :=
  operation.variableDefinitions.find? fun definition => definition.name = name

def noUndefinedVariables : Checker := asking fun _ event =>
  match event with
  | .leave (.operation operation) =>
      .uses operation fun uses =>
        let undefined := uses.filter fun use => (declaration? operation use.name).isNone
        .settled <| undefined.map fun use =>
          ⟨.undefinedVariable use.name operation.name, [use.position, operation.position]⟩
  | _ => .settled []

def noUnusedVariables : Checker := asking fun _ event =>
  match event with
  | .leave (.operation operation) =>
      .uses operation fun uses =>
        let used := uses.map VariableUse.name
        let unused := operation.variableDefinitions.filter fun definition => definition.name ∉ used
        .settled <| unused.map fun definition =>
          (Problem.unusedVariable definition.name operation.name).at definition.position
  | _ => .settled []

/-- The report on a use of a declared variable whose type does not fit there. -/
def variableMisfit (schema : Schema) (operation : Operation) (use : VariableUse) :
    List Diagnostic :=
  match declaration? operation use.name, use.type with
  | some definition, some expected =>
      let default := definition.default.map Default.value
      if schema.isInputType definition.type &&
          !schema.allowsVariable definition.type default expected use.default.isSome then
        [⟨.variableMisfit use.name definition.type expected, [definition.position, use.position]⟩]
      else []
  | _, _ => []

def variablesInAllowedPosition : Checker := asking fun scene event =>
  match event with
  | .leave (.operation operation) =>
      .uses operation fun uses => .settled (uses.flatMap (variableMisfit scene.schema operation))
  | _ => .settled []

end QueryAudit.Checker
