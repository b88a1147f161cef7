import QueryAudit.Proofs.Codes
import QueryAudit.Proofs.Reachability

/-!
# Declared variables and used ones

Where variables occur in a definition is set out here by its syntax alone, without a walk and
without types. The uses that the walk of a definition meets are these occurrences, in their order.
So the rules on undeclared and on unused variables match the declarations of an operation with the
occurrences in it and in the fragments that it reaches.
-/

namespace QueryAudit

/-! ## Occurrences -/

/-- A variable where it is written. In a value, it is the place of the whole value. -/
structure Occurrence where
  name : Name
  position : Position

mutual

def Value.variables : Literal → List Name
  | .var name => [name]
  | .list items => Value.itemVariables items
  | .object fields => Value.fieldVariables fields
  | _ => []

def Value.itemVariables : List Literal → List Name
  | [] => []
  | item :: rest => Value.variables item ++ Value.itemVariables rest

def Value.fieldVariables : List (Name × Literal) → List Name
  | [] => []
  | (_, value) :: rest => Value.variables value ++ Value.fieldVariables rest

end

def Argument.occurrences (argument : Argument) : List Occurrence :=
  argument.value.variables.map fun name => ⟨name, argument.valuePosition⟩

def Directive.occurrences (directive : Directive) : List Occurrence :=
  directive.arguments.flatMap Argument.occurrences

mutual

def Selection.occurrences : Selection → List Occurrence
  | .field chosen inner =>
      chosen.arguments.flatMap Argument.occurrences ++
        chosen.directives.flatMap Directive.occurrences ++ Selection.allOccurrences inner
  | .spread chosen => chosen.directives.flatMap Directive.occurrences
  | .inline head inner =>
      head.directives.flatMap Directive.occurrences ++ Selection.allOccurrences inner

def Selection.allOccurrences : List Selection → List Occurrence
  | [] => []
  | selection :: rest => Selection.occurrences selection ++ Selection.allOccurrences rest

end

/-- The occurrences in a definition: on declarations of variables, in its own directives, and in its
selections. -/
def Definition.occurrences : Definition → List Occurrence
  | .operation o =>
      o.variableDefinitions.flatMap (fun definition =>
          definition.directives.flatMap Directive.occurrences) ++
        o.directives.flatMap Directive.occurrences ++ Selection.allOccurrences o.selections
  | .fragment f =>
      f.directives.flatMap Directive.occurrences ++ Selection.allOccurrences f.selections

def Document.occurrences (document : Document) (operation : Operation) : List Occurrence :=
  (Definition.operation operation).occurrences ++
    (document.reachable operation.selections).flatMap fun fragment =>
      (Definition.fragment fragment).occurrences

/-! ## What a walk meets -/

def Event.occurrence? : Event → Option Occurrence
  | .enter (.variableUse position name) => some ⟨name, position⟩
  | _ => none

def VariableUse.occurrence (use : VariableUse) : Occurrence := ⟨use.name, use.position⟩

def NodeTree.occurrences (tree : NodeTree) : List Occurrence :=
  tree.events.filterMap Event.occurrence?

def NodeTree.forestOccurrences (trees : List NodeTree) : List Occurrence :=
  (NodeTree.forestEvents trees).filterMap Event.occurrence?

theorem NodeTree.occurrences_node {here : Node}
    (h : ∀ position name, here ≠ .variableUse position name) (children : List NodeTree) :
    (NodeTree.node here children).occurrences = NodeTree.forestOccurrences children := by
  have henter : (Event.enter here).occurrence? = none := by
    unfold Event.occurrence?
    split
    · rename_i position name heq
      cases heq
      exact absurd rfl (h _ _)
    · rfl
  have hleave : (Event.leave here).occurrence? = none := rfl
  rw [NodeTree.occurrences, NodeTree.events, List.filterMap_cons_none henter, List.filterMap_append,
    List.filterMap_cons_none hleave, List.filterMap_nil, List.append_nil,
    NodeTree.forestOccurrences]

@[simp] theorem NodeTree.forestOccurrences_nil : NodeTree.forestOccurrences [] = [] := rfl

@[simp] theorem NodeTree.forestOccurrences_cons (tree : NodeTree) (rest : List NodeTree) :
    NodeTree.forestOccurrences (tree :: rest) =
      tree.occurrences ++ NodeTree.forestOccurrences rest := by
  simp [NodeTree.forestOccurrences, NodeTree.forestEvents, NodeTree.occurrences]

@[simp] theorem NodeTree.forestOccurrences_append (first second : List NodeTree) :
    NodeTree.forestOccurrences (first ++ second) =
      NodeTree.forestOccurrences first ++ NodeTree.forestOccurrences second := by
  induction first with
  | nil => rfl
  | cons tree rest ih => simp [ih]

theorem NodeTree.forestOccurrences_map {α : Type} {tree : α → NodeTree}
    {occurrences : α → List Occurrence} (h : ∀ item, (tree item).occurrences = occurrences item)
    (items : List α) :
    NodeTree.forestOccurrences (items.map tree) = items.flatMap occurrences := by
  induction items with
  | nil => rfl
  | cons item rest ih => simp [h, ih]

/-! ## The walk of a definition -/

mutual

theorem Value.tree_occurrences (position : Position) (value : Literal) :
    (Value.tree position value).occurrences =
      value.variables.map fun name => ⟨name, position⟩ := by
  cases value with
  | var name => rfl
  | null | number n | string s | boolean b | enum e => rfl
  | list items =>
      rw [Value.tree, NodeTree.occurrences_node (by simp)]
      exact Value.itemTrees_occurrences position items
  | object fields =>
      rw [Value.tree, NodeTree.occurrences_node (by simp)]
      exact Value.fieldTrees_occurrences position fields

theorem Value.itemTrees_occurrences (position : Position) (items : List Literal) :
    NodeTree.forestOccurrences (Value.itemTrees position items) =
      (Value.itemVariables items).map fun name => ⟨name, position⟩ := by
  cases items with
  | nil => rfl
  | cons item rest =>
      rw [Value.itemTrees, NodeTree.forestOccurrences_cons, NodeTree.occurrences_node (by simp),
        Value.itemTrees_occurrences position rest, Value.itemVariables, List.map_append]
      simp [Value.tree_occurrences position item]

theorem Value.fieldTrees_occurrences (position : Position) (fields : List (Name × Literal)) :
    NodeTree.forestOccurrences (Value.fieldTrees position fields) =
      (Value.fieldVariables fields).map fun name => ⟨name, position⟩ := by
  cases fields with
  | nil => rfl
  | cons field rest =>
      rw [Value.fieldTrees, NodeTree.forestOccurrences_cons, NodeTree.occurrences_node (by simp),
        Value.fieldTrees_occurrences position rest, Value.fieldVariables, List.map_append]
      simp [Value.tree_occurrences position field.2]

end

theorem Argument.tree_occurrences (argument : Argument) :
    argument.tree.occurrences = argument.occurrences := by
  rw [Argument.tree, NodeTree.occurrences_node (by simp)]
  simp [Value.tree_occurrences, Argument.occurrences]

theorem Directive.tree_occurrences (directive : Directive) :
    directive.tree.occurrences = directive.occurrences := by
  rw [Directive.tree, NodeTree.occurrences_node (by simp)]
  exact NodeTree.forestOccurrences_map Argument.tree_occurrences directive.arguments

theorem Directive.trees_occurrences (directives : List Directive) :
    NodeTree.forestOccurrences (directives.map Directive.tree) =
      directives.flatMap Directive.occurrences :=
  NodeTree.forestOccurrences_map Directive.tree_occurrences directives

mutual

theorem Selection.tree_occurrences (address : Address) (selection : Selection) :
    (Selection.tree address selection).occurrences = selection.occurrences := by
  cases selection with
  | field chosen inner =>
      have harguments := NodeTree.forestOccurrences_map Argument.tree_occurrences chosen.arguments
      rw [Selection.tree, NodeTree.occurrences_node (by simp), NodeTree.forestOccurrences_cons,
        NodeTree.occurrences_node (by simp)]
      simp [NodeTree.occurrences_node, harguments, Directive.trees_occurrences,
        Selection.trees_occurrences address 0 inner, Selection.occurrences]
  | spread chosen =>
      rw [Selection.tree, NodeTree.occurrences_node (by simp), NodeTree.forestOccurrences_cons,
        NodeTree.occurrences_node (by simp)]
      simp [Directive.trees_occurrences, Selection.occurrences]
  | inline head inner =>
      rw [Selection.tree, NodeTree.occurrences_node (by simp), NodeTree.forestOccurrences_cons,
        NodeTree.occurrences_node (by simp)]
      simp [NodeTree.occurrences_node, Directive.trees_occurrences,
        Selection.trees_occurrences address 0 inner, Selection.occurrences]

theorem Selection.trees_occurrences (address : Address) (number : Nat)
    (selections : List Selection) :
    NodeTree.forestOccurrences (Selection.trees address number selections) =
      Selection.allOccurrences selections := by
  cases selections with
  | nil => rfl
  | cons selection rest =>
      rw [Selection.trees, NodeTree.forestOccurrences_cons,
        Selection.tree_occurrences (number :: address) selection,
        Selection.trees_occurrences address (number + 1) rest, Selection.allOccurrences]

end

theorem Definition.tree_occurrences (number : Nat) (definition : Definition) :
    (Definition.tree number definition).occurrences = definition.occurrences := by
  have hset : ∀ selections, (SelectionSet.tree [number] selections).occurrences =
      Selection.allOccurrences selections := by
    intro selections
    rw [SelectionSet.tree, NodeTree.occurrences_node (by simp), Selection.trees_occurrences]
  cases definition with
  | operation o =>
      have hdefinition : ∀ definition : VariableDefinition, definition.tree.occurrences =
          definition.directives.flatMap Directive.occurrences := by
        intro definition
        rw [VariableDefinition.tree, NodeTree.occurrences_node (by simp),
          Directive.trees_occurrences]
      have hdefinitions := NodeTree.forestOccurrences_map hdefinition o.variableDefinitions
      rw [Definition.tree, NodeTree.occurrences_node (by simp)]
      simp [hdefinitions, Directive.trees_occurrences, hset, Definition.occurrences]
  | fragment f =>
      rw [Definition.tree, NodeTree.occurrences_node (by simp)]
      simp [Directive.trees_occurrences, hset, Definition.occurrences]

theorem VariableUse.inTree_occurrences (schema : Schema) (tree : NodeTree) :
    (VariableUse.inTree schema tree).map VariableUse.occurrence = tree.occurrences := by
  have hevents : (tree.steps schema).map Step.event = tree.events :=
    Document.map_event_steps schema Tracker.empty tree.events
  have hstep : ∀ step : Step, (VariableUse.ofStep? step).map VariableUse.occurrence =
      step.event.occurrence? := by
    intro step
    unfold VariableUse.ofStep? Event.occurrence?
    split <;> simp_all [VariableUse.occurrence]
  rw [NodeTree.occurrences, ← hevents, List.filterMap_map, VariableUse.inTree, List.map_filterMap]
  simp only [hstep]
  rfl

theorem VariableUse.ofOperation_occurrences (schema : Schema) (document : Document)
    (operation : Operation) :
    (VariableUse.ofOperation schema document operation).map VariableUse.occurrence =
      document.occurrences operation := by
  simp only [VariableUse.ofOperation, List.map_append, List.map_flatMap,
    VariableUse.inTree_occurrences, Definition.tree_occurrences, Document.occurrences]

/-! ## Rules that report where operations end -/

theorem Checker.reports_atOperations {checker : Checker} {schema : Schema} {document : Document}
    {supplied : Variables} {report : Operation → List Diagnostic}
    (hleave : ∀ types state operation, checker.step ⟨schema, document, supplied, types⟩ state
      (.leave (.operation operation)) = (state, report operation))
    (hother : ∀ types state event, (∀ operation, event ≠ .leave (.operation operation)) →
      checker.step ⟨schema, document, supplied, types⟩ state event = (state, []))
    (state : checker.State) :
    checker.reports schema document supplied state (document.tree.steps schema) =
      document.operations.flatMap report := by
  have hignored : ∀ step, Step.leavesOperation step = false → ∀ state : checker.State,
      checker.step ⟨schema, document, supplied, step.types⟩ state step.event = (state, []) := by
    intro step hstep state
    apply hother
    intro operation heq
    simp [Step.leavesOperation, heq] at hstep
  rw [Checker.reports_filter checker schema document supplied Step.leavesOperation hignored,
    Document.filter_steps_leavesOperation]
  induction document.operations with
  | nil => rfl
  | cons operation rest ih =>
      simp only [List.map_cons, Checker.reports, Operation.leaveStep, hleave, List.flatMap_cons]
      rw [← ih]

def Document.undeclared (document : Document) (operation : Operation) : List Occurrence :=
  (document.occurrences operation).filter fun occurrence =>
    occurrence.name ∉ operation.variableDefinitions.map VariableDefinition.name

def Document.unused (document : Document) (operation : Operation) : List VariableDefinition :=
  operation.variableDefinitions.filter fun definition =>
    definition.name ∉ (document.occurrences operation).map Occurrence.name

theorem Checker.declaration?_isNone (operation : Operation) (name : Name) :
    (Checker.declaration? operation name).isNone =
      decide (name ∉ operation.variableDefinitions.map VariableDefinition.name) := by
  rw [Bool.eq_iff_iff, decide_eq_true_iff, Option.isNone_iff_eq_none, Checker.declaration?,
    List.find?_eq_none]
  simp

theorem Document.reportsOf_noUndefinedVariables (schema : Schema) (document : Document)
    (supplied : Variables) :
    document.reportsOf schema .noUndefinedVariables supplied =
      document.operations.flatMap fun operation =>
        (document.undeclared operation).map fun occurrence =>
          ⟨.undefinedVariable occurrence.name operation.name,
            [occurrence.position, operation.position]⟩ := by
  refine Checker.reports_atOperations ?_ ?_ Rule.noUndefinedVariables.checker.start
  · intro types state operation
    refine Prod.ext rfl ?_
    show ((VariableUse.ofOperation schema document operation).filter fun use =>
      (Checker.declaration? operation use.name).isNone).map _ = _
    rw [Document.undeclared, ← VariableUse.ofOperation_occurrences schema, List.filter_map,
      List.map_map]
    simp only [Checker.declaration?_isNone]
    rfl
  · intro types state event hevent
    refine Prod.ext rfl ?_
    cases event with
    | enter node => rfl
    | leave node =>
        cases node <;> first | rfl | exact absurd rfl (hevent _)

theorem Document.reportsOf_noUnusedVariables (schema : Schema) (document : Document)
    (supplied : Variables) :
    document.reportsOf schema .noUnusedVariables supplied =
      document.operations.flatMap fun operation =>
        (document.unused operation).map fun definition =>
          ⟨.unusedVariable definition.name operation.name, [definition.position]⟩ := by
  refine Checker.reports_atOperations ?_ ?_ Rule.noUnusedVariables.checker.start
  · intro types state operation
    have hnames : (VariableUse.ofOperation schema document operation).map VariableUse.name =
        (document.occurrences operation).map Occurrence.name := by
      rw [← VariableUse.ofOperation_occurrences schema, List.map_map]
      rfl
    refine Prod.ext rfl ?_
    show (operation.variableDefinitions.filter fun definition => definition.name ∉
      (VariableUse.ofOperation schema document operation).map VariableUse.name).map _ = _
    rw [hnames]
    rfl
  · intro types state event hevent
    refine Prod.ext rfl ?_
    cases event with
    | enter node => rfl
    | leave node =>
        cases node <;> first | rfl | exact absurd rfl (hevent _)

/-- Whatever the other rules of an audit are: the rule on undeclared variables reports each
occurrence of a variable that its operation does not declare, and the rule on unused variables each
declaration of a variable that does not occur, operation by operation and in order. The occurrences
are those in the operation and in the fragments that a chain of spreads leads to, each fragment
taken once and by the first definition of its name. -/
theorem variables_matched (schema : Schema) (document : Document) (supplied : Variables)
    (set : RuleSet) :
    (document.audit schema set supplied).diagnostics.filter
        (·.problem.code = .variablesDefined) =
      (if Rule.noUndefinedVariables ∈ set.rules then
        document.operations.flatMap fun operation =>
          (document.undeclared operation).map fun occurrence =>
            ⟨.undefinedVariable occurrence.name operation.name,
              [occurrence.position, operation.position]⟩
        else []) ∧
    (document.audit schema set supplied).diagnostics.filter (·.problem.code = .variablesUsed) =
      (if Rule.noUnusedVariables ∈ set.rules then
        document.operations.flatMap fun operation =>
          (document.unused operation).map fun definition =>
            ⟨.unusedVariable definition.name operation.name, [definition.position]⟩
        else []) ∧
    ∀ operation : Operation,
      ((document.reachable operation.selections).map Fragment.name).Nodup ∧
      ∀ fragment, fragment ∈ document.reachable operation.selections ↔
        document.Reaches operation.selections fragment := by
  have hundefined := document.filter_diagnostics schema set supplied
    (rfl : Rule.noUndefinedVariables.codes = [Rule.noUndefinedVariables.code])
  have hunused := document.filter_diagnostics schema set supplied
    (rfl : Rule.noUnusedVariables.codes = [Rule.noUnusedVariables.code])
  rw [document.reportsOf_noUndefinedVariables] at hundefined
  rw [document.reportsOf_noUnusedVariables] at hunused
  exact ⟨hundefined, hunused, fun operation =>
    ⟨document.nodup_reachable operation.selections,
      document.mem_reachable_iff operation.selections⟩⟩

end QueryAudit
