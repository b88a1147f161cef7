import QueryAudit.Proofs.Checkers

/-!
# The measures of an audit

An audit finds the depth of a document and the number of its aliases along the walk on which the
rules report. Whatever the rules are, they are the depth and the count by recursion on the document.
-/

namespace QueryAudit

/-! ## What the walk counts -/

section Events

variable {State : Type} {past : State → Event → State}

mutual

/-- Nodes at which a state stays as it is leave it alone together. -/
theorem NodeTree.foldl_events_of_every {p : Node → Prop}
    (hpast : ∀ node state, p node → past state (.enter node) = state ∧
      past state (.leave node) = state)
    (tree : NodeTree) (h : tree.Every fun node _ => p node) (state : State) :
    tree.events.foldl past state = state := by
  cases tree with
  | node here children =>
      obtain ⟨henter, hleave⟩ := hpast here state h.1
      have hchildren := NodeTree.foldl_forestEvents_of_every hpast children h.2 state
      simp only [NodeTree.events, List.foldl_cons, List.foldl_append, List.foldl_nil, henter,
        hchildren, hleave]

theorem NodeTree.foldl_forestEvents_of_every {p : Node → Prop}
    (hpast : ∀ node state, p node → past state (.enter node) = state ∧
      past state (.leave node) = state)
    (trees : List NodeTree) (h : NodeTree.ForestEvery (fun node _ => p node) trees)
    (state : State) : (NodeTree.forestEvents trees).foldl past state = state := by
  cases trees with
  | nil => rfl
  | cons tree rest =>
      rw [NodeTree.forestEvents, List.foldl_append,
        NodeTree.foldl_events_of_every hpast tree h.1 state,
        NodeTree.foldl_forestEvents_of_every hpast rest h.2 state]

end

theorem NodeTree.forestEvents_append (first second : List NodeTree) :
    NodeTree.forestEvents (first ++ second) =
      NodeTree.forestEvents first ++ NodeTree.forestEvents second := by
  induction first with
  | nil => rfl
  | cons tree rest ih => simp only [List.cons_append, NodeTree.forestEvents, ih, List.append_assoc]

/-- A state along the definitions of a document, from what each definition does to it. -/
theorem Document.foldl_events {effect : State → Definition → State}
    (h : ∀ number definition state,
      (Definition.tree number definition).events.foldl past state = effect state definition)
    (document : Document) (state : State) :
    (NodeTree.forestEvents (document.definitions.mapIdx Definition.tree)).foldl past state =
      document.definitions.foldl effect state := by
  have hdefinitions : ∀ (definitions : List Definition) (number : Nat) (state : State),
      (NodeTree.forestEvents ((definitions.zipIdx number).map fun numbered =>
        Definition.tree numbered.2 numbered.1)).foldl past state =
      definitions.foldl effect state := by
    intro definitions
    induction definitions with
    | nil => intro number state; rfl
    | cons definition rest ih =>
        intro number state
        rw [List.zipIdx_cons, List.map_cons, NodeTree.forestEvents, List.foldl_append, h, ih,
          List.foldl_cons]
  rw [List.mapIdx_eq_zipIdx_map]
  exact hdefinitions document.definitions 0 state

end Events

namespace Checker

open NodeTree (forestEvents)

theorem depthPast_definition (document : Document) (number : Nat) (definition : Definition)
    (state : DepthState) :
    (Definition.tree number definition).events.foldl (DepthState.past document) state =
      state.past document (.enter definition.node) := by
  have hpast : ∀ (node : Node) (state : DepthState), node.isDefinition = false →
      state.past document (.enter node) = state ∧ state.past document (.leave node) = state := by
    intro node state hnode
    cases node with
    | operation operation => cases hnode
    | _ => exact ⟨rfl, rfl⟩
  have hinside := NodeTree.foldl_forestEvents_of_every hpast _
    (Definition.trees_not_isDefinition number definition)
  rw [Definition.tree_eq]
  simp only [NodeTree.events, List.foldl_cons, List.foldl_append, List.foldl_nil, hinside]
  rfl

theorem deepest_foldl (document : Document) (definitions : List Definition) (state : DepthState) :
    (definitions.foldl
        (fun state definition => state.past document (.enter definition.node)) state).deepest =
      max state.deepest (Depth.ofOperations document state.memo
        (definitions.filterMap Definition.operation?)) := by
  induction definitions generalizing state with
  | nil => exact (Nat.max_zero _).symm
  | cons definition rest ih =>
      rw [List.foldl_cons, ih]
      cases definition with
      | fragment f => rfl
      | operation o => exact Nat.max_assoc _ _ _

/-- Along the walk the depth of the deepest operation is found. -/
theorem depthPast_document (document : Document) :
    ((forestEvents (document.definitions.mapIdx Definition.tree)).foldl (DepthState.past document)
      ⟨0, []⟩).deepest = document.depth := by
  rw [Document.foldl_events (depthPast_definition document), deepest_foldl]
  exact Nat.zero_max _

theorem aliasesPast_parts {trees : List NodeTree}
    (h : NodeTree.ForestEvery (fun node _ => node.isPart = true) trees) (count : Nat) :
    (forestEvents trees).foldl aliasesPast count = count := by
  have hpast : ∀ (node : Node) (count : Nat), node.isPart = true →
      aliasesPast count (.enter node) = count ∧ aliasesPast count (.leave node) = count := by
    intro node count hnode
    cases node with
    | field chosen inner => cases hnode
    | _ => exact ⟨rfl, rfl⟩
  exact NodeTree.foldl_forestEvents_of_every hpast trees h count

mutual

theorem aliasesPast_selection (address : Address) (selection : Selection) (count : Nat) :
    (Selection.tree address selection).events.foldl aliasesPast count =
      count + selection.aliasCount := by
  cases selection with
  | field chosen inner =>
      have hinner := aliasesPast_selections address 0 inner
      simp only [Selection.tree, NodeTree.events, forestEvents, NodeTree.forestEvents_append,
        List.foldl_cons, List.foldl_append, List.foldl_nil,
        aliasesPast_parts (Argument.trees_arePart _),
        aliasesPast_parts (Directive.trees_arePart _), aliasesPast, hinner, Selection.aliasCount]
      split <;> omega
  | spread chosen =>
      simp only [Selection.tree, NodeTree.events, forestEvents, List.foldl_cons, List.foldl_append,
        List.foldl_nil, aliasesPast_parts (Directive.trees_arePart _), aliasesPast,
        Selection.aliasCount, Nat.add_zero]
  | inline head inner =>
      have hinner := aliasesPast_selections address 0 inner
      simp only [Selection.tree, NodeTree.events, forestEvents, NodeTree.forestEvents_append,
        List.foldl_cons, List.foldl_append, List.foldl_nil,
        aliasesPast_parts (Directive.trees_arePart _), aliasesPast, hinner, Selection.aliasCount]

theorem aliasesPast_selections (address : Address) (number : Nat) (selections : List Selection)
    (count : Nat) :
    (forestEvents (Selection.trees address number selections)).foldl aliasesPast count =
      count + SelectionSet.aliasCount selections := by
  cases selections with
  | nil => rfl
  | cons selection rest =>
      have hfirst := aliasesPast_selection (number :: address) selection count
      have hrest := aliasesPast_selections address (number + 1) rest
      simp only [Selection.trees, forestEvents, List.foldl_append, hfirst, hrest,
        SelectionSet.aliasCount, Nat.add_assoc]

end

theorem aliasesPast_definition (number : Nat) (definition : Definition) (count : Nat) :
    (Definition.tree number definition).events.foldl aliasesPast count =
      count + definition.aliasCount := by
  cases definition with
  | fragment f =>
      simp only [Definition.tree, SelectionSet.tree, NodeTree.events, forestEvents,
        NodeTree.forestEvents_append, List.foldl_cons, List.foldl_append, List.foldl_nil,
        aliasesPast_parts (Directive.trees_arePart _), aliasesPast, aliasesPast_selections,
        Definition.aliasCount]
  | operation o =>
      have hvariables : ∀ count, (forestEvents
          (o.variableDefinitions.map VariableDefinition.tree)).foldl aliasesPast count =
          count := by
        intro count
        induction o.variableDefinitions with
        | nil => rfl
        | cons definition rest ih =>
            simp only [List.map_cons, VariableDefinition.tree, NodeTree.events, forestEvents,
              List.foldl_cons, List.foldl_append, List.foldl_nil,
              aliasesPast_parts (Directive.trees_arePart _), aliasesPast, ih]
      simp only [Definition.tree, SelectionSet.tree, NodeTree.events, forestEvents,
        NodeTree.forestEvents_append, List.foldl_cons, List.foldl_append, List.foldl_nil,
        hvariables, aliasesPast_parts (Directive.trees_arePart _), aliasesPast,
        aliasesPast_selections, Definition.aliasCount]

/-- Along the walk the fields with an alias are counted. -/
theorem aliasesPast_document (document : Document) :
    (forestEvents (document.definitions.mapIdx Definition.tree)).foldl aliasesPast 0 =
      document.aliasCount :=
  Document.foldl_events aliasesPast_definition document 0

end Checker

/-! ## What an audit takes -/

/-- A checker that takes no measures. -/
def Checker.Measureless (checker : Checker) : Prop :=
  ∀ state event, checker.measures state event = []

theorem Rule.measureless_checker (rule : Rule) : rule.checker.Measureless := by
  cases rule <;> exact fun _ _ => rfl

theorem Checker.depthGauge_measures {event : Event} (h : event ≠ .leave .document)
    (state : Checker.DepthState) : Checker.depthGauge.measures state event = [] := by
  cases event with
  | enter node => rfl
  | leave node =>
      cases node with
      | document => exact absurd rfl h
      | _ => rfl

theorem Checker.aliasGauge_measures {event : Event} (h : event ≠ .leave .document) (count : Nat) :
    Checker.aliasGauge.measures count event = [] := by
  cases event with
  | enter node => rfl
  | leave node =>
      cases node with
      | document => exact absurd rfl h
      | _ => rfl

namespace Running

theorem foldl_taken_of_measureless {running : List Running}
    (h : ∀ one ∈ running, one.checker.Measureless) (scene : Scene) (event : Event)
    (table : NameTable Nat) :
    running.foldl (fun table one => NameTable.merge table (one.taken scene event)) table =
      table := by
  induction running with
  | nil => rfl
  | cons one rest ih =>
      have htaken : one.taken scene event = [] := h one List.mem_cons_self _ _
      rw [List.foldl_cons, htaken]
      exact ih fun other hother => h other (List.mem_cons_of_mem _ hother)

/-- Beside any rules, the two gauges take their measures where the walk leaves the document. -/
theorem measured_gauges (schema : Schema) (document : Document) (supplied : Variables)
    {rules : List Running} (hrules : ∀ one ∈ rules, one.checker.Measureless)
    {steps : List Step} (hsteps : ∀ step ∈ steps, step.event ≠ .leave .document)
    (types : Tracker) (depth : Checker.DepthState) (count : Nat) :
    measured schema document supplied []
        (rules ++ [⟨Checker.depthGauge, depth⟩, ⟨Checker.aliasGauge, count⟩])
        (steps ++ [⟨.leave .document, types⟩]) =
      [("depth", ((steps.map Step.event).foldl (Checker.DepthState.past document) depth).deepest),
        ("aliasCount", (steps.map Step.event).foldl Checker.aliasesPast count)] := by
  induction steps generalizing rules depth count with
  | nil =>
      simp only [List.nil_append, measured, List.foldl_append,
        foldl_taken_of_measureless hrules]
      rfl
  | cons step rest ih =>
      have hafter : ∀ one ∈ rules.map (next ⟨schema, document, supplied, step.types⟩ step.event),
          one.checker.Measureless := by
        intro one hone
        obtain ⟨before, hbefore, rfl⟩ := List.mem_map.mp hone
        exact hrules before hbefore
      have hlater := ih hafter (fun other hother => hsteps other (List.mem_cons_of_mem _ hother))
        (depth.past document step.event) (Checker.aliasesPast count step.event)
      have hdepth : taken ⟨schema, document, supplied, step.types⟩ step.event
          ⟨Checker.depthGauge, depth⟩ = [] :=
        Checker.depthGauge_measures (hsteps step List.mem_cons_self) _
      have hcount : taken ⟨schema, document, supplied, step.types⟩ step.event
          ⟨Checker.aliasGauge, count⟩ = [] :=
        Checker.aliasGauge_measures (hsteps step List.mem_cons_self) _
      simp only [List.cons_append, measured, List.foldl_append, foldl_taken_of_measureless hrules,
        List.foldl_cons, List.foldl_nil, hdepth, hcount, List.map_append]
      exact hlater

end Running

namespace Document

theorem map_event_steps (schema : Schema) (tracker : Tracker) (events : List Event) :
    (Tracker.steps schema tracker events).map Step.event = events := by
  induction events generalizing tracker with
  | nil => rfl
  | cons event rest ih =>
      cases event <;> exact congrArg (_ :: ·) (ih _)

theorem map_event_definitionSteps (schema : Schema) (document : Document) :
    (document.definitionSteps schema).map Step.event =
      NodeTree.forestEvents (document.definitions.mapIdx Definition.tree) := by
  have hevents : (document.tree.steps schema).map Step.event = document.tree.events :=
    map_event_steps schema Tracker.empty document.tree.events
  rw [steps_eq, List.map_cons, List.map_append] at hevents
  exact List.append_cancel_right (List.cons.inj hevents).2

/-- The walk leaves the document after all definitions. -/
theorem not_leave_of_mem_definitionSteps {schema : Schema} {document : Document} {step : Step}
    (h : step ∈ document.definitionSteps schema) : step.event ≠ .leave .document := by
  obtain ⟨⟨definition, number⟩, -, hstep⟩ := List.mem_flatMap.mp h
  have hevery : (Definition.tree number definition).Every fun node _ => node ≠ .document := by
    rw [Definition.tree_eq]
    refine ⟨by cases definition <;> exact nofun, ?_⟩
    refine (Definition.trees_not_isDefinition number definition).mono ?_
    rintro node - hnode rfl
    cases hnode
  rw [Definition.steps_eq] at hstep
  obtain ⟨-, -, -, hnode, -⟩ := hevery.of_mem_steps _ hstep
  intro hevent
  rw [hevent] at hnode
  exact hnode rfl

/-- The measures of an audit do not depend on its rules. -/
theorem measures_pass (schema : Schema) (rules : List Rule) (document : Document)
    (supplied : Variables) :
    (document.pass schema rules supplied).1.measures =
      [("depth", document.depth), ("aliasCount", document.aliasCount)] := by
  have hrules : ∀ one ∈ (rules.map Rule.checker).map Checker.running,
      one.checker.Measureless := by
    intro one hone
    obtain ⟨_, hchecker, rfl⟩ := List.mem_map.mp hone
    obtain ⟨rule, -, rfl⟩ := List.mem_map.mp hchecker
    exact rule.measureless_checker
  have hsteps : ∀ step ∈ ⟨.enter .document, Tracker.empty⟩ :: document.definitionSteps schema,
      step.event ≠ .leave .document := by
    intro step hstep
    rcases List.mem_cons.mp hstep with rfl | hinside
    · exact nofun
    · exact not_leave_of_mem_definitionSteps hinside
  have hmeasured := Running.measured_gauges schema document supplied hrules hsteps Tracker.empty
    ⟨0, []⟩ 0
  rw [List.map_cons, map_event_definitionSteps] at hmeasured
  have hdepth := Checker.depthPast_document document
  have hcount := Checker.aliasesPast_document document
  rw [(document.pass_eq schema rules supplied).2, steps_eq, starters, List.map_append]
  refine hmeasured.trans ?_
  rw [← hdepth, ← hcount]
  rfl

/-- An audit finds the depth of the document, whatever its rules. -/
theorem audit_depth (schema : Schema) (set : RuleSet) (document : Document)
    (supplied : Variables) : (document.audit schema set supplied).depth = document.depth := by
  simp only [audit, measures_pass]
  rfl

/-- An audit finds the number of aliases, whatever its rules. -/
theorem audit_aliasCount (schema : Schema) (set : RuleSet) (document : Document)
    (supplied : Variables) :
    (document.audit schema set supplied).aliasCount = document.aliasCount := by
  simp only [audit, measures_pass]
  rfl

end Document

end QueryAudit
