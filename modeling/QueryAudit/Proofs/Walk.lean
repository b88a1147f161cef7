import QueryAudit.Walk

/-!
# What a walk tracks

The tracker is changed where a node is entered and changed back where the node is left. So at every
node it holds what the ancestors of the node and the node itself put there, and nothing of the
nodes walked before. `stepsBelow` is the walk said this way, by recursion on the tree;
`steps_eq_stepsBelow` shows that the walk of a document is that one.
-/

namespace QueryAudit

/-! ## Walks by recursion on the tree -/

mutual

/-- The steps of a walk through a tree; each node adds to what its ancestors track. -/
def NodeTree.stepsBelow (schema : Schema) (tracker : Tracker) : NodeTree → List Step
  | .node here children =>
      let inside := tracker.enter schema here
      ⟨.enter here, inside⟩ ::
        (NodeTree.forestStepsBelow schema inside children ++ [⟨.leave here, inside⟩])

/-- The steps of a walk through trees one after the other, all under the same ancestors. -/
def NodeTree.forestStepsBelow (schema : Schema) (tracker : Tracker) : List NodeTree → List Step
  | [] => []
  | tree :: rest =>
      NodeTree.stepsBelow schema tracker tree ++ NodeTree.forestStepsBelow schema tracker rest

end

mutual

/-- Leaving undoes entering, at every node of a tree. -/
def NodeTree.Restores (schema : Schema) (tracker : Tracker) : NodeTree → Prop
  | .node here children =>
      (tracker.enter schema here).leave here = tracker ∧
        NodeTree.ForestRestores schema (tracker.enter schema here) children

/-- Leaving undoes entering, at every node of some trees. -/
def NodeTree.ForestRestores (schema : Schema) (tracker : Tracker) : List NodeTree → Prop
  | [] => True
  | tree :: rest =>
      NodeTree.Restores schema tracker tree ∧ NodeTree.ForestRestores schema tracker rest

end

theorem NodeTree.forestStepsBelow_eq_flatMap (schema : Schema) (tracker : Tracker)
    (trees : List NodeTree) :
    NodeTree.forestStepsBelow schema tracker trees =
      trees.flatMap (NodeTree.stepsBelow schema tracker) := by
  induction trees with
  | nil => rfl
  | cons tree rest ih => simp [NodeTree.forestStepsBelow, ih]

/-- The walk through a tree goes through the trees right below its root. -/
theorem NodeTree.mem_stepsBelow_of_mem {schema : Schema} {tracker : Tracker} {here : Node}
    {children : List NodeTree} {child : NodeTree} (hchild : child ∈ children) {step : Step}
    (hstep : step ∈ child.stepsBelow schema (tracker.enter schema here)) :
    step ∈ (NodeTree.node here children).stepsBelow schema tracker := by
  refine List.mem_cons_of_mem _ (List.mem_append_left _ ?_)
  rw [NodeTree.forestStepsBelow_eq_flatMap]
  exact List.mem_flatMap.mpr ⟨child, hchild, hstep⟩

/-- Every step of a walk through a tree has a property. -/
def NodeTree.AllSteps (p : Step → Prop) (schema : Schema) (tracker : Tracker) (tree : NodeTree) :
    Prop :=
  ∀ step ∈ tree.stepsBelow schema tracker, p step

/-- Every step of a walk through trees one after the other has a property. -/
def NodeTree.ForestAllSteps (p : Step → Prop) (schema : Schema) (tracker : Tracker)
    (trees : List NodeTree) : Prop :=
  ∀ step ∈ NodeTree.forestStepsBelow schema tracker trees, p step

theorem NodeTree.allSteps_node (p : Step → Prop) (schema : Schema) (tracker : Tracker)
    (here : Node) (children : List NodeTree) :
    NodeTree.AllSteps p schema tracker (.node here children) ↔
      p ⟨.enter here, tracker.enter schema here⟩ ∧
        NodeTree.ForestAllSteps p schema (tracker.enter schema here) children ∧
        p ⟨.leave here, tracker.enter schema here⟩ := by
  simp [NodeTree.AllSteps, NodeTree.ForestAllSteps, NodeTree.stepsBelow, or_imp, forall_and]

theorem NodeTree.forestAllSteps_iff (p : Step → Prop) (schema : Schema) (tracker : Tracker)
    (trees : List NodeTree) :
    NodeTree.ForestAllSteps p schema tracker trees ↔
      ∀ tree ∈ trees, NodeTree.AllSteps p schema tracker tree := by
  simp only [NodeTree.ForestAllSteps, NodeTree.AllSteps, NodeTree.forestStepsBelow_eq_flatMap,
    List.mem_flatMap]
  constructor
  · exact fun h tree htree step hstep => h step ⟨tree, htree, hstep⟩
  · rintro h step ⟨tree, htree, hstep⟩
    exact h tree htree step hstep

theorem NodeTree.forestAllSteps_nil (p : Step → Prop) (schema : Schema) (tracker : Tracker) :
    NodeTree.ForestAllSteps p schema tracker [] := by
  simp [NodeTree.forestAllSteps_iff]

theorem NodeTree.forestAllSteps_cons (p : Step → Prop) (schema : Schema) (tracker : Tracker)
    (tree : NodeTree) (rest : List NodeTree) :
    NodeTree.ForestAllSteps p schema tracker (tree :: rest) ↔
      NodeTree.AllSteps p schema tracker tree ∧
        NodeTree.ForestAllSteps p schema tracker rest := by
  simp [NodeTree.forestAllSteps_iff]

theorem NodeTree.forestAllSteps_singleton (p : Step → Prop) (schema : Schema) (tracker : Tracker)
    (tree : NodeTree) :
    NodeTree.ForestAllSteps p schema tracker [tree] ↔ NodeTree.AllSteps p schema tracker tree := by
  simp [NodeTree.forestAllSteps_iff]

theorem NodeTree.forestAllSteps_append (p : Step → Prop) (schema : Schema) (tracker : Tracker)
    (first second : List NodeTree) :
    NodeTree.ForestAllSteps p schema tracker (first ++ second) ↔
      NodeTree.ForestAllSteps p schema tracker first ∧
        NodeTree.ForestAllSteps p schema tracker second := by
  simp [NodeTree.forestAllSteps_iff, or_imp, forall_and]

theorem NodeTree.forestAllSteps_map {α : Type} (p : Step → Prop) (schema : Schema)
    (tracker : Tracker) (tree : α → NodeTree) (items : List α) :
    NodeTree.ForestAllSteps p schema tracker (items.map tree) ↔
      ∀ item ∈ items, NodeTree.AllSteps p schema tracker (tree item) := by
  simp [NodeTree.forestAllSteps_iff]

theorem NodeTree.forestRestores_append (schema : Schema) (tracker : Tracker)
    (first second : List NodeTree) :
    NodeTree.ForestRestores schema tracker (first ++ second) ↔
      NodeTree.ForestRestores schema tracker first ∧
        NodeTree.ForestRestores schema tracker second := by
  induction first with
  | nil => simp [NodeTree.ForestRestores]
  | cons tree rest ih => simp [NodeTree.ForestRestores, ih, and_assoc]

theorem NodeTree.forestRestores_of_forall {schema : Schema} {tracker : Tracker}
    {trees : List NodeTree} (h : ∀ tree ∈ trees, NodeTree.Restores schema tracker tree) :
    NodeTree.ForestRestores schema tracker trees := by
  induction trees with
  | nil => trivial
  | cons tree rest ih =>
      exact ⟨h tree List.mem_cons_self,
        ih fun other hother => h other (List.mem_cons_of_mem _ hother)⟩

mutual

/-- Where leaving undoes entering, the tracked walk is the recursive one, and what follows starts
from the tracker of before. -/
theorem NodeTree.steps_events_append {schema : Schema} {tracker : Tracker} (tree : NodeTree)
    (h : NodeTree.Restores schema tracker tree) (rest : List Event) :
    Tracker.steps schema tracker (tree.events ++ rest) =
      tree.stepsBelow schema tracker ++ Tracker.steps schema tracker rest := by
  cases tree with
  | node here children =>
      obtain ⟨hleave, hchildren⟩ := h
      have hinside := NodeTree.steps_forestEvents_append children hchildren
        (Event.leave here :: rest)
      simp only [NodeTree.events, NodeTree.stepsBelow, List.cons_append, List.append_assoc,
        List.nil_append, Tracker.steps]
      rw [hinside]
      simp only [Tracker.steps, hleave]

theorem NodeTree.steps_forestEvents_append {schema : Schema} {tracker : Tracker}
    (trees : List NodeTree) (h : NodeTree.ForestRestores schema tracker trees)
    (rest : List Event) :
    Tracker.steps schema tracker (NodeTree.forestEvents trees ++ rest) =
      NodeTree.forestStepsBelow schema tracker trees ++ Tracker.steps schema tracker rest := by
  cases trees with
  | nil => rfl
  | cons tree others =>
      obtain ⟨htree, hothers⟩ := h
      simp only [NodeTree.forestEvents, NodeTree.forestStepsBelow, List.append_assoc]
      rw [NodeTree.steps_events_append tree htree, NodeTree.steps_forestEvents_append others hothers]

end

/-! ## The trees of a document -/

namespace Tracker

/-- The walk is in no directive and in no argument. -/
structure AtRest (tracker : Tracker) : Prop where
  directive : tracker.directive = none
  argument : tracker.argument = none

theorem empty_atRest : empty.AtRest := ⟨rfl, rfl⟩

end Tracker

mutual

theorem Value.tree_restores (schema : Schema) (tracker : Tracker) (position : Position)
    (value : Literal) : NodeTree.Restores schema tracker (Value.tree position value) := by
  cases value with
  | var name => exact ⟨rfl, ⟨rfl, trivial⟩, trivial⟩
  | list items => exact ⟨rfl, Value.itemTrees_restore schema tracker position items⟩
  | object fields => exact ⟨rfl, Value.fieldTrees_restore schema tracker position fields⟩
  | null => exact ⟨rfl, trivial⟩
  | number n => exact ⟨rfl, trivial⟩
  | string s => exact ⟨rfl, trivial⟩
  | boolean b => exact ⟨rfl, trivial⟩
  | enum e => exact ⟨rfl, trivial⟩

theorem Value.itemTrees_restore (schema : Schema) (tracker : Tracker) (position : Position)
    (items : List Literal) :
    NodeTree.ForestRestores schema tracker (Value.itemTrees position items) := by
  cases items with
  | nil => trivial
  | cons item rest =>
      exact ⟨⟨rfl, Value.tree_restores schema _ position item, trivial⟩,
        Value.itemTrees_restore schema tracker position rest⟩

theorem Value.fieldTrees_restore (schema : Schema) (tracker : Tracker) (position : Position)
    (fields : List (Name × Literal)) :
    NodeTree.ForestRestores schema tracker (Value.fieldTrees position fields) := by
  cases fields with
  | nil => trivial
  | cons head rest =>
      obtain ⟨name, value⟩ := head
      exact ⟨⟨rfl, Value.tree_restores schema _ position value, trivial⟩,
        Value.fieldTrees_restore schema tracker position rest⟩

end

theorem Argument.tree_restores (schema : Schema) {tracker : Tracker}
    (h : tracker.argument = none) (argument : Argument) :
    NodeTree.Restores schema tracker argument.tree := by
  refine ⟨?_, Value.tree_restores schema _ argument.valuePosition argument.value, trivial⟩
  cases tracker
  simp only at h
  subst h
  rfl

theorem Argument.trees_restore (schema : Schema) {tracker : Tracker}
    (h : tracker.argument = none) (arguments : List Argument) :
    NodeTree.ForestRestores schema tracker (arguments.map Argument.tree) := by
  apply NodeTree.forestRestores_of_forall
  intro tree htree
  obtain ⟨argument, -, rfl⟩ := List.mem_map.mp htree
  exact Argument.tree_restores schema h argument

theorem Directive.tree_restores (schema : Schema) {tracker : Tracker} (h : tracker.AtRest)
    (directive : Directive) : NodeTree.Restores schema tracker directive.tree := by
  have hinside : (tracker.enter schema (.directive directive)).argument = none := h.argument
  refine ⟨?_, Argument.trees_restore schema hinside directive.arguments⟩
  have hdirective := h.directive
  cases tracker
  simp only at hdirective
  subst hdirective
  rfl

theorem Directive.trees_restore (schema : Schema) {tracker : Tracker} (h : tracker.AtRest)
    (directives : List Directive) :
    NodeTree.ForestRestores schema tracker (directives.map Directive.tree) := by
  apply NodeTree.forestRestores_of_forall
  intro tree htree
  obtain ⟨directive, -, rfl⟩ := List.mem_map.mp htree
  exact Directive.tree_restores schema h directive

theorem VariableDefinition.trees_restore (schema : Schema) {tracker : Tracker}
    (h : tracker.AtRest) (definitions : List VariableDefinition) :
    NodeTree.ForestRestores schema tracker (definitions.map VariableDefinition.tree) := by
  apply NodeTree.forestRestores_of_forall
  intro tree htree
  obtain ⟨definition, -, rfl⟩ := List.mem_map.mp htree
  have hinside : (tracker.enter schema (.variableDefinition definition)).AtRest :=
    ⟨h.directive, h.argument⟩
  exact ⟨rfl, Directive.trees_restore schema hinside definition.directives⟩

mutual

theorem Selection.tree_restores (schema : Schema) {tracker : Tracker} (h : tracker.AtRest)
    (address : Address) (selection : Selection) :
    NodeTree.Restores schema tracker (Selection.tree address selection) := by
  cases selection with
  | field chosen inner =>
      have hfield : (tracker.enter schema (.field chosen inner)).AtRest :=
        ⟨h.directive, h.argument⟩
      have hset : ((tracker.enter schema (.field chosen inner)).enter schema
          (.selectionSet address inner)).AtRest := ⟨h.directive, h.argument⟩
      refine ⟨rfl, ⟨rfl, ?_⟩, trivial⟩
      rw [NodeTree.forestRestores_append, NodeTree.forestRestores_append]
      exact ⟨⟨Argument.trees_restore schema hfield.argument _,
        Directive.trees_restore schema hfield _⟩,
        ⟨rfl, Selection.trees_restore schema hset address 0 inner⟩, trivial⟩
  | spread chosen => exact ⟨rfl, ⟨rfl, Directive.trees_restore schema h _⟩, trivial⟩
  | inline head inner =>
      have hinline : (tracker.enter schema (.inline head)).AtRest := ⟨h.directive, h.argument⟩
      have hset : ((tracker.enter schema (.inline head)).enter schema
          (.selectionSet address inner)).AtRest := ⟨h.directive, h.argument⟩
      refine ⟨rfl, ⟨rfl, ?_⟩, trivial⟩
      rw [NodeTree.forestRestores_append]
      exact ⟨Directive.trees_restore schema hinline _,
        ⟨rfl, Selection.trees_restore schema hset address 0 inner⟩, trivial⟩

theorem Selection.trees_restore (schema : Schema) {tracker : Tracker} (h : tracker.AtRest)
    (address : Address) (number : Nat) (selections : List Selection) :
    NodeTree.ForestRestores schema tracker (Selection.trees address number selections) := by
  cases selections with
  | nil => trivial
  | cons selection rest =>
      exact ⟨Selection.tree_restores schema h (number :: address) selection,
        Selection.trees_restore schema h address (number + 1) rest⟩

end

theorem SelectionSet.tree_restores (schema : Schema) {tracker : Tracker} (h : tracker.AtRest)
    (address : Address) (selections : SelectionSet) :
    NodeTree.Restores schema tracker (SelectionSet.tree address selections) := by
  have hset : (tracker.enter schema (.selectionSet address selections)).AtRest :=
    ⟨h.directive, h.argument⟩
  exact ⟨rfl, Selection.trees_restore schema hset address 0 selections⟩

theorem Definition.tree_restores (schema : Schema) {tracker : Tracker} (h : tracker.AtRest)
    (number : Nat) (definition : Definition) :
    NodeTree.Restores schema tracker (Definition.tree number definition) := by
  cases definition with
  | operation o =>
      have hinside : (tracker.enter schema (.operation o)).AtRest := ⟨h.directive, h.argument⟩
      refine ⟨rfl, ?_⟩
      rw [NodeTree.forestRestores_append, NodeTree.forestRestores_append]
      exact ⟨⟨VariableDefinition.trees_restore schema hinside _,
        Directive.trees_restore schema hinside _⟩,
        SelectionSet.tree_restores schema hinside [number] _, trivial⟩
  | fragment f =>
      have hinside : (tracker.enter schema (.fragment f)).AtRest := ⟨h.directive, h.argument⟩
      refine ⟨rfl, ?_⟩
      rw [NodeTree.forestRestores_append]
      exact ⟨Directive.trees_restore schema hinside _,
        SelectionSet.tree_restores schema hinside [number] _, trivial⟩

/-! ## The nodes of a walk -/

namespace Event

def node : Event → Node
  | .enter node => node
  | .leave node => node

end Event

namespace Node

def isDefinition : Node → Bool
  | .document | .operation _ | .fragment _ => true
  | _ => false

def isValue : Node → Bool
  | .value _ _ | .listItem _ _ | .objectField _ _ _ | .variableUse _ _ => true
  | _ => false

def isPart : Node → Bool
  | .directive _ | .argument _ => true
  | node => node.isValue

theorem isPart_of_isValue {node : Node} (h : node.isValue = true) : node.isPart = true := by
  cases node <;> first | rfl | cases h

theorem not_isDefinition_of_isPart {node : Node} (h : node.isPart = true) :
    node.isDefinition = false := by
  cases node <;> first | rfl | cases h

end Node

mutual

/-- Every node of a tree has a property together with the trees right below it. -/
def NodeTree.Every (p : Node → List NodeTree → Prop) : NodeTree → Prop
  | .node here children => p here children ∧ NodeTree.ForestEvery p children

/-- Every node of some trees has a property together with the trees right below it. -/
def NodeTree.ForestEvery (p : Node → List NodeTree → Prop) : List NodeTree → Prop
  | [] => True
  | tree :: rest => NodeTree.Every p tree ∧ NodeTree.ForestEvery p rest

end

theorem NodeTree.forestEvery_append (p : Node → List NodeTree → Prop)
    (first second : List NodeTree) :
    NodeTree.ForestEvery p (first ++ second) ↔
      NodeTree.ForestEvery p first ∧ NodeTree.ForestEvery p second := by
  induction first with
  | nil => simp [NodeTree.ForestEvery]
  | cons tree rest ih => simp [NodeTree.ForestEvery, ih, and_assoc]

theorem NodeTree.forestEvery_of_forall {p : Node → List NodeTree → Prop} {trees : List NodeTree}
    (h : ∀ tree ∈ trees, NodeTree.Every p tree) : NodeTree.ForestEvery p trees := by
  induction trees with
  | nil => trivial
  | cons tree rest ih =>
      exact ⟨h tree List.mem_cons_self,
        ih fun other hother => h other (List.mem_cons_of_mem _ hother)⟩

mutual

theorem NodeTree.Every.mono {p q : Node → List NodeTree → Prop}
    (h : ∀ node children, p node children → q node children) (tree : NodeTree)
    (htree : NodeTree.Every p tree) : NodeTree.Every q tree := by
  cases tree with
  | node here children =>
      exact ⟨h here children htree.1, NodeTree.ForestEvery.mono h children htree.2⟩

theorem NodeTree.ForestEvery.mono {p q : Node → List NodeTree → Prop}
    (h : ∀ node children, p node children → q node children) (trees : List NodeTree)
    (htrees : NodeTree.ForestEvery p trees) : NodeTree.ForestEvery q trees := by
  cases trees with
  | nil => trivial
  | cons tree rest =>
      exact ⟨NodeTree.Every.mono h tree htrees.1, NodeTree.ForestEvery.mono h rest htrees.2⟩

end

mutual

/-- A step of a walk enters or leaves a node of the tree with what an outer tracker becomes there,
and the walk goes through the trees right below that node. -/
theorem NodeTree.Every.of_mem_steps {p : Node → List NodeTree → Prop} {schema : Schema}
    {tracker : Tracker} {step : Step} (tree : NodeTree) (h : NodeTree.Every p tree)
    (hstep : step ∈ tree.stepsBelow schema tracker) :
    ∃ outer children, step.types = Tracker.enter schema outer step.event.node ∧
      p step.event.node children ∧
      ∀ other ∈ NodeTree.forestStepsBelow schema step.types children,
        other ∈ tree.stepsBelow schema tracker := by
  cases tree with
  | node here children =>
      have hbelow : ∀ other ∈ NodeTree.forestStepsBelow schema (tracker.enter schema here) children,
          other ∈ (NodeTree.node here children).stepsBelow schema tracker := fun other hother =>
        List.mem_cons_of_mem _ (List.mem_append_left _ hother)
      have hcases := hstep
      simp only [NodeTree.stepsBelow, List.mem_cons, List.mem_append, List.not_mem_nil,
        or_false] at hcases
      rcases hcases with rfl | hinner | rfl
      · exact ⟨tracker, children, rfl, h.1, hbelow⟩
      · obtain ⟨outer, inner, htypes, hp, hsteps⟩ :=
          NodeTree.ForestEvery.of_mem_steps children h.2 hinner
        exact ⟨outer, inner, htypes, hp, fun other hother => hbelow other (hsteps other hother)⟩
      · exact ⟨tracker, children, rfl, h.1, hbelow⟩

theorem NodeTree.ForestEvery.of_mem_steps {p : Node → List NodeTree → Prop} {schema : Schema}
    {tracker : Tracker} {step : Step} (trees : List NodeTree) (h : NodeTree.ForestEvery p trees)
    (hstep : step ∈ NodeTree.forestStepsBelow schema tracker trees) :
    ∃ outer children, step.types = Tracker.enter schema outer step.event.node ∧
      p step.event.node children ∧
      ∀ other ∈ NodeTree.forestStepsBelow schema step.types children,
        other ∈ NodeTree.forestStepsBelow schema tracker trees := by
  cases trees with
  | nil => cases hstep
  | cons tree rest =>
      rcases List.mem_append.mp hstep with hfirst | hothers
      · obtain ⟨outer, inner, htypes, hp, hsteps⟩ :=
          NodeTree.Every.of_mem_steps tree h.1 hfirst
        exact ⟨outer, inner, htypes, hp,
          fun other hother => List.mem_append_left _ (hsteps other hother)⟩
      · obtain ⟨outer, inner, htypes, hp, hsteps⟩ :=
          NodeTree.ForestEvery.of_mem_steps rest h.2 hothers
        exact ⟨outer, inner, htypes, hp,
          fun other hother => List.mem_append_right _ (hsteps other hother)⟩

end

mutual

theorem Value.tree_isValue (position : Position) (value : Literal) :
    NodeTree.Every (fun node _ => node.isValue = true) (Value.tree position value) := by
  cases value with
  | var name => exact ⟨rfl, ⟨rfl, trivial⟩, trivial⟩
  | list items => exact ⟨rfl, Value.itemTrees_areValues position items⟩
  | object fields => exact ⟨rfl, Value.fieldTrees_areValues position fields⟩
  | null => exact ⟨rfl, trivial⟩
  | number n => exact ⟨rfl, trivial⟩
  | string s => exact ⟨rfl, trivial⟩
  | boolean b => exact ⟨rfl, trivial⟩
  | enum e => exact ⟨rfl, trivial⟩

theorem Value.itemTrees_areValues (position : Position) (items : List Literal) :
    NodeTree.ForestEvery (fun node _ => node.isValue = true) (Value.itemTrees position items) := by
  cases items with
  | nil => trivial
  | cons item rest =>
      exact ⟨⟨rfl, Value.tree_isValue position item, trivial⟩,
        Value.itemTrees_areValues position rest⟩

theorem Value.fieldTrees_areValues (position : Position) (fields : List (Name × Literal)) :
    NodeTree.ForestEvery (fun node _ => node.isValue = true) (Value.fieldTrees position fields) := by
  cases fields with
  | nil => trivial
  | cons head rest =>
      obtain ⟨name, value⟩ := head
      exact ⟨⟨rfl, Value.tree_isValue position value, trivial⟩,
        Value.fieldTrees_areValues position rest⟩

end

theorem Argument.trees_arePart (arguments : List Argument) :
    NodeTree.ForestEvery (fun node _ => node.isPart = true) (arguments.map Argument.tree) := by
  apply NodeTree.forestEvery_of_forall
  intro tree htree
  obtain ⟨argument, -, rfl⟩ := List.mem_map.mp htree
  have hvalue := Value.tree_isValue argument.valuePosition argument.value
  exact ⟨rfl, hvalue.mono (fun _ _ => Node.isPart_of_isValue), trivial⟩

theorem Directive.trees_arePart (directives : List Directive) :
    NodeTree.ForestEvery (fun node _ => node.isPart = true) (directives.map Directive.tree) := by
  apply NodeTree.forestEvery_of_forall
  intro tree htree
  obtain ⟨directive, -, rfl⟩ := List.mem_map.mp htree
  exact ⟨rfl, Argument.trees_arePart directive.arguments⟩

theorem NodeTree.ForestEvery.not_isDefinition {trees : List NodeTree}
    (h : NodeTree.ForestEvery (fun node _ => node.isPart = true) trees) :
    NodeTree.ForestEvery (fun node _ => node.isDefinition = false) trees :=
  h.mono (fun _ _ => Node.not_isDefinition_of_isPart) trees

mutual

theorem Selection.tree_not_isDefinition (address : Address) (selection : Selection) :
    NodeTree.Every (fun node _ => node.isDefinition = false) (Selection.tree address selection) := by
  cases selection with
  | field chosen inner =>
      refine ⟨rfl, ⟨rfl, ?_⟩, trivial⟩
      rw [NodeTree.forestEvery_append, NodeTree.forestEvery_append]
      exact ⟨⟨(Argument.trees_arePart _).not_isDefinition,
        (Directive.trees_arePart _).not_isDefinition⟩,
        ⟨rfl, Selection.trees_not_isDefinition address 0 inner⟩, trivial⟩
  | spread chosen =>
      exact ⟨rfl, ⟨rfl, (Directive.trees_arePart _).not_isDefinition⟩, trivial⟩
  | inline head inner =>
      refine ⟨rfl, ⟨rfl, ?_⟩, trivial⟩
      rw [NodeTree.forestEvery_append]
      exact ⟨(Directive.trees_arePart _).not_isDefinition,
        ⟨rfl, Selection.trees_not_isDefinition address 0 inner⟩, trivial⟩

theorem Selection.trees_not_isDefinition (address : Address) (number : Nat)
    (selections : List Selection) :
    NodeTree.ForestEvery (fun node _ => node.isDefinition = false)
      (Selection.trees address number selections) := by
  cases selections with
  | nil => trivial
  | cons selection rest =>
      exact ⟨Selection.tree_not_isDefinition (number :: address) selection,
        Selection.trees_not_isDefinition address (number + 1) rest⟩

end

def Definition.node : Definition → Node
  | .operation o => .operation o
  | .fragment f => .fragment f

def Definition.trees (number : Nat) : Definition → List NodeTree
  | .operation o =>
      o.variableDefinitions.map VariableDefinition.tree ++ o.directives.map Directive.tree ++
        [SelectionSet.tree [number] o.selections]
  | .fragment f => f.directives.map Directive.tree ++ [SelectionSet.tree [number] f.selections]

theorem Definition.tree_eq (number : Nat) (definition : Definition) :
    Definition.tree number definition = .node definition.node (definition.trees number) := by
  cases definition <;> rfl

/-- Below a definition there is no other one. -/
theorem Definition.trees_not_isDefinition (number : Nat) (definition : Definition) :
    NodeTree.ForestEvery (fun node _ => node.isDefinition = false) (definition.trees number) := by
  cases definition with
  | operation o =>
      simp only [Definition.trees, NodeTree.forestEvery_append]
      refine ⟨⟨?_, (Directive.trees_arePart _).not_isDefinition⟩,
        ⟨rfl, Selection.trees_not_isDefinition [number] 0 o.selections⟩, trivial⟩
      apply NodeTree.forestEvery_of_forall
      intro tree htree
      obtain ⟨definition, -, rfl⟩ := List.mem_map.mp htree
      exact ⟨rfl, (Directive.trees_arePart _).not_isDefinition⟩
  | fragment f =>
      simp only [Definition.trees, NodeTree.forestEvery_append]
      exact ⟨(Directive.trees_arePart _).not_isDefinition,
        ⟨rfl, Selection.trees_not_isDefinition [number] 0 f.selections⟩, trivial⟩

/-! ## The walk of a document -/

theorem NodeTree.steps_eq_stepsBelow {schema : Schema} {tree : NodeTree}
    (h : NodeTree.Restores schema Tracker.empty tree) :
    tree.steps schema = tree.stepsBelow schema Tracker.empty := by
  have hsteps := NodeTree.steps_events_append tree h []
  simpa [NodeTree.steps, Tracker.steps] using hsteps

theorem Definition.steps_eq (schema : Schema) (number : Nat) (definition : Definition) :
    (Definition.tree number definition).steps schema =
      (Definition.tree number definition).stepsBelow schema Tracker.empty :=
  NodeTree.steps_eq_stepsBelow
    (Definition.tree_restores schema Tracker.empty_atRest number definition)

theorem Document.tree_restores (schema : Schema) (document : Document) :
    NodeTree.Restores schema Tracker.empty document.tree := by
  refine ⟨rfl, NodeTree.forestRestores_of_forall ?_⟩
  intro tree htree
  obtain ⟨number, hnumber, rfl⟩ := List.mem_mapIdx.mp htree
  exact Definition.tree_restores schema Tracker.empty_atRest number _

theorem Document.steps_eq_stepsBelow (schema : Schema) (document : Document) :
    document.tree.steps schema = document.tree.stepsBelow schema Tracker.empty :=
  NodeTree.steps_eq_stepsBelow (document.tree_restores schema)

/-- The steps of the definitions of a document, each walked with nothing tracked at first. -/
def Document.definitionSteps (schema : Schema) (document : Document) : List Step :=
  document.definitions.zipIdx.flatMap fun numbered =>
    (Definition.tree numbered.2 numbered.1).steps schema

/-- The walk of a document is that of its definitions one after the other. -/
theorem Document.steps_eq (schema : Schema) (document : Document) :
    document.tree.steps schema =
      ⟨.enter .document, Tracker.empty⟩ ::
        (document.definitionSteps schema ++ [⟨.leave .document, Tracker.empty⟩]) := by
  have hforest : NodeTree.forestStepsBelow schema Tracker.empty
      (document.definitions.mapIdx Definition.tree) = document.definitionSteps schema := by
    rw [NodeTree.forestStepsBelow_eq_flatMap, List.mapIdx_eq_zipIdx_map, List.flatMap_map]
    simp only [Document.definitionSteps, Definition.steps_eq]
  rw [Document.steps_eq_stepsBelow, ← hforest]
  rfl

/-- The walk of a document goes through each of its definitions. -/
theorem Document.mem_steps_of_mem {schema : Schema} {document : Document} {number : Nat}
    {definition : Definition} (hdefinition : document.definitions[number]? = some definition)
    {step : Step} (hstep : step ∈ (Definition.tree number definition).steps schema) :
    step ∈ document.tree.steps schema := by
  rw [Document.steps_eq]
  refine List.mem_cons_of_mem _ (List.mem_append_left _ ?_)
  have hnumbered : (definition, number) ∈ document.definitions.zipIdx :=
    List.mem_zipIdx_iff_getElem?.mpr hdefinition
  exact List.mem_flatMap.mpr ⟨(definition, number), hnumbered, hstep⟩

/-! ## Definitions along a walk -/

def Definition.enterStep (schema : Schema) (definition : Definition) : Step :=
  ⟨.enter definition.node, Tracker.empty.enter schema definition.node⟩

def Definition.leaveStep (schema : Schema) (definition : Definition) : Step :=
  ⟨.leave definition.node, Tracker.empty.enter schema definition.node⟩

theorem Definition.filter_steps (schema : Schema) (number : Nat) (definition : Definition)
    {keep : Step → Bool}
    (hkeep : ∀ step, keep step = true → ∃ other : Definition, step.event.node = other.node) :
    ((Definition.tree number definition).steps schema).filter keep =
      [definition.enterStep schema, definition.leaveStep schema].filter keep := by
  have hbelow : ∀ tracker, (NodeTree.forestStepsBelow schema tracker
      (definition.trees number)).filter keep = [] := by
    intro tracker
    rw [List.filter_eq_nil_iff]
    intro step hstep hkept
    obtain ⟨-, -, -, hnode, -⟩ :=
      (Definition.trees_not_isDefinition number definition).of_mem_steps _ hstep
    obtain ⟨other, hother⟩ := hkeep step hkept
    rw [hother] at hnode
    cases other <;> cases hnode
  rw [Definition.steps_eq, Definition.tree_eq]
  simp only [NodeTree.stepsBelow, List.filter_cons, List.filter_append, hbelow, List.nil_append]
  rfl

/-- The steps at definitions come in document order. -/
theorem Document.filter_steps (schema : Schema) (document : Document) {keep : Step → Bool}
    (hkeep : ∀ step, keep step = true → ∃ other : Definition, step.event.node = other.node) :
    (document.tree.steps schema).filter keep =
      document.definitions.flatMap fun definition =>
        [definition.enterStep schema, definition.leaveStep schema].filter keep := by
  have hall : ∀ (definitions : List Definition) (number : Nat),
      ((definitions.zipIdx number).flatMap fun numbered =>
        (Definition.tree numbered.2 numbered.1).steps schema).filter keep =
      definitions.flatMap fun definition =>
        [definition.enterStep schema, definition.leaveStep schema].filter keep := by
    intro definitions
    induction definitions with
    | nil => exact fun _ => rfl
    | cons definition rest ih =>
        intro number
        rw [List.zipIdx_cons, List.flatMap_cons, List.filter_append, ih,
          Definition.filter_steps schema number definition hkeep, List.flatMap_cons]
  have hends : ∀ event, event.node = .document → ¬ keep ⟨event, Tracker.empty⟩ = true := by
    intro event hevent hkept
    obtain ⟨other, hother⟩ := hkeep _ hkept
    cases other <;> cases hevent.symm.trans hother
  rw [Document.steps_eq, Document.definitionSteps, List.filter_cons_of_neg (hends _ rfl),
    List.filter_append, hall, List.filter_cons_of_neg (hends _ rfl), List.filter_nil,
    List.append_nil]

def Step.entersFragment (step : Step) : Bool :=
  match step.event with
  | .enter (.fragment _) => true
  | _ => false

def Fragment.enterStep (schema : Schema) (fragment : Fragment) : Step :=
  ⟨.enter (.fragment fragment), Tracker.empty.enter schema (.fragment fragment)⟩

theorem Document.filter_steps_entersFragment (schema : Schema) (document : Document) :
    (document.tree.steps schema).filter Step.entersFragment =
      document.fragments.map (Fragment.enterStep schema) := by
  have hkeep : ∀ step, Step.entersFragment step = true →
      ∃ other : Definition, step.event.node = other.node := by
    intro step hstep
    unfold Step.entersFragment at hstep
    split at hstep
    · rename_i fragment hevent
      exact ⟨.fragment fragment, by rw [hevent]; rfl⟩
    · cases hstep
  rw [document.filter_steps schema hkeep, Document.fragments]
  induction document.definitions with
  | nil => rfl
  | cons definition rest ih =>
      rw [List.flatMap_cons, ih]
      cases definition <;> rfl

def Step.entersOperation (step : Step) : Bool :=
  match step.event with
  | .enter (.operation _) => true
  | _ => false

theorem Step.exists_of_entersOperation (step : Step) (h : step.entersOperation = true) :
    ∃ other : Definition, step.event.node = other.node := by
  unfold Step.entersOperation at h
  split at h
  · rename_i operation hevent
    exact ⟨.operation operation, by rw [hevent]; rfl⟩
  · cases h

def Step.leavesOperation (step : Step) : Bool :=
  match step.event with
  | .leave (.operation _) => true
  | _ => false

def Operation.leaveStep (schema : Schema) (operation : Operation) : Step :=
  ⟨.leave (.operation operation), Tracker.empty.enter schema (.operation operation)⟩

theorem Document.filter_steps_leavesOperation (schema : Schema) (document : Document) :
    (document.tree.steps schema).filter Step.leavesOperation =
      document.operations.map (Operation.leaveStep schema) := by
  have hkeep : ∀ step, Step.leavesOperation step = true →
      ∃ other : Definition, step.event.node = other.node := by
    intro step hstep
    unfold Step.leavesOperation at hstep
    split at hstep
    · rename_i operation hevent
      exact ⟨.operation operation, by rw [hevent]; rfl⟩
    · cases hstep
  rw [document.filter_steps schema hkeep, Document.operations]
  induction document.definitions with
  | nil => rfl
  | cons definition rest ih =>
      rw [List.flatMap_cons, ih]
      cases definition <;> rfl

end QueryAudit
