import Mathlib.Data.List.Perm.Basic
import QueryAudit.Audit
import QueryAudit.Proofs.Memory

/-!
# Checkers along a walk

What a checker reports along the steps of a walk, from its own state on, with its questions answered
afresh. The checkers that follow one walk side by side report at each event what each of them
reports there alone: the answers they share are the fresh ones, because a question is only asked
about the operation that the walk is in, or about one by its number.
-/

namespace QueryAudit

namespace Checker

/-- What a checker does at an event if its questions are answered afresh. -/
def step (checker : Checker) (scene : Scene) (state : checker.State) (event : Event) :
    checker.State × List Diagnostic :=
  (checker.act scene state event).answer scene.schema scene.document

@[simp] theorem step_ofStep (State : Type) (start : State)
    (act : Scene → State → Event → State × List Diagnostic) (scene : Scene) (state : State)
    (event : Event) : (ofStep State start act).step scene state event = act scene state event :=
  rfl

def reports (checker : Checker) (schema : Schema) (document : Document) (supplied : Variables) :
    checker.State → List Step → List Diagnostic
  | _, [] => []
  | state, step :: rest =>
      let outcome := checker.step ⟨schema, document, supplied, step.types⟩ state step.event
      outcome.2 ++ checker.reports schema document supplied outcome.1 rest

/-- What a checker reports at each of some steps, from a state on. -/
def reportsEach (checker : Checker) (schema : Schema) (document : Document)
    (supplied : Variables) : checker.State → List Step → List (List Diagnostic)
  | _, [] => []
  | state, step :: rest =>
      let outcome := checker.step ⟨schema, document, supplied, step.types⟩ state step.event
      outcome.2 :: checker.reportsEach schema document supplied outcome.1 rest

def stateAfter (checker : Checker) (schema : Schema) (document : Document)
    (supplied : Variables) : checker.State → List Step → checker.State
  | state, [] => state
  | state, step :: rest =>
      checker.stateAfter schema document supplied
        (checker.step ⟨schema, document, supplied, step.types⟩ state step.event).1 rest

theorem flatten_reportsEach (checker : Checker) (schema : Schema) (document : Document)
    (supplied : Variables) (state : checker.State) (steps : List Step) :
    (checker.reportsEach schema document supplied state steps).flatten =
      checker.reports schema document supplied state steps := by
  induction steps generalizing state with
  | nil => rfl
  | cons step rest ih => simp [reportsEach, reports, ih]

theorem reports_append (checker : Checker) (schema : Schema) (document : Document)
    (supplied : Variables) (state : checker.State) (first second : List Step) :
    checker.reports schema document supplied state (first ++ second) =
      checker.reports schema document supplied state first ++
        checker.reports schema document supplied
          (checker.stateAfter schema document supplied state first) second := by
  induction first generalizing state with
  | nil => rfl
  | cons step rest ih => simp [reports, stateAfter, ih]

theorem stateAfter_append (checker : Checker) (schema : Schema) (document : Document)
    (supplied : Variables) (state : checker.State) (first second : List Step) :
    checker.stateAfter schema document supplied state (first ++ second) =
      checker.stateAfter schema document supplied
        (checker.stateAfter schema document supplied state first) second := by
  induction first generalizing state with
  | nil => rfl
  | cons step rest ih => simp [stateAfter, ih]

/-- Steps that a checker ignores can be left out. -/
theorem reports_filter (checker : Checker) (schema : Schema) (document : Document)
    (supplied : Variables) (keep : Step → Bool)
    (hkeep : ∀ step, keep step = false → ∀ state : checker.State,
      checker.step ⟨schema, document, supplied, step.types⟩ state step.event = (state, []))
    (state : checker.State) (steps : List Step) :
    checker.reports schema document supplied state steps =
      checker.reports schema document supplied state (steps.filter keep) := by
  induction steps generalizing state with
  | nil => rfl
  | cons step rest ih =>
      cases hstep : keep step with
      | true => simp [reports, hstep, ih]
      | false => simp [reports, hstep, ih, hkeep step hstep state]

theorem reports_asking (inquiry : Scene → Event → Inquiry (List Diagnostic)) (schema : Schema)
    (document : Document) (supplied : Variables) (steps : List Step) :
    (asking inquiry).reports schema document supplied () steps =
      steps.flatMap fun step =>
        (inquiry ⟨schema, document, supplied, step.types⟩ step.event).answer schema document := by
  induction steps with
  | nil => rfl
  | cons step rest ih =>
      have hstep : ((asking inquiry).step ⟨schema, document, supplied, step.types⟩ ()
          step.event).2 =
          (inquiry ⟨schema, document, supplied, step.types⟩ step.event).answer schema document :=
        congrArg Prod.snd (Inquiry.answer_map schema document _ _)
      rw [List.flatMap_cons, ← ih, ← hstep]
      rfl

theorem reports_stateless (report : Scene → Event → List Diagnostic) (schema : Schema)
    (document : Document) (supplied : Variables) (steps : List Step) :
    (stateless report).reports schema document supplied () steps =
      steps.flatMap fun step => report ⟨schema, document, supplied, step.types⟩ step.event :=
  reports_asking _ schema document supplied steps

theorem reportsEach_stateless (report : Scene → Event → List Diagnostic) (schema : Schema)
    (document : Document) (supplied : Variables) (steps : List Step) :
    (stateless report).reportsEach schema document supplied () steps =
      steps.map fun step => report ⟨schema, document, supplied, step.types⟩ step.event := by
  induction steps with
  | nil => rfl
  | cons step rest ih =>
      rw [List.map_cons, ← ih]
      rfl

/-- A checker without state that reports nothing along some steps reports nothing at any of them. -/
theorem silent_of_reports_eq_nil {checker : Checker} {schema : Schema} {document : Document}
    {supplied : Variables} {steps : List Step}
    (hasking : ∃ inquiry, checker = asking inquiry)
    (h : checker.reports schema document supplied checker.start steps = []) :
    ∀ step ∈ steps, ∀ state : checker.State,
      (checker.step ⟨schema, document, supplied, step.types⟩ state step.event).2 = [] := by
  obtain ⟨inquiry, rfl⟩ := hasking
  intro step hstep _
  have hsteps := (reports_asking inquiry schema document supplied steps).symm.trans h
  have hanswer := List.flatMap_eq_nil_iff.mp hsteps step hstep
  exact (congrArg Prod.snd (Inquiry.answer_map schema document _ _)).trans hanswer

/-- Where a node is left, a checker forgets what it noted where the node was entered. -/
structure Forgets (checker : Checker) (schema : Schema) (document : Document)
    (supplied : Variables) (noted : checker.State → Node → checker.State) : Prop where
  enter : ∀ types state node,
    (checker.step ⟨schema, document, supplied, types⟩ state (.enter node)).1 = noted state node
  leave : ∀ types state node,
    (checker.step ⟨schema, document, supplied, types⟩ (noted state node) (.leave node)).1 = state

section Forgets

variable {checker : Checker} {schema : Schema} {document : Document} {supplied : Variables}
  {noted : checker.State → Node → checker.State}

mutual

/-- A walk through a tree leaves the state of such a checker as it was. -/
theorem Forgets.stateAfter_stepsBelow (h : checker.Forgets schema document supplied noted)
    (tracker : Tracker) (state : checker.State) (tree : NodeTree) :
    checker.stateAfter schema document supplied state (tree.stepsBelow schema tracker) = state := by
  cases tree with
  | node here children =>
      simp only [NodeTree.stepsBelow, stateAfter, stateAfter_append, h.enter,
        h.stateAfter_forestStepsBelow (tracker.enter schema here) (noted state here) children,
        h.leave]

theorem Forgets.stateAfter_forestStepsBelow (h : checker.Forgets schema document supplied noted)
    (tracker : Tracker) (state : checker.State) (trees : List NodeTree) :
    checker.stateAfter schema document supplied state
      (NodeTree.forestStepsBelow schema tracker trees) = state := by
  cases trees with
  | nil => rfl
  | cons tree rest =>
      rw [NodeTree.forestStepsBelow, stateAfter_append, h.stateAfter_stepsBelow tracker state tree,
        h.stateAfter_forestStepsBelow tracker state rest]

end

/-- Such a checker takes each of several trees from the same state. -/
theorem Forgets.reports_forest (h : checker.Forgets schema document supplied noted)
    (tracker : Tracker) (state : checker.State) (trees : List NodeTree) :
    checker.reports schema document supplied state
        (NodeTree.forestStepsBelow schema tracker trees) =
      trees.flatMap fun tree =>
        checker.reports schema document supplied state (tree.stepsBelow schema tracker) := by
  induction trees with
  | nil => rfl
  | cons tree rest ih =>
      rw [NodeTree.forestStepsBelow, reports_append, h.stateAfter_stepsBelow tracker state tree, ih,
        List.flatMap_cons]

/-- What such a checker reports in a tree: on the node itself, and below it from what it noted
there. -/
theorem Forgets.reports_node_eq_nil (h : checker.Forgets schema document supplied noted)
    {tracker : Tracker} {state : checker.State} {here : Node} {children : List NodeTree}
    (hsilent : checker.reports schema document supplied state
      ((NodeTree.node here children).stepsBelow schema tracker) = []) :
    (checker.step ⟨schema, document, supplied, tracker.enter schema here⟩ state
        (.enter here)).2 = [] ∧
      ∀ tree ∈ children, checker.reports schema document supplied (noted state here)
        (tree.stepsBelow schema (tracker.enter schema here)) = [] := by
  simp only [NodeTree.stepsBelow, reports, reports_append, h.enter, h.reports_forest,
    List.append_eq_nil_iff, List.flatMap_eq_nil_iff] at hsilent
  exact ⟨hsilent.1, hsilent.2.1⟩

end Forgets

end Checker

/-! ## What rules ask -/

namespace Checker

/-- A checker asks what is used only where the walk leaves an operation, and about that one; what is
reached it asks about operations by their numbers. -/
def AsksInPlace (checker : Checker) : Prop :=
  ∀ (scene : Scene) (state : checker.State) (event : Event) (number : Nat),
    (∀ operation, event = .leave (.operation operation) →
      scene.document.definitions[number]? = some (.operation operation)) →
    (checker.act scene state event).AsksAt scene.document number

theorem asksInPlace_asking {inquiry : Scene → Event → Inquiry (List Diagnostic)}
    (h : ∀ scene event number, (∀ operation, event = .leave (.operation operation) →
        scene.document.definitions[number]? = some (.operation operation)) →
      (inquiry scene event).AsksAt scene.document number) :
    (asking inquiry).AsksInPlace :=
  fun scene _ event number hevent => (h scene event number hevent).map _

end Checker

theorem Rule.asksInPlace (rule : Rule) : rule.checker.AsksInPlace := by
  cases rule with
  | noUnusedFragments =>
      apply Checker.asksInPlace_asking
      intro scene event number _
      cases event with
      | enter node => trivial
      | leave node =>
          cases node with
          | document =>
              apply Inquiry.AsksAt.map
              apply Inquiry.reachedByAll_asksAt
              intro numbered hmem
              exact Document.definitions_of_mem_numberedOperations hmem
          | _ => trivial
  | noUndefinedVariables | noUnusedVariables | variablesInAllowedPosition =>
      apply Checker.asksInPlace_asking
      intro scene event number hevent
      cases event with
      | enter node => trivial
      | leave node =>
          cases node with
          | operation operation => exact ⟨hevent operation rfl, fun _ => trivial⟩
          | _ => trivial
  | _ => exact fun _ _ _ _ _ => trivial

/-- Where some steps leave an operation, it is the definition of the number that counts the
definitions left before. -/
def Document.Numbers (document : Document) : Nat → List Step → Prop
  | _, [] => True
  | number, step :: rest =>
      (∀ operation, step.event = .leave (.operation operation) →
        document.definitions[number]? = some (.operation operation)) ∧
      document.Numbers (if step.event.leavesDefinition then number + 1 else number) rest

namespace Document

theorem numbers_append (document : Document) (number : Nat) (first second : List Step) :
    document.Numbers number (first ++ second) ↔
      document.Numbers number first ∧
        document.Numbers (number + first.countP fun step => step.event.leavesDefinition)
          second := by
  induction first generalizing number with
  | nil => simp [Numbers]
  | cons step rest ih =>
      simp only [List.cons_append, Numbers, ih, and_assoc, List.countP_cons]
      cases step.event.leavesDefinition <;> simp [Nat.add_assoc, Nat.add_comm]

/-- Inside a definition no other one is left. -/
theorem numbers_inside (document : Document) (number : Nat) {steps : List Step}
    (h : ∀ step ∈ steps, step.event.node.isDefinition = false) :
    document.Numbers number steps ∧
      (steps.countP fun step => step.event.leavesDefinition) = 0 := by
  induction steps with
  | nil => exact ⟨trivial, rfl⟩
  | cons step rest ih =>
      obtain ⟨hrest, hcount⟩ := ih fun other hother => h other (List.mem_cons_of_mem _ hother)
      have hnode := h step List.mem_cons_self
      have hstays : step.event.leavesDefinition = false := by
        unfold Event.leavesDefinition
        split <;> simp_all [Event.node, Node.isDefinition]
      refine ⟨⟨?_, ?_⟩, ?_⟩
      · intro operation hevent
        rw [hevent] at hnode
        cases hnode
      · rw [hstays]
        exact hrest
      · rw [List.countP_cons, hstays, hcount]
        rfl

theorem numbers_definition (schema : Schema) (document : Document) {number : Nat}
    {definition : Definition} (h : document.definitions[number]? = some definition) :
    document.Numbers number ((Definition.tree number definition).steps schema) ∧
      (((Definition.tree number definition).steps schema).countP fun step =>
        step.event.leavesDefinition) = 1 := by
  have hinside : ∀ step ∈ NodeTree.forestStepsBelow schema
      (Tracker.empty.enter schema definition.node) (definition.trees number),
      step.event.node.isDefinition = false := by
    intro step hstep
    obtain ⟨-, -, -, hnode, -⟩ :=
      (Definition.trees_not_isDefinition number definition).of_mem_steps _ hstep
    exact hnode
  obtain ⟨hnumbers, hcount⟩ := document.numbers_inside number hinside
  rw [Definition.steps_eq, Definition.tree_eq]
  simp only [NodeTree.stepsBelow, Numbers, numbers_append, List.countP_cons, List.countP_append,
    hcount]
  cases definition with
  | operation o =>
      refine ⟨⟨fun _ hevent => (by cases hevent), hnumbers, ?_, trivial⟩, rfl⟩
      intro operation hevent
      cases hevent
      exact h
  | fragment f =>
      exact ⟨⟨fun _ hevent => (by cases hevent), hnumbers, fun _ hevent => (by cases hevent),
        trivial⟩, rfl⟩

/-- Along the walk of a document the definitions are left in order of their numbers. -/
theorem numbers_steps (schema : Schema) (document : Document) :
    document.Numbers 0 (document.tree.steps schema) := by
  have hdefinitions : ∀ (definitions : List Definition) (number : Nat),
      (∀ index, definitions[index]? = document.definitions[number + index]?) →
      ∀ last : Step, last.event = .leave .document →
      document.Numbers number (((definitions.zipIdx number).flatMap fun numbered =>
        (Definition.tree numbered.2 numbered.1).steps schema) ++ [last]) := by
    intro definitions
    induction definitions with
    | nil =>
        intro number _ last hlast
        refine ⟨fun operation hevent => ?_, trivial⟩
        cases hlast.symm.trans hevent
    | cons definition rest ih =>
        intro number hnumber last hlast
        have hdefinition : document.definitions[number]? = some definition := (hnumber 0).symm
        obtain ⟨hfirst, hcount⟩ := document.numbers_definition schema hdefinition
        rw [List.zipIdx_cons, List.flatMap_cons, List.append_assoc, numbers_append, hcount]
        refine ⟨hfirst, ih (number + 1) (fun index => ?_) last hlast⟩
        rw [Nat.add_right_comm]
        exact hnumber (index + 1)
  rw [Document.steps_eq]
  refine ⟨fun operation hevent => (by cases hevent), ?_⟩
  exact hdefinitions document.definitions 0 (fun index => by rw [Nat.zero_add]) _ rfl

end Document

/-! ## Checkers side by side -/

namespace Shared

@[simp] theorem past_memory (shared : Shared) (event : Event) :
    (shared.past event).memory = shared.memory := by
  unfold past
  split <;> rfl

@[simp] theorem past_measures (shared : Shared) (event : Event) :
    (shared.past event).measures = shared.measures := by
  unfold past
  split <;> rfl

@[simp] theorem past_left (shared : Shared) (event : Event) :
    (shared.past event).left =
      if event.leavesDefinition then shared.left + 1 else shared.left := by
  unfold past
  split <;> rfl

end Shared

namespace Running

/-- A checker past an event, with its questions answered afresh. -/
def next (scene : Scene) (event : Event) (one : Running) : Running :=
  ⟨one.checker, (one.checker.step scene one.state event).1⟩

def taken (scene : Scene) (event : Event) (one : Running) : NameTable Nat :=
  one.checker.measures (one.checker.step scene one.state event).1 event

theorem step_eq (scene : Scene) (event : Event) (shared : Shared) {one : Running}
    (hasks : one.checker.AsksInPlace) (hsound : shared.memory.Sound scene.schema scene.document)
    (hevent : ∀ operation, event = .leave (.operation operation) →
      scene.document.definitions[shared.left]? = some (.operation operation)) :
    ∃ memory : Memory, memory.Sound scene.schema scene.document ∧
      one.step scene event shared =
        (⟨memory, shared.left, shared.measures.merge (one.taken scene event)⟩,
          one.next scene event, (one.checker.step scene one.state event).2) := by
  obtain ⟨hanswer, hafter⟩ := (hasks scene one.state event shared.left hevent).settle hsound
  refine ⟨_, hafter, ?_⟩
  have hstep : one.checker.step scene one.state event =
      ((one.checker.act scene one.state event).settle scene.schema scene.document shared.left
        shared.memory).2 := hanswer.symm
  simp only [step, taken, next, hstep]

/-- Checkers side by side change nothing for each other. -/
theorem stepAll_eq (scene : Scene) (event : Event) (shared : Shared) {running : List Running}
    (hasks : ∀ one ∈ running, one.checker.AsksInPlace)
    (hsound : shared.memory.Sound scene.schema scene.document)
    (hevent : ∀ operation, event = .leave (.operation operation) →
      scene.document.definitions[shared.left]? = some (.operation operation)) :
    ∃ memory : Memory, memory.Sound scene.schema scene.document ∧
      stepAll scene event shared running =
        (⟨memory, shared.left, running.foldl
            (fun table one => NameTable.merge table (one.taken scene event)) shared.measures⟩,
          running.map (next scene event),
          running.flatMap fun one => (one.checker.step scene one.state event).2) := by
  induction running generalizing shared with
  | nil => exact ⟨shared.memory, hsound, rfl⟩
  | cons one rest ih =>
      obtain ⟨memory, hmemory, hone⟩ :=
        step_eq scene event shared (hasks one List.mem_cons_self) hsound hevent
      obtain ⟨last, hlast, hrest⟩ :=
        ih ⟨memory, shared.left, shared.measures.merge (one.taken scene event)⟩
          (fun other hother => hasks other (List.mem_cons_of_mem _ hother)) hmemory hevent
      refine ⟨last, hlast, ?_⟩
      simp only [stepAll, hone, hrest, List.foldl_cons, List.map_cons, List.flatMap_cons]

/-- What checkers report together at each of some steps, with their questions answered afresh. -/
def reportsEach (schema : Schema) (document : Document) (supplied : Variables) :
    List Running → List Step → List (List Diagnostic)
  | _, [] => []
  | running, step :: rest =>
      let scene : Scene := ⟨schema, document, supplied, step.types⟩
      (running.flatMap fun one => (one.checker.step scene one.state step.event).2) ::
        reportsEach schema document supplied (running.map (next scene step.event)) rest

def measured (schema : Schema) (document : Document) (supplied : Variables) :
    NameTable Nat → List Running → List Step → NameTable Nat
  | table, _, [] => table
  | table, running, step :: rest =>
      let scene : Scene := ⟨schema, document, supplied, step.types⟩
      measured schema document supplied
        (running.foldl (fun table one => table.merge (one.taken scene step.event)) table)
        (running.map (next scene step.event)) rest

/-- What is shared makes no difference along a walk. -/
theorem follow_eq (schema : Schema) (document : Document) (supplied : Variables)
    {running : List Running} (hasks : ∀ one ∈ running, one.checker.AsksInPlace) (shared : Shared)
    (hsound : shared.memory.Sound schema document) {steps : List Step}
    (hnumbers : document.Numbers shared.left steps) :
    (follow schema document supplied shared running steps).2 =
        reportsEach schema document supplied running steps ∧
      (follow schema document supplied shared running steps).1.measures =
        measured schema document supplied shared.measures running steps := by
  induction steps generalizing shared running with
  | nil => exact ⟨rfl, rfl⟩
  | cons step rest ih =>
      obtain ⟨hhere, hlater⟩ := hnumbers
      obtain ⟨memory, hmemory, hstep⟩ :=
        stepAll_eq ⟨schema, document, supplied, step.types⟩ step.event shared hasks hsound hhere
      simp only [follow, hstep, reportsEach, measured]
      generalize hscene : Scene.mk schema document supplied step.types = scene
      have hafter : ∀ one ∈ running.map (next scene step.event), one.checker.AsksInPlace := by
        intro one hone
        obtain ⟨before, hbefore, rfl⟩ := List.mem_map.mp hone
        exact hasks before hbefore
      obtain ⟨hreports, hmeasures⟩ := ih hafter (Shared.past ⟨memory, shared.left, _⟩ step.event)
        (by simpa using hmemory) (by simpa using hlater)
      rw [Shared.past_measures] at hmeasures
      exact ⟨congrArg _ hreports, hmeasures⟩

/-- Side by side, checkers report at each step what each of them reports there alone. -/
theorem reportsEach_eq (schema : Schema) (document : Document) (supplied : Variables)
    (running : List Running) (steps : List Step) :
    reportsEach schema document supplied running steps =
      (List.range steps.length).map fun index =>
        running.flatMap fun one =>
          (one.checker.reportsEach schema document supplied one.state steps).getD index [] := by
  induction steps generalizing running with
  | nil => rfl
  | cons step rest ih =>
      rw [List.length_cons, List.range_succ_eq_map, List.map_cons, List.map_map, reportsEach, ih]
      simp only [List.flatMap_map]
      rfl

end Running

namespace Checker

theorem length_reportsEach (checker : Checker) (schema : Schema) (document : Document)
    (supplied : Variables) (state : checker.State) (steps : List Step) :
    (checker.reportsEach schema document supplied state steps).length = steps.length := by
  induction steps generalizing state with
  | nil => rfl
  | cons step rest ih => simp [reportsEach, ih]

theorem asksInPlace_gauge (State : Type) (start : State) (step : Scene → State → Event → State)
    (measures : State → Event → NameTable Nat) : (gauge State start step measures).AsksInPlace :=
  fun _ _ _ _ _ => trivial

theorem reportsEach_gauge (State : Type) (start : State) (step : Scene → State → Event → State)
    (measures : State → Event → NameTable Nat) (schema : Schema) (document : Document)
    (supplied : Variables) (state : State) (steps : List Step) :
    (gauge State start step measures).reportsEach schema document supplied state steps =
      List.replicate steps.length [] := by
  induction steps generalizing state with
  | nil => rfl
  | cons step rest ih => exact congrArg ([] :: ·) (ih _)

theorem reportsEach_gauge_getD (State : Type) (start : State)
    (step : Scene → State → Event → State) (measures : State → Event → NameTable Nat)
    (schema : Schema) (document : Document) (supplied : Variables) (state : State)
    (steps : List Step) (index : Nat) :
    ((gauge State start step measures).reportsEach schema document supplied state steps).getD
      index [] = [] := by
  rw [reportsEach_gauge, List.getD_eq_getElem?_getD, List.getElem?_replicate]
  split <;> rfl

end Checker

namespace Document

def reportsEachOf (schema : Schema) (rule : Rule) (document : Document) (supplied : Variables) :
    List (List Diagnostic) :=
  rule.checker.reportsEach schema document supplied rule.checker.start (document.tree.steps schema)

def reportsOf (schema : Schema) (rule : Rule) (document : Document) (supplied : Variables) :
    List Diagnostic :=
  rule.checker.reports schema document supplied rule.checker.start (document.tree.steps schema)

theorem length_reportsEachOf (schema : Schema) (rule : Rule) (document : Document)
    (supplied : Variables) :
    (document.reportsEachOf schema rule supplied).length = (document.tree.steps schema).length :=
  Checker.length_reportsEach _ _ _ _ _ _

def starters (rules : List Rule) : List Running :=
  (rules.map Rule.checker ++ [Checker.depthGauge, Checker.aliasGauge]).map Checker.running

theorem asksInPlace_starters (rules : List Rule) :
    ∀ one ∈ starters rules, one.checker.AsksInPlace := by
  intro one hone
  simp only [starters, List.map_append, List.map_map, List.mem_append, List.mem_map, List.map_cons,
    List.map_nil, List.mem_cons, List.not_mem_nil, or_false] at hone
  rcases hone with ⟨rule, -, rfl⟩ | rfl | rfl
  · exact rule.asksInPlace
  · exact Checker.asksInPlace_gauge _ _ _ _
  · exact Checker.asksInPlace_gauge _ _ _ _

/-- The pass of an audit as if its checkers shared nothing. -/
theorem pass_eq (schema : Schema) (rules : List Rule) (document : Document)
    (supplied : Variables) :
    (document.pass schema rules supplied).2 =
        Running.reportsEach schema document supplied (starters rules)
          (document.tree.steps schema) ∧
      (document.pass schema rules supplied).1.measures =
        Running.measured schema document supplied [] (starters rules)
          (document.tree.steps schema) :=
  Running.follow_eq schema document supplied (asksInPlace_starters rules) Shared.empty
    Memory.empty_sound (document.numbers_steps schema)

/-- At each event an audit reports what each of its rules reports there, in their order. -/
theorem reports_pass (schema : Schema) (rules : List Rule) (document : Document)
    (supplied : Variables) :
    (document.pass schema rules supplied).2 =
      (List.range (document.tree.steps schema).length).map fun index =>
        rules.flatMap fun rule => (document.reportsEachOf schema rule supplied).getD index [] := by
  rw [(document.pass_eq schema rules supplied).1, Running.reportsEach_eq]
  apply List.map_congr_left
  intro index _
  have hdepth : (Checker.depthGauge.reportsEach schema document supplied
      Checker.depthGauge.running.state (document.tree.steps schema)).getD index [] = [] :=
    Checker.reportsEach_gauge_getD _ _ _ _ schema document supplied _ _ index
  have haliases : (Checker.aliasGauge.reportsEach schema document supplied
      Checker.aliasGauge.running.state (document.tree.steps schema)).getD index [] = [] :=
    Checker.reportsEach_gauge_getD _ _ _ _ schema document supplied _ _ index
  simp only [starters, List.map_append, List.map_map, List.map_cons, List.map_nil,
    List.flatMap_append, List.flatMap_map, List.flatMap_cons, List.flatMap_nil, List.append_nil]
  exact (congrArg _ (List.append_eq_nil_iff.mpr ⟨hdepth, haliases⟩)).trans (List.append_nil _)

/-- A rule alone reports at each event what it reports beside others. -/
theorem reports_pass_singleton (schema : Schema) (rule : Rule) (document : Document)
    (supplied : Variables) :
    (document.pass schema [rule] supplied).2 = document.reportsEachOf schema rule supplied := by
  rw [reports_pass, ← length_reportsEachOf schema rule document supplied]
  apply List.ext_getElem?
  intro index
  by_cases hindex : index < (document.reportsEachOf schema rule supplied).length
  · simp [hindex]
  · simp [hindex]

theorem diagnostics_singleton (schema : Schema) (rule : Rule) (document : Document)
    (supplied : Variables) :
    document.diagnostics schema [rule] supplied = document.reportsOf schema rule supplied := by
  rw [diagnostics, reports_pass_singleton]
  exact Checker.flatten_reportsEach _ _ _ _ _ _

/-- Together rules report what they report one after the other, in another order. -/
theorem diagnostics_perm (schema : Schema) (rules : List Rule) (document : Document)
    (supplied : Variables) :
    (document.diagnostics schema rules supplied).Perm
      (rules.flatMap fun rule => document.reportsOf schema rule supplied) := by
  induction rules with
  | nil => simp [diagnostics, reports_pass]
  | cons rule rest ih =>
      have halone := diagnostics_singleton schema rule document supplied
      simp only [diagnostics, reports_pass, ← List.flatMap_def, List.flatMap_cons,
        List.flatMap_nil, List.append_nil] at halone ih ⊢
      rw [← halone]
      exact (List.flatMap_append_perm _ _ _).symm.trans (ih.append_left _)

theorem mem_diagnostics_iff (schema : Schema) (rules : List Rule) (document : Document)
    (supplied : Variables) (diagnostic : Diagnostic) :
    diagnostic ∈ document.diagnostics schema rules supplied ↔
      ∃ rule ∈ rules, diagnostic ∈ document.reportsOf schema rule supplied :=
  (document.diagnostics_perm schema rules supplied).mem_iff.trans List.mem_flatMap

/-- Nothing is reported exactly if each rule alone reports nothing. -/
theorem diagnostics_eq_nil_iff (schema : Schema) (rules : List Rule) (document : Document)
    (supplied : Variables) :
    document.diagnostics schema rules supplied = [] ↔
      ∀ rule ∈ rules, document.reportsOf schema rule supplied = [] := by
  simp only [List.eq_nil_iff_forall_not_mem, mem_diagnostics_iff]
  constructor
  · exact fun h rule hrule diagnostic hmem => h diagnostic ⟨rule, hrule, hmem⟩
  · rintro h diagnostic ⟨rule, hrule, hmem⟩
    exact h rule hrule diagnostic hmem

end Document

/-- At a step, every rule without state reports nothing. -/
def Step.Quiet (schema : Schema) (document : Document) (supplied : Variables) (step : Step) :
    Prop :=
  ∀ rule : Rule, (∃ inquiry, rule.checker = Checker.asking inquiry) →
    ∀ state, (rule.checker.step ⟨schema, document, supplied, step.types⟩ state step.event).2 = []

theorem Step.Quiet.answer_eq_nil {schema : Schema} {document : Document} {supplied : Variables}
    {step : Step} (h : step.Quiet schema document supplied) (rule : Rule)
    {inquiry : Scene → Event → Inquiry (List Diagnostic)}
    (hrule : rule.checker = Checker.asking inquiry) :
    (inquiry ⟨schema, document, supplied, step.types⟩ step.event).answer schema document = [] := by
  have hstep := h rule ⟨inquiry, hrule⟩
  rw [hrule] at hstep
  exact (congrArg Prod.snd (Inquiry.answer_map schema document _ _)).symm.trans (hstep ())

theorem Step.Quiet.report_eq_nil {schema : Schema} {document : Document} {supplied : Variables}
    {step : Step} (h : step.Quiet schema document supplied) (rule : Rule)
    {report : Scene → Event → List Diagnostic} (hrule : rule.checker = Checker.stateless report) :
    report ⟨schema, document, supplied, step.types⟩ step.event = [] :=
  h.answer_eq_nil rule hrule

/-- Every step of the walk of an accepted document is quiet. -/
theorem Document.quiet_of_diagnostics_eq_nil {schema : Schema} {document : Document}
    {supplied : Variables} (h : document.diagnostics schema Rule.all supplied = []) :
    ∀ step ∈ document.tree.steps schema, step.Quiet schema document supplied := by
  intro step hstep rule hasking
  have hrule := (Document.diagnostics_eq_nil_iff schema Rule.all document supplied).mp h rule
    (Rule.mem_all rule)
  exact Checker.silent_of_reports_eq_nil hasking hrule step hstep

end QueryAudit
