import QueryAudit.Proofs.Codes
import QueryAudit.Proofs.Tables
import QueryAudit.Proofs.Tracking

/-!
# Which definition governs an argument

An argument is written in a directive or a field, and the definition of that one governs it. The
tracker, the rule on names and the rule on repeated names each find it in their own way, by what
they have noted on the way down. They agree because of the order of a walk: the arguments of a field
come before its directives and its selections, and below a directive there are only arguments and
their values.
-/

namespace QueryAudit

namespace Node

def arguments : Node → List Argument
  | .field chosen _ => chosen.arguments
  | .directive chosen => chosen.arguments
  | _ => []

/-- The arguments that the definition of a node declares, if it has a known definition: a directive
of the schema, or a field of the type that fields are selected on there. -/
def declared? (schema : Schema) (types : Tracker) : Node → Option (NameTable InputValue)
  | .field chosen _ =>
      (types.parent?.bind fun parent => Schema.fieldOn? parent chosen.name).map
        FieldDefinition.arguments
  | .directive chosen => (schema.directive? chosen.name).map DirectiveDefinition.arguments
  | _ => none

end Node

namespace Piece

/-- The arguments of a piece are its first parts. -/
theorem parts_eq (piece : Piece) :
    ∃ others, piece.parts = piece.node.arguments.map .argument ++ others ∧
      ∀ argument, .argument argument ∉ others := by
  cases piece with
  | field address chosen inner =>
      refine ⟨chosen.directives.map .directive ++ [.selectionSet address inner], ?_, by simp⟩
      simp [parts, node, Node.arguments]
  | directive chosen => exact ⟨[], by simp [parts, node, Node.arguments], by simp⟩
  | document it =>
      refine ⟨_, rfl, fun argument hmem => ?_⟩
      obtain ⟨numbered, -, heq⟩ := List.mem_map.mp hmem
      obtain ⟨definition, number⟩ := numbered
      cases definition <;> cases heq
  | selection address chosen =>
      refine ⟨_, rfl, fun argument hmem => ?_⟩
      have heq := List.mem_singleton.mp hmem
      cases chosen <;> cases heq
  | value position literal =>
      refine ⟨_, rfl, fun argument hmem => ?_⟩
      cases literal <;> simp at hmem
  | operation | fragment | variableDefinition | argument | selectionSet | spread | inline | listItem
  | objectField | variableUse => exact ⟨_, rfl, by simp⟩

theorem getElem?_arguments {owner : Piece} {number : Nat} {argument : Argument} :
    owner.node.arguments[number]? = some argument ↔
      owner.parts[number]? = some (.argument argument) := by
  obtain ⟨others, hparts, hothers⟩ := owner.parts_eq
  rw [hparts]
  by_cases hnumber : number < owner.node.arguments.length
  · rw [List.getElem?_append_left (by simpa using hnumber), List.getElem?_map]
    simp [hnumber]
  · rw [List.getElem?_append_right (by simpa using hnumber)]
    rw [List.getElem?_eq_none (by omega)]
    constructor
    · intro h
      cases h
    · intro h
      exact absurd (List.mem_of_getElem? h) (hothers argument)

theorem at?_concat {root owner part : Piece} {way : Way} {number : Nat}
    (hat : root.at? way = some owner) (hpart : owner.parts[number]? = some part) :
    root.at? (way ++ [number]) = some part := by
  induction way generalizing root with
  | nil =>
      cases hat
      simp [at?, hpart]
  | cons first rest ih =>
      obtain ⟨next, hnext, hrest⟩ := Option.bind_eq_some_iff.mp hat
      rw [List.cons_append, at?, hnext, Option.bind_some]
      exact ih hrest

/-- The parts of a value are values. -/
theorem isValue_of_mem_parts {owner part : Piece} (howner : owner.node.isValue = true)
    (hpart : part ∈ owner.parts) : part.node.isValue = true := by
  cases owner with
  | value position literal =>
      cases literal with
      | var name =>
          obtain rfl := List.mem_singleton.mp hpart
          rfl
      | list items =>
          obtain ⟨item, -, rfl⟩ := List.mem_map.mp hpart
          rfl
      | object fields =>
          obtain ⟨field, -, rfl⟩ := List.mem_map.mp hpart
          rfl
      | null | number | string | boolean | enum => cases hpart
  | listItem | objectField =>
      obtain rfl := List.mem_singleton.mp hpart
      rfl
  | variableUse => cases hpart
  | document | operation | fragment | variableDefinition | directive | argument | selectionSet
  | selection | field | spread | inline => cases howner

/-- Below directives, arguments and values there is nothing else. -/
theorem isPart_of_mem_parts {owner part : Piece} (howner : owner.node.isPart = true)
    (hpart : part ∈ owner.parts) : part.node.isPart = true := by
  cases owner with
  | directive chosen =>
      obtain ⟨argument, -, rfl⟩ := List.mem_map.mp hpart
      rfl
  | argument given =>
      obtain rfl := List.mem_singleton.mp hpart
      rfl
  | value | listItem | objectField | variableUse =>
      exact Node.isPart_of_isValue (isValue_of_mem_parts rfl hpart)
  | document | operation | fragment | variableDefinition | selectionSet | selection | field | spread
  | inline => cases howner

end Piece

/-! ## What is tracked at an owner -/

/-- What is tracked at a node is what an argument of it has to find: inside a directive its
definition, and inside a field no directive and the definition of the field. -/
def Tracker.Governs (schema : Schema) (types : Tracker) : Node → Prop
  | .directive chosen => types.directive = some (schema.directive? chosen.name)
  | .field chosen _ => types.directive = none ∧
      types.field? = types.parent?.bind fun parent => Schema.fieldOn? parent chosen.name
  | _ => True

namespace Tracker

theorem Governs.declaredArguments? {schema : Schema} {types : Tracker} {node : Node}
    (h : types.Governs schema node) (hnode : node.arguments ≠ []) :
    types.declaredArguments? = node.declared? schema types := by
  unfold Tracker.declaredArguments?
  cases node with
  | directive chosen =>
      rw [show types.directive = _ from h]
      rfl
  | field chosen inner =>
      obtain ⟨hdirective, hfield⟩ := h
      rw [hdirective, hfield]
      rfl
  | _ => exact absurd rfl hnode

theorem enter_directive_slot (schema : Schema) (tracker : Tracker) {node : Node}
    (h : ∀ chosen, node ≠ .directive chosen) :
    (tracker.enter schema node).directive = tracker.directive := by
  cases node with
  | directive chosen => exact absurd rfl (h chosen)
  | _ => rfl

/-- A node that is entered outside of directives is governed by its own definition. -/
theorem governs_enter (schema : Schema) (tracker : Tracker) (node : Node)
    (h : node.isPart = false → tracker.directive = none) :
    (tracker.enter schema node).Governs schema node := by
  cases node with
  | directive chosen => rfl
  | field chosen inner => exact ⟨h rfl, rfl⟩
  | _ => trivial

end Tracker

/-! ## Checkers along a walk -/

namespace Checker

/-- Along a walk, a fact holds of each state of a checker and the entry that it takes there. -/
def Along (checker : Checker) (schema : Schema) (document : Document) (supplied : Variables)
    (fact : checker.State → Way × Step → Prop) : checker.State → List (Way × Step) → Prop
  | _, [] => True
  | state, entry :: rest =>
      fact state entry ∧ checker.Along schema document supplied fact
        (checker.step ⟨schema, document, supplied, entry.2.types⟩ state entry.2.event).1 rest

variable {checker : Checker} {schema : Schema} {document : Document} {supplied : Variables}
  {fact : checker.State → Way × Step → Prop}

theorem along_append {state : checker.State} {first second : List (Way × Step)} :
    checker.Along schema document supplied fact state (first ++ second) ↔
      checker.Along schema document supplied fact state first ∧
        checker.Along schema document supplied fact
          (checker.stateAfter schema document supplied state (first.map Prod.snd)) second := by
  induction first generalizing state with
  | nil => simp [Along, stateAfter]
  | cons entry rest ih => simp only [List.cons_append, Along, List.map_cons, stateAfter, ih, and_assoc]

/-- At the entry of a number, the checker reports from a state of which the fact holds. -/
theorem Along.reportsEach {state : checker.State} {walk : List (Way × Step)}
    (h : checker.Along schema document supplied fact state walk) {index : Nat}
    {entry : Way × Step} (hentry : walk[index]? = some entry) :
    ∃ before, fact before entry ∧
      (checker.reportsEach schema document supplied state (walk.map Prod.snd))[index]? =
        some (checker.step ⟨schema, document, supplied, entry.2.types⟩ before entry.2.event).2 := by
  induction walk generalizing state index with
  | nil => simp at hentry
  | cons first rest ih =>
      obtain ⟨hfirst, hrest⟩ := h
      cases index with
      | zero =>
          cases hentry
          exact ⟨state, hfirst, rfl⟩
      | succ index => exact ih hrest hentry

/-- What a checker has noted at the argument of a number, while it goes through the arguments of a
node. It notes something as the node is entered and at each argument; values change nothing. -/
structure Notes (checker : Checker) (schema : Schema) (document : Document)
    (supplied : Variables) (noted : Tracker → Node → Nat → checker.State → Prop) : Prop where
  opens : ∀ types node state, node.arguments ≠ [] → types.Governs schema node →
    noted types node 0 (checker.step ⟨schema, document, supplied, types⟩ state (.enter node)).1
  gives : ∀ types inner node number argument state, noted types node number state →
    node.arguments[number]? = some argument →
    noted types node (number + 1)
      (checker.step ⟨schema, document, supplied, inner⟩ state (.enter (.argument argument))).1
  leaves : ∀ types argument state,
    (checker.step ⟨schema, document, supplied, types⟩ state (.leave (.argument argument))).1 = state
  values : ∀ types event state, event.node.isValue = true →
    (checker.step ⟨schema, document, supplied, types⟩ state event).1 = state

variable {noted : Tracker → Node → Nat → checker.State → Prop}

theorem Notes.stateAfter_values (h : checker.Notes schema document supplied noted)
    {around : List Node} {way : Way} {number : Nat} {pieces : List Piece}
    {walk : List (Way × Step)} (hwalk : Walks schema around way number pieces walk)
    (hpieces : ∀ piece ∈ pieces, piece.node.isValue = true) (state : checker.State) :
    checker.stateAfter schema document supplied state (walk.map Prod.snd) = state := by
  induction hwalk generalizing state with
  | done => rfl
  | @next around way number piece rest inside others _ _ ihinside ihothers =>
      have hpiece := hpieces piece List.mem_cons_self
      have hinside := ihinside fun part hpart => Piece.isValue_of_mem_parts hpiece hpart
      have hothers := ihothers fun part hpart => hpieces part (List.mem_cons_of_mem _ hpart)
      simp only [List.map_cons, List.map_append, stateAfter, stateAfter_append,
        h.values _ (.enter piece.node) _ hpiece, hinside, h.values _ (.leave piece.node) _ hpiece,
        hothers]

/-- An entry of an argument, in a walk through a document, with what a checker has noted there: the
argument has a number among those of its owner, at which the walk has been. -/
def NotedAt (schema : Schema) (document : Document) (whole : List (Way × Step))
    (noted : Tracker → Node → Nat → checker.State → Prop) (state : checker.State)
    (entry : Way × Step) : Prop :=
  ∀ argument, entry.2.event = .enter (.argument argument) →
    ∃ above number owner types, entry.1 = above ++ [number] ∧
      (Piece.document document).at? above = some owner ∧
      owner.node.arguments[number]? = some argument ∧
      (above, ⟨.enter owner.node, types⟩) ∈ whole ∧ types.Governs schema owner.node ∧
      entry.2.types = types.enter schema (.argument argument) ∧ noted types owner.node number state

theorem notedAt_of_ne {whole : List (Way × Step)} {state : checker.State} {entry : Way × Step}
    (h : ∀ argument, entry.2.event ≠ .enter (.argument argument)) :
    NotedAt schema document whole noted state entry :=
  fun argument hevent => absurd hevent (h argument)

/-- The induction follows the walk. What is noted for the next argument of the owner is carried
along; at any piece that has arguments of its own it is noted anew. -/
theorem Notes.along (h : checker.Notes schema document supplied noted)
    {whole : List (Way × Step)} {around : List Node} {way : Way} {number : Nat}
    {pieces : List Piece} {walk : List (Way × Step)}
    (hwalk : Walks schema around way number pieces walk) (hwhole : ∀ entry ∈ walk, entry ∈ whole)
    {owner : Piece} (hat : (Piece.document document).at? way = some owner)
    (hpieces : owner.parts.drop number = pieces)
    (hentered : (way, ⟨.enter owner.node, tracked schema around⟩) ∈ whole)
    (hgoverns : (tracked schema around).Governs schema owner.node)
    (houtside : owner.node.isPart = false → (tracked schema around).directive = none)
    {state : checker.State}
    (hstate : number < owner.node.arguments.length →
      noted (tracked schema around) owner.node number state) :
    checker.Along schema document supplied (NotedAt schema document whole noted) state walk := by
  induction hwalk generalizing owner state with
  | done => trivial
  | @next around way number piece rest inside others hinside hothers ihinside ihothers =>
      obtain ⟨hpart, hrest⟩ := item_of_drop hpieces
      have hatPiece := Piece.at?_concat hat hpart
      have houtsidePiece : piece.node.isPart = false → (tracked schema around).directive = none := by
        intro hpiece
        apply houtside
        rw [← Bool.not_eq_true]
        intro howner
        rw [Piece.isPart_of_mem_parts howner (List.mem_of_getElem? hpart)] at hpiece
        cases hpiece
      have hgovernsPiece : (tracked schema (around ++ [piece.node])).Governs schema piece.node := by
        rw [tracked_concat]
        exact Tracker.governs_enter schema _ piece.node houtsidePiece
      have houtsideInner : piece.node.isPart = false →
          (tracked schema (around ++ [piece.node])).directive = none := by
        intro hpiece
        rw [tracked_concat, Tracker.enter_directive_slot, houtsidePiece hpiece]
        intro chosen heq
        rw [heq] at hpiece
        cases hpiece
      refine ⟨?here, along_append.mpr ⟨?inside, notedAt_of_ne (by simp), ?others⟩⟩
      case here =>
        intro argument hevent
        have hargument : owner.node.arguments[number]? = some argument := by
          rw [Piece.getElem?_arguments, hpart]
          cases piece <;> cases hevent
          rfl
        refine ⟨way, number, owner, tracked schema around, rfl, hat, hargument, hentered, hgoverns,
          ?_, hstate (List.getElem?_eq_some_iff.mp hargument).1⟩
        show tracked schema (around ++ [piece.node]) = _
        rw [tracked_concat, Event.enter.inj hevent]
      case inside =>
        apply ihinside (fun entry hentry => hwhole entry (by simp [hentry])) hatPiece rfl
          (hwhole _ List.mem_cons_self) hgovernsPiece houtsideInner
        intro harguments
        exact h.opens _ _ _ (List.ne_nil_of_length_pos harguments) hgovernsPiece
      case others =>
        apply ihothers (fun entry hentry => hwhole entry (by simp [hentry])) hat hrest hentered
          hgoverns houtside
        intro hnumber
        obtain ⟨argument, hargument⟩ : ∃ argument, owner.node.arguments[number]? = some argument :=
          ⟨_, List.getElem?_eq_getElem (by omega)⟩
        have hpiece := Piece.getElem?_arguments.mp hargument
        rw [hpart] at hpiece
        cases hpiece
        have hvalues := h.stateAfter_values hinside (by simp [Piece.parts, Piece.node, Node.isValue])
        have hgiven := h.gives _ (tracked schema (around ++ [.argument argument])) owner.node number
          argument state (hstate (by omega)) hargument
        simp only [Piece.node, hvalues, h.leaves]
        exact hgiven

theorem Notes.along_document (h : checker.Notes schema document supplied noted)
    {walk : List (Way × Step)} (hwalk : document.IsWalk schema walk) :
    checker.Along schema document supplied (NotedAt schema document walk noted) checker.start
      walk := by
  obtain ⟨inside, hinside, rfl⟩ := hwalk
  refine ⟨notedAt_of_ne (by simp), along_append.mpr ⟨?_, notedAt_of_ne (by simp), trivial⟩⟩
  apply h.along hinside (fun entry hentry => by simp [hentry]) rfl rfl List.mem_cons_self trivial
    (fun _ => rfl)
  intro hnone
  cases hnone

/-! ## What the rules note -/

theorem arguments_ne_nil {node : Node} (h : node.arguments ≠ []) :
    (∃ chosen inner, node = .field chosen inner) ∨ ∃ chosen, node = .directive chosen := by
  cases node with
  | field chosen inner => exact .inl ⟨chosen, inner, rfl⟩
  | directive chosen => exact .inr ⟨chosen, rfl⟩
  | _ => exact absurd rfl h

theorem find?_note (places : FirstPlaces) (name : Name) (position : Position) (problem : Problem)
    (other : Name) :
    (places.note name position problem).1.find? other =
      (places.find? other).or (if name = other then some position else none) := by
  unfold FirstPlaces.note
  cases hfirst : places.find? name with
  | some first =>
      by_cases hname : name = other
      · subst hname
        simp [hfirst]
      · simp [hname]
  | none =>
      by_cases hname : name = other
      · subst hname
        simp [hfirst, NameTable.find?_insert]
      · simp [hname, NameTable.find?_insert]

/-- The places of the first arguments of each name, among those before a number. -/
def NotesPlaces (_ : Tracker) (node : Node) (number : Nat) (places : FirstPlaces) : Prop :=
  ∀ name, places.find? name =
    ((node.arguments.take number).find? (·.name = name)).map Argument.position

theorem uniqueArgumentNames_notes (schema : Schema) (document : Document)
    (supplied : Variables) :
    uniqueArgumentNames.Notes schema document supplied NotesPlaces where
  opens := by
    intro types node places hnode _ name
    rcases arguments_ne_nil hnode with ⟨chosen, inner, rfl⟩ | ⟨chosen, rfl⟩ <;> rfl
  gives := by
    intro types inner node number argument places hplaces hargument name
    have htake : node.arguments.take (number + 1) = node.arguments.take number ++ [argument] := by
      rw [List.take_add_one, hargument]
      rfl
    rw [htake, List.find?_append, Option.map_or, ← hplaces]
    refine (find?_note places argument.name argument.position _ name).trans ?_
    by_cases hname : argument.name = name <;> simp [hname]
  leaves := fun _ _ _ => rfl
  values := by
    intro types event places hvalue
    cases event with
    | enter node => cases node <;> first | rfl | cases hvalue
    | leave node => rfl

def ownerAt? (schema : Schema) (types : Tracker) :
    Node → Option (ArgumentOwner × NameTable InputValue)
  | .directive chosen => (schema.directive? chosen.name).map fun definition =>
      (.directive definition.name, definition.arguments)
  | .field _ _ => types.parent?.bind fun parent => types.field?.map fun definition =>
      (.field definition.name parent.name, definition.arguments)
  | _ => none

theorem argumentOwner?_of_governs {schema : Schema} {types : Tracker} {node : Node}
    (h : types.Governs schema node) (hnode : node.arguments ≠ []) :
    argumentOwner? types = ownerAt? schema types node := by
  unfold argumentOwner?
  rcases arguments_ne_nil hnode with ⟨chosen, inner, rfl⟩ | ⟨chosen, rfl⟩
  · rw [h.1]
    unfold ownerAt?
    cases types.parent? <;> cases types.field? <;> rfl
  · rw [show types.directive = _ from h]
    simp only [ownerAt?]
    cases schema.directive? chosen.name <;> rfl

def undeclared (owner : Option (ArgumentOwner × NameTable InputValue)) (argument : Argument) :
    List Diagnostic :=
  match owner with
  | some (owner, declared) =>
      if declared.has argument.name then []
      else
        let near := Suggestion.nearest argument.name declared.names
        [(Problem.unknownArgument argument.name owner near).at argument.position]
  | none => []

/-- The rule on the names of arguments, with their owner noted as it is entered and forgotten as it
is left. -/
def notedArgumentNames : Checker :=
  ofStep (Option (ArgumentOwner × NameTable InputValue)) none fun scene owner event =>
    match event with
    | .enter (.directive chosen) => (ownerAt? scene.schema scene.types (.directive chosen), [])
    | .enter (.field chosen inner) => (ownerAt? scene.schema scene.types (.field chosen inner), [])
    | .leave (.directive _) | .leave (.field _ _) => (none, [])
    | .enter (.argument argument) => (owner, undeclared owner argument)
    | _ => (owner, [])

theorem notedArgumentNames_notes (schema : Schema) (document : Document)
    (supplied : Variables) :
    notedArgumentNames.Notes schema document supplied
      fun types _ _ owner => owner = argumentOwner? types where
  opens := by
    intro types node owner hnode hgoverns
    rw [argumentOwner?_of_governs hgoverns hnode]
    rcases arguments_ne_nil hnode with ⟨chosen, inner, rfl⟩ | ⟨chosen, rfl⟩ <;> rfl
  gives := fun _ _ _ _ _ _ howner _ => howner
  leaves := fun _ _ _ => rfl
  values := by
    intro types event owner hvalue
    cases event with
    | enter node => cases node <;> first | rfl | cases hvalue
    | leave node => cases node <;> first | rfl | cases hvalue

theorem knownArgumentNames_eq :
    Rule.knownArgumentNames.checker = stateless fun scene event =>
      match event with
      | .enter (.argument argument) => undeclared (argumentOwner? scene.types) argument
      | _ => [] := rfl

/-- Noting the owner of arguments along the way comes to what is tracked. -/
theorem notedArgumentNames_reportsEach (schema : Schema) (document : Document)
    (supplied : Variables) :
    notedArgumentNames.reportsEach schema document supplied notedArgumentNames.start
        (document.tree.steps schema) =
      document.reportsEachOf schema .knownArgumentNames supplied := by
  obtain ⟨walk, hwalk, hsteps⟩ := document.exists_isWalk schema
  have halong := (notedArgumentNames_notes schema document supplied).along_document hwalk
  rw [Document.reportsEachOf, knownArgumentNames_eq]
  refine Eq.trans ?_ (reportsEach_stateless _ schema document supplied _).symm
  apply List.ext_getElem?
  intro index
  rw [List.getElem?_map, ← hsteps, List.getElem?_map]
  cases hentry : walk[index]? with
  | none =>
      rw [Option.map_none, Option.map_none, List.getElem?_eq_none_iff, length_reportsEach,
        List.length_map]
      exact List.getElem?_eq_none_iff.mp hentry
  | some entry =>
      obtain ⟨owner, hnoted, hreports⟩ := halong.reportsEach hentry
      rw [hreports, Option.map_some, Option.map_some]
      obtain ⟨way, event, types⟩ := entry
      cases event with
      | leave node => cases node <;> rfl
      | enter node =>
          cases node with
          | argument argument =>
              obtain ⟨_, _, _, ownerTypes, -, -, -, -, -, htypes, rfl⟩ := hnoted argument rfl
              rw [show types = _ from htypes]
              rfl
          | _ => rfl

end Checker

/-! ## Reports on arguments -/

namespace Document

/-- What an audit reports under some codes at the event of a number. -/
def reportsUnder (codes : List Code) (schema : Schema) (set : RuleSet) (document : Document)
    (supplied : Variables) (index : Nat) : List Diagnostic :=
  (document.reportsAt schema set supplied index).filter (·.problem.code ∈ codes)

def valueCodes : List Code := [.valueTypes, .inputFieldNames, .requiredInputFields]

theorem reportsUnder_code (schema : Schema) (set : RuleSet) (document : Document)
    (supplied : Variables) {rule : Rule} (hrule : rule.codes = [rule.code]) (index : Nat) :
    document.reportsUnder [rule.code] schema set supplied index =
      if rule ∈ set.rules then document.reportsAt schema (.only rule) supplied index else [] := by
  rw [← document.filter_reportsAt schema set supplied hrule index]
  simp only [reportsUnder, List.mem_singleton]

/-- Where no default of a variable is judged, only the rule on values of arguments reports under the
codes of values. -/
theorem reportsUnder_values {schema : Schema} (set : RuleSet) {document : Document}
    (supplied : Variables) {index : Nat} {step : Step}
    (hstep : (document.tree.steps schema)[index]? = some step)
    (hevent : ∀ definition, step.event ≠ .enter (.variableDefinition definition)) :
    document.reportsUnder valueCodes schema set supplied index =
      if .argumentsOfCorrectType ∈ set.rules then
        document.reportsAt schema (.only .argumentsOfCorrectType) supplied index else [] := by
  apply filter_reportsAt_of_rule
  · intro diagnostic hmem
    exact decide_eq_true (document.reportsAt_within schema _ supplied index diagnostic hmem)
  · intro other hother diagnostic hmem
    refine decide_eq_false fun hcode => ?_
    have hwithin := document.reportsAt_within schema other supplied index diagnostic hmem
    have hshared : ∀ rule ∈ Rule.all, ∀ code ∈ valueCodes,
        code ∈ rule.codes → rule = .argumentsOfCorrectType ∨ rule = .defaultValuesOfCorrectType := by
      decide
    rcases hshared other other.mem_all _ hcode hwithin with rfl | rfl
    · exact hother rfl
    · rw [reportsAt_stateless rfl, hstep] at hmem
      obtain ⟨event, types⟩ := step
      cases event with
      | leave node => cases hmem
      | enter node =>
          cases node with
          | variableDefinition definition => exact hevent definition rfl
          | _ => cases hmem

end Document

namespace Checker

/-- What the owner of arguments declares, however the owner is found. -/
theorem argumentOwner?_declared {schema : Schema} {types : Tracker} {node : Node}
    (h : types.Governs schema node) (hnode : node.arguments ≠ []) :
    (argumentOwner? types).map Prod.snd = node.declared? schema types := by
  rw [argumentOwner?_of_governs h hnode]
  rcases arguments_ne_nil hnode with ⟨chosen, inner, rfl⟩ | ⟨chosen, rfl⟩
  · obtain ⟨-, hfield⟩ := h
    simp only [ownerAt?, Node.declared?, ← hfield]
    cases hparent : types.parent? with
    | some parent => simp [Function.comp_def]
    | none => simp [hfield, hparent]
  · simp [ownerAt?, Node.declared?, Function.comp_def]

theorem undeclared_eq (owner : Option (ArgumentOwner × NameTable InputValue))
    (argument : Argument) :
    (owner.map Prod.snd = none ∧ undeclared owner argument = []) ∨
      (∃ declared taker near, owner.map Prod.snd = some declared ∧
        declared.find? argument.name = none ∧
        undeclared owner argument =
          [(Problem.unknownArgument argument.name taker near).at argument.position]) ∨
      ∃ declared input, owner.map Prod.snd = some declared ∧
        declared.find? argument.name = some input ∧ undeclared owner argument = [] := by
  cases owner with
  | none => exact .inl ⟨rfl, rfl⟩
  | some owner =>
      obtain ⟨taker, declared⟩ := owner
      cases hfind : declared.find? argument.name with
      | none =>
          refine .inr (.inl ⟨declared, taker, Suggestion.nearest argument.name declared.names, rfl,
            hfind, ?_⟩)
          simp [undeclared, NameTable.has, hfind]
      | some input =>
          refine .inr (.inr ⟨declared, input, rfl, hfind, ?_⟩)
          simp [undeclared, NameTable.has, hfind]

end Checker

/-- The report on the value of an argument at a type, if it has a fault there. -/
def Argument.faults (schema : Schema) (supplied : Variables) (argument : Argument)
    (type : TypeRef) : List Diagnostic :=
  ((argument.value.fault? schema supplied type [.field argument.name]).map fun fault =>
    (Problem.badArgument fault).at argument.valuePosition).toList

namespace Node

/-- A declared argument is not given, though null is excluded and there is no default. -/
def Lacks (node : Node) (input : InputValue) : Prop :=
  input.type.isNonNull = true ∧ input.default = none ∧
    ∀ argument ∈ node.arguments, argument.name ≠ input.name

def taker? : Node → Option (ArgumentTaker × Position)
  | .field chosen _ => some (.field chosen.name, chosen.position)
  | .directive chosen => some (.directive chosen.name, chosen.position)
  | _ => none

theorem missingArgument?_eq_some_iff {node : Node} {declared : NameTable InputValue}
    {input : InputValue} :
    Checker.missingArgument? declared node.arguments = some input ↔
      node.Lacks input ∧ ∃ before after, declared.entries = before ++ input :: after ∧
        ∀ earlier ∈ before, ¬ node.Lacks earlier := by
  have hlacks : ∀ input : InputValue,
      (input.isRequired && !node.arguments.any fun argument => argument.name = input.name) = true ↔
        node.Lacks input := by
    intro input
    simp [Lacks, InputValue.isRequired, and_assoc]
  unfold Checker.missingArgument?
  rw [List.find?_eq_some_iff_append, hlacks]
  have hnot : ∀ earlier : InputValue, (!(earlier.isRequired &&
      !node.arguments.any fun argument => argument.name = earlier.name)) = true ↔
        ¬ node.Lacks earlier := by
    intro earlier
    rw [← hlacks, Bool.not_eq_true', Bool.not_eq_true]
  simp only [hnot]

end Node

theorem required_reportsAt (schema : Schema) (document : Document) (supplied : Variables)
    (index : Nat) :
    document.reportsAt schema (.only .providedNonNullArguments) supplied index =
      ((document.tree.steps schema)[index]?.bind fun step =>
        if step.event.isEnter then
          step.event.node.taker?.bind fun taker =>
            (step.event.node.declared? schema step.types).bind fun declared =>
              (Checker.missingArgument? declared step.event.node.arguments).map fun input =>
                (Problem.missingArgument taker.1 input.name input.type).at taker.2
        else none).toList := by
  rw [Document.reportsAt_stateless rfl]
  cases hstep : (document.tree.steps schema)[index]? with
  | none => rfl
  | some step =>
      obtain ⟨outer, houter⟩ := Document.exists_around (List.mem_of_getElem? hstep)
      obtain ⟨event, types⟩ := step
      simp only [Option.map_some, Option.getD_some, Option.bind_some]
      cases event with
      | leave node => rfl
      | enter node =>
          cases node with
          | directive chosen =>
              simp only [Event.isEnter, if_true, Event.node, Node.taker?, Node.declared?,
                Option.bind_some]
              cases schema.directive? chosen.name with
              | none => rfl
              | some definition =>
                  simp only [Option.map_some, Option.bind_some, Node.arguments]
                  cases Checker.missingArgument? definition.arguments chosen.arguments <;> rfl
          | field chosen inner =>
              have hfield : types.field? = types.parent?.bind fun parent =>
                  Schema.fieldOn? parent chosen.name := by
                rw [show types = _ from houter]
                rfl
              simp only [Event.isEnter, if_true, Event.node, Node.taker?, Node.declared?,
                Option.bind_some, ← hfield]
              cases types.field? with
              | none => rfl
              | some definition =>
                  simp only [Option.map_some, Option.bind_some, Node.arguments]
                  cases Checker.missingArgument? definition.arguments chosen.arguments <;> rfl
          | _ => rfl

namespace Document

variable {schema : Schema} {document : Document} {step : Step} {index : Nat}

/-- What is reported on the name of an argument. -/
theorem reportsUnder_names (set : RuleSet) (supplied : Variables)
    (hstep : (document.tree.steps schema)[index]? = some step) :
    document.reportsUnder [.argumentNames] schema set supplied index =
      if .knownArgumentNames ∈ set.rules then
        match step.event with
        | .enter (.argument argument) =>
            Checker.undeclared (Checker.argumentOwner? step.types) argument
        | _ => []
      else [] := by
  rw [show [Code.argumentNames] = [Rule.knownArgumentNames.code] from rfl,
    document.reportsUnder_code schema set supplied rfl,
    reportsAt_stateless Checker.knownArgumentNames_eq, hstep]
  rfl

/-- What is reported on the value of an argument. -/
theorem reportsUnder_faults (set : RuleSet) (supplied : Variables)
    (hstep : (document.tree.steps schema)[index]? = some step)
    (hevent : ∀ definition, step.event ≠ .enter (.variableDefinition definition)) :
    document.reportsUnder valueCodes schema set supplied index =
      if .argumentsOfCorrectType ∈ set.rules then
        match step.event with
        | .enter (.argument argument) =>
            (step.types.argument.map fun input =>
              argument.faults schema supplied input.type).getD []
        | _ => []
      else [] := by
  rw [reportsUnder_values set supplied hstep hevent, reportsAt_stateless rfl, hstep]
  obtain ⟨event, types⟩ := step
  cases event with
  | leave node => rfl
  | enter node =>
      cases node with
      | argument argument =>
          simp only [Option.map_some, Option.getD_some, Argument.faults]
          cases types.argument with
          | none => rfl
          | some input =>
              simp only [Option.map_some, Option.getD_some]
              cases argument.value.fault? schema supplied input.type [.field argument.name] <;> rfl
      | _ => rfl

/-- What is reported on arguments that are lacking. -/
theorem required_arguments (schema : Schema) (document : Document) (supplied : Variables)
    (set : RuleSet) (index : Nat) :
    (document.reportsUnder [.requiredArguments] schema set supplied index).length ≤ 1 ∧
      ∀ diagnostic,
        diagnostic ∈ document.reportsUnder [.requiredArguments] schema set supplied index ↔
          .providedNonNullArguments ∈ set.rules ∧
          ∃ step node taker position declared before input after,
            (document.tree.steps schema)[index]? = some step ∧ step.event = .enter node ∧
            node.taker? = some (taker, position) ∧
            node.declared? schema step.types = some declared ∧
            declared.entries = before ++ input :: after ∧ node.Lacks input ∧
            (∀ earlier ∈ before, ¬ node.Lacks earlier) ∧
            diagnostic = ⟨.missingArgument taker input.name input.type, [position]⟩ := by
  rw [show [Code.requiredArguments] = [Rule.providedNonNullArguments.code] from rfl,
    document.reportsUnder_code schema set supplied rfl, required_reportsAt]
  by_cases hrule : Rule.providedNonNullArguments ∈ set.rules
  · simp only [hrule, if_true, true_and, Option.mem_toList]
    refine ⟨Option.length_toList_le, fun diagnostic => ?_⟩
    rw [Option.bind_eq_some_iff]
    constructor
    · rintro ⟨⟨event, types⟩, hstep, hfound⟩
      cases event with
      | leave node => cases hfound
      | enter node =>
          obtain ⟨⟨taker, position⟩, htaker, hfound⟩ := Option.bind_eq_some_iff.mp hfound
          obtain ⟨declared, hdeclared, hfound⟩ := Option.bind_eq_some_iff.mp hfound
          obtain ⟨input, hinput, rfl⟩ := Option.map_eq_some_iff.mp hfound
          obtain ⟨hlacks, before, after, hentries, hbefore⟩ :=
            Node.missingArgument?_eq_some_iff.mp hinput
          exact ⟨_, node, taker, position, declared, before, input, after, hstep, rfl, htaker,
            hdeclared, hentries, hlacks, hbefore, rfl⟩
    · rintro ⟨⟨event, types⟩, node, taker, position, declared, before, input, after, hstep, hevent,
        htaker, hdeclared, hentries, hlacks, hbefore, rfl⟩
      cases hevent
      have hinput := Node.missingArgument?_eq_some_iff.mpr
        ⟨hlacks, before, after, hentries, hbefore⟩
      refine ⟨_, hstep, ?_⟩
      simp only [Event.isEnter, if_true, Event.node] at hdeclared ⊢
      rw [htaker, Option.bind_some, hdeclared, Option.bind_some, hinput]
      rfl
  · simp [hrule]

end Document

/-- The rules on arguments agree on what governs an argument. Each argument of a document is one of
the arguments of a directive or a field, its owner, at which the walk has been. Under any set of
rules, either the definition of the owner is unknown, and neither the name nor the value is
reported; or it does not declare the name, which is reported once, and the value is not; or it
declares the name, and the value is judged at the declared type. A repeated name is reported with
the place of the first argument of that name of the same owner. No other event has such a report. At
the owner, and nowhere else, the first declared argument that is lacking is reported. The rule on
names may as well note the owner by itself. -/
theorem arguments_governed (schema : Schema) (document : Document) (supplied : Variables)
    (set : RuleSet) :
    ∃ walk, document.IsWalk schema walk ∧ walk.map Prod.snd = document.tree.steps schema ∧
      (∀ index way argument types,
        walk[index]? = some (way, ⟨.enter (.argument argument), types⟩) →
        ∃ above number owner ownerTypes, way = above ++ [number] ∧
          (Piece.document document).at? above = some owner ∧
          owner.node.arguments[number]? = some argument ∧
          (above, ⟨.enter owner.node, ownerTypes⟩) ∈ walk ∧
          ((owner.node.declared? schema ownerTypes = none ∧
              document.reportsUnder [.argumentNames] schema set supplied index = [] ∧
              document.reportsUnder Document.valueCodes schema set supplied index = []) ∨
            (∃ declared taker near, owner.node.declared? schema ownerTypes = some declared ∧
              declared.find? argument.name = none ∧
              document.reportsUnder [.argumentNames] schema set supplied index =
                (if .knownArgumentNames ∈ set.rules then
                  [(Problem.unknownArgument argument.name taker near).at argument.position]
                else []) ∧
              document.reportsUnder Document.valueCodes schema set supplied index = []) ∨
            ∃ declared input, owner.node.declared? schema ownerTypes = some declared ∧
              declared.find? argument.name = some input ∧
              document.reportsUnder [.argumentNames] schema set supplied index = [] ∧
              document.reportsUnder Document.valueCodes schema set supplied index =
                (if .argumentsOfCorrectType ∈ set.rules then
                  argument.faults schema supplied input.type
                else [])) ∧
          document.reportsUnder [.argumentUniqueness] schema set supplied index =
            (if .uniqueArgumentNames ∈ set.rules then
              (((owner.node.arguments.take number).find? (·.name = argument.name)).map
                fun first => ⟨.duplicateArgument argument.name,
                  [first.position, argument.position]⟩).toList
            else [])) ∧
      (∀ index way step, walk[index]? = some (way, step) →
        (∀ argument, step.event ≠ .enter (.argument argument)) →
        document.reportsUnder [.argumentNames] schema set supplied index = [] ∧
        document.reportsUnder [.argumentUniqueness] schema set supplied index = [] ∧
        ((∀ definition, step.event ≠ .enter (.variableDefinition definition)) →
          document.reportsUnder Document.valueCodes schema set supplied index = [])) ∧
      (∀ index, (document.reportsUnder [.requiredArguments] schema set supplied index).length ≤ 1 ∧
        ∀ diagnostic,
          diagnostic ∈ document.reportsUnder [.requiredArguments] schema set supplied index ↔
            .providedNonNullArguments ∈ set.rules ∧
            ∃ step node taker position declared before input after,
              (document.tree.steps schema)[index]? = some step ∧ step.event = .enter node ∧
              node.taker? = some (taker, position) ∧
              node.declared? schema step.types = some declared ∧
              declared.entries = before ++ input :: after ∧ node.Lacks input ∧
              (∀ earlier ∈ before, ¬ node.Lacks earlier) ∧
              diagnostic = ⟨.missingArgument taker input.name input.type, [position]⟩) ∧
      Checker.notedArgumentNames.reportsEach schema document supplied
          Checker.notedArgumentNames.start (document.tree.steps schema) =
        document.reportsEachOf schema .knownArgumentNames supplied := by
  obtain ⟨walk, hwalk, hsteps⟩ := document.exists_isWalk schema
  have halong :=
    (Checker.uniqueArgumentNames_notes schema document supplied).along_document hwalk
  have hstep : ∀ {index : Nat} {way step}, walk[index]? = some (way, step) →
      (document.tree.steps schema)[index]? = some step := by
    intro index way step hentry
    rw [← hsteps, List.getElem?_map, hentry]
    rfl
  have hunique : ∀ {index : Nat} {entry}, walk[index]? = some entry → ∃ places,
      Checker.NotedAt schema document walk Checker.NotesPlaces places entry ∧
        document.reportsUnder [.argumentUniqueness] schema set supplied index =
          if .uniqueArgumentNames ∈ set.rules then
            (Checker.uniqueArgumentNames.step ⟨schema, document, supplied, entry.2.types⟩ places
              entry.2.event).2
          else [] := by
    intro index entry hentry
    obtain ⟨places, hnoted, hreports⟩ := halong.reportsEach hentry
    refine ⟨places, hnoted, ?_⟩
    rw [hsteps] at hreports
    rw [show [Code.argumentUniqueness] = [Rule.uniqueArgumentNames.code] from rfl,
      document.reportsUnder_code schema set supplied rfl, Document.reportsAt_only,
      List.getD_eq_getElem?_getD]
    rw [show (document.reportsEachOf schema .uniqueArgumentNames supplied)[index]? = _ from hreports]
    rfl
  refine ⟨walk, hwalk, hsteps, ?_, ?_, document.required_arguments schema supplied set,
    Checker.notedArgumentNames_reportsEach schema document supplied⟩
  · intro index way argument types hentry
    obtain ⟨places, hnoted, hrepeated⟩ := hunique hentry
    obtain ⟨above, number, owner, ownerTypes, rfl, hat, hargument, hentered, hgoverns, htypes,
      hplaces⟩ := hnoted argument rfl
    refine ⟨above, number, owner, ownerTypes, rfl, hat, hargument, hentered, ?_, ?_⟩
    · have hnode : owner.node.arguments ≠ [] := List.ne_nil_of_mem (List.mem_of_getElem? hargument)
      have hnames := Document.reportsUnder_names set supplied (hstep hentry)
      have hvalues := Document.reportsUnder_faults set supplied (hstep hentry) (by simp)
      have howner : Checker.argumentOwner? types = Checker.argumentOwner? ownerTypes := by
        rw [show types = _ from htypes]
        rfl
      have hdeclared : types.argument =
          (owner.node.declared? schema ownerTypes).bind fun table => table.find? argument.name := by
        rw [show types = _ from htypes, ← hgoverns.declaredArguments? hnode]
        rfl
      rw [← Checker.argumentOwner?_declared hgoverns hnode] at hdeclared ⊢
      rw [hnames, hvalues]
      simp only [howner, hdeclared]
      rcases Checker.undeclared_eq (Checker.argumentOwner? ownerTypes) argument with
        ⟨hnone, hreport⟩ | ⟨declared, taker, near, hsome, hfind, hreport⟩ |
        ⟨declared, input, hsome, hfind, hreport⟩
      · refine .inl ⟨hnone, ?_, ?_⟩ <;> simp [hreport, hnone]
      · refine .inr (.inl ⟨declared, taker, near, hsome, hfind, ?_, ?_⟩) <;>
          simp [hreport, hsome, hfind]
      · refine .inr (.inr ⟨declared, input, hsome, hfind, ?_, ?_⟩) <;> simp [hreport, hsome, hfind]
    · rw [hrepeated]
      show (if _ then (places.note argument.name argument.position _).2 else []) = _
      unfold FirstPlaces.note
      rw [hplaces argument.name]
      cases (owner.node.arguments.take number).find? (·.name = argument.name) <;> rfl
  · intro index way step hentry hother
    obtain ⟨places, -, hrepeated⟩ := hunique hentry
    have hnames := Document.reportsUnder_names set supplied (hstep hentry)
    obtain ⟨event, types⟩ := step
    rw [hnames, hrepeated]
    refine ⟨?_, ?_, fun hdefinition => ?_⟩
    · cases event with
      | leave node => simp
      | enter node =>
          cases node with
          | argument argument => exact absurd rfl (hother argument)
          | _ => simp
    · cases event with
      | leave node => exact ite_self _
      | enter node =>
          cases node with
          | argument argument => exact absurd rfl (hother argument)
          | _ => exact ite_self _
    · rw [Document.reportsUnder_faults set supplied (hstep hentry) hdefinition]
      cases event with
      | leave node => simp
      | enter node =>
          cases node with
          | argument argument => exact absurd rfl (hother argument)
          | _ => simp

end QueryAudit
