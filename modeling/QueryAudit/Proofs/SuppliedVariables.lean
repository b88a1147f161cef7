import Mathlib.Data.List.Nodup
import QueryAudit.Proofs.Resolution
import QueryAudit.Proofs.Tracking
import QueryAudit.Proofs.Values

/-!
# Accepted documents and supplied variables

A document can be checked before the values of its variables are known, and again with them. The
tracker says at which type a variable stands, the rule on variable positions compares that type with
the declared one, and the judgement of values comes to the variable once a value is supplied for it.
This file shows where the three agree, and that a second check can fail only where they do not: at
variables inside an object literal that stands directly at a list type.
-/

namespace QueryAudit

/-! ## The tracked type of a variable -/

namespace Value

theorem mem_itemTrees {items : List Literal} {item : Literal} (h : item ∈ items)
    (position : Position) :
    .node (.listItem position item) [Value.tree position item] ∈ itemTrees position items := by
  induction items with
  | nil => cases h
  | cons first rest ih =>
      rcases List.mem_cons.mp h with rfl | hrest
      · exact List.mem_cons_self
      · exact List.mem_cons_of_mem _ (ih hrest)

theorem mem_fieldTrees {fields : List (Name × Literal)} {name : Name} {value : Literal}
    (h : (name, value) ∈ fields) (position : Position) :
    .node (.objectField position name value) [Value.tree position value] ∈
      fieldTrees position fields := by
  induction fields with
  | nil => cases h
  | cons first rest ih =>
      rcases List.mem_cons.mp h with rfl | hrest
      · exact List.mem_cons_self
      · exact List.mem_cons_of_mem _ (ih hrest)

/-- Inside what is not tracked nothing is. -/
theorem not_tracked {schema : Schema} (value : Literal) {type : TypeRef} {place : VariablePlace}
    (h : place ∈ variablePlaces schema value false type) : place.tracked = false := by
  induction value using Value.induction generalizing type with
  | var x =>
      simp only [variablePlaces, List.mem_singleton] at h
      rw [h]
  | null | number n | string s | boolean b | enum e => simp [variablePlaces] at h
  | list items ih =>
      cases type with
      | named name nonNull => simp [variablePlaces] at h
      | list element nonNull =>
          simp only [variablePlaces, mem_itemPlaces] at h
          obtain ⟨item, hitem, hplace⟩ := h
          exact ih item hitem hplace
  | object fields ih =>
      obtain ⟨definition, -, -, input, -, value, hvalue, hplace⟩ := mem_places_object.mp h
      rw [Bool.false_and] at hplace
      exact ih (input.name, value) (NameTable.mem_of_find? hvalue) hplace

/-- The walk of a literal comes to each tracked variable with the type at which its value is
judged. -/
theorem exists_step_of_tracked {schema : Schema} (hkeyed : schema.AllInputsKeyed)
    (position : Position) (value : Literal) {tracker : Tracker} {type : TypeRef}
    (htype : tracker.inputType? = some type) {place : VariablePlace}
    (hplace : place ∈ variablePlaces schema value true type) (htracked : place.tracked = true) :
    ∃ step ∈ (Value.tree position value).stepsBelow schema tracker,
      step.event = .enter (.variableUse position place.name) ∧
        step.types.inputType? = some place.type := by
  induction value using Value.induction generalizing tracker type with
  | var x =>
      simp only [variablePlaces, List.mem_singleton] at hplace
      subst hplace
      refine ⟨⟨.enter (.variableUse position x), tracker⟩, ?_, rfl, htype⟩
      exact NodeTree.mem_stepsBelow_of_mem List.mem_cons_self List.mem_cons_self
  | null | number n | string s | boolean b | enum e => simp [variablePlaces] at hplace
  | list items ih =>
      cases type with
      | named name nonNull => simp [variablePlaces] at hplace
      | list element nonNull =>
          simp only [variablePlaces, mem_itemPlaces] at hplace
          obtain ⟨item, hitem, hplace⟩ := hplace
          have hinside : (tracker.enter schema (.listItem position item)).inputType? =
              some element := by
            simp only [Tracker.enter, htype]
            rfl
          obtain ⟨step, hstep, hevent, hstepType⟩ := ih item hitem hinside hplace
          refine ⟨step, ?_, hevent, hstepType⟩
          exact NodeTree.mem_stepsBelow_of_mem (mem_itemTrees hitem position)
            (NodeTree.mem_stepsBelow_of_mem List.mem_cons_self hstep)
  | object fields ih =>
      obtain ⟨definition, hdefinition, hkind, input, hinput, value, hvalue, hplace⟩ :=
        mem_places_object.mp hplace
      cases type with
      | list element nonNull =>
          -- an object at a list type hides its variables
          simp only [TypeRef.element?, Option.isNone_some, Bool.and_false] at hplace
          rw [not_tracked value hplace] at htracked
          cases htracked
      | named name nonNull =>
          simp only [TypeRef.element?, Option.isNone_none, Bool.and_true] at hplace
          have hfind : definition.inputFields.find? input.name = some input :=
            (hkeyed definition (Schema.mem_types_of_type? hdefinition)).find?_of_mem hinput
          have hinside : (tracker.enter schema
              (.objectField position input.name value)).inputType? = some input.type := by
            simp only [TypeRef.concreteName] at hdefinition
            simp only [Tracker.enter, htype, Tracker.inputField?, hdefinition, hkind, if_true,
              hfind]
            rfl
          have hmem := NameTable.mem_of_find? hvalue
          obtain ⟨step, hstep, hevent, hstepType⟩ := ih _ hmem hinside hplace
          refine ⟨step, ?_, hevent, hstepType⟩
          exact NodeTree.mem_stepsBelow_of_mem (mem_fieldTrees hmem position)
            (NodeTree.mem_stepsBelow_of_mem List.mem_cons_self hstep)

end Value

/-! ## What the rules say of fragments and variables -/

/-- Noting the names of fragments in turn reports nothing only if they are all new. -/
theorem nodup_of_uniqueFragmentNames {schema : Schema} {document : Document}
    {supplied : Variables} {fragments : List Fragment} {places : FirstPlaces}
    (h : Checker.uniqueFragmentNames.reports schema document supplied places
      (fragments.map (Fragment.enterStep schema)) = []) :
    (fragments.map Fragment.name).Nodup ∧
      ∀ fragment ∈ fragments, places.find? fragment.name = none := by
  induction fragments generalizing places with
  | nil => exact ⟨List.nodup_nil, fun _ hmem => absurd hmem List.not_mem_nil⟩
  | cons fragment rest ih =>
      have hstep : Checker.uniqueFragmentNames.step
          ⟨schema, document, supplied, (Fragment.enterStep schema fragment).types⟩ places
          (Fragment.enterStep schema fragment).event =
          places.note fragment.name fragment.position (.duplicateFragment fragment.name) := rfl
      simp only [List.map_cons, Checker.reports, hstep, List.append_eq_nil_iff] at h
      obtain ⟨hhere, hrest⟩ := h
      cases hfind : places.find? fragment.name with
      | some first => simp [FirstPlaces.note, hfind] at hhere
      | none =>
          simp only [FirstPlaces.note, hfind] at hrest
          obtain ⟨hnodup, hnew⟩ := ih hrest
          have hother : ∀ other ∈ rest, fragment.name ≠ other.name ∧
              places.find? other.name = none := by
            intro other hmem
            have habsent := hnew other hmem
            rw [NameTable.find?_insert] at habsent
            split at habsent
            · cases habsent
            · rename_i hne
              exact ⟨hne, habsent⟩
          refine ⟨List.nodup_cons.mpr ⟨?_, hnodup⟩, ?_⟩
          · intro hmem
            obtain ⟨other, hmem, hname⟩ := List.mem_map.mp hmem
            exact (hother other hmem).1 hname.symm
          · intro other hmem
            rcases List.mem_cons.mp hmem with rfl | hmem
            · exact hfind
            · exact (hother other hmem).2

namespace Document

variable {schema : Schema} {document : Document} {supplied : Variables}

theorem nodup_fragmentNames (haccepted : document.diagnostics schema Rule.all supplied = []) :
    (document.fragments.map Fragment.name).Nodup := by
  have hsilent := (diagnostics_eq_nil_iff schema Rule.all document supplied).mp haccepted
    .uniqueFragmentNames (Rule.mem_all _)
  have hignored : ∀ step, Step.entersFragment step = false →
      ∀ state : Checker.uniqueFragmentNames.State,
      Checker.uniqueFragmentNames.step ⟨schema, document, supplied, step.types⟩ state step.event =
        (state, []) := by
    intro step hstep state
    unfold Step.entersFragment at hstep
    split at hstep
    · cases hstep
    · rename_i hevent
      refine (Checker.step_ofStep _ _ _ _ _ _).trans ?_
      simp only
      rfl
  have hfilter := Checker.reports_filter Checker.uniqueFragmentNames schema document supplied
    Step.entersFragment hignored [] (document.tree.steps schema)
  rw [filter_steps_entersFragment] at hfilter
  exact (nodup_of_uniqueFragmentNames (hfilter.symm.trans hsilent)).1

/-- In an accepted document every fragment is reached from an operation. -/
theorem exists_reachable (haccepted : document.diagnostics schema Rule.all supplied = [])
    {fragment : Fragment} (hfragment : fragment ∈ document.fragments) :
    ∃ operation ∈ document.operations, fragment ∈ document.reachable operation.selections := by
  have hquiet := quiet_of_diagnostics_eq_nil haccepted
  have hleave : ⟨.leave .document, Tracker.empty⟩ ∈ document.tree.steps schema := by
    rw [steps_eq]
    exact List.mem_cons_of_mem _ (List.mem_append_right _ List.mem_cons_self)
  have hreport := (hquiet _ hleave).answer_eq_nil .noUnusedFragments rfl
  simp only [Inquiry.answer_map, Inquiry.answer_reachedByAll, List.map_eq_nil_iff,
    List.filter_eq_nil_iff, decide_eq_true_eq, Decidable.not_not] at hreport
  obtain ⟨found, hreached, hsame⟩ := List.mem_map.mp (hreport fragment hfragment)
  obtain ⟨⟨number, operation⟩, hoperation, hfound⟩ := List.mem_flatMap.mp hreached
  refine ⟨operation, ?_, ?_⟩
  · rw [← numberedOperations_map_snd]
    exact List.mem_map_of_mem hoperation
  -- the fragment reached has the same name, and names are unique
  have hfirst := fragment?_of_mem_reachable hfound
  have hmem : found ∈ document.fragments := List.mem_of_find?_eq_some hfirst
  have heq : found = fragment :=
    List.inj_on_of_nodup_map (nodup_fragmentNames haccepted) hmem hfragment hsame
  rw [← heq]
  exact hfound

end Document

namespace Step.Quiet

variable {schema : Schema} {document : Document} {supplied : Variables} {types : Tracker}

theorem variable_isInputType {definition : VariableDefinition}
    (h : Step.Quiet schema document supplied ⟨.enter (.variableDefinition definition), types⟩) :
    schema.isInputType definition.type = true := by
  obtain ⟨type, htype⟩ := unknownTypeAt_eq_nil (h.report_eq_nil .knownTypeNames rfl)
  have hreport := h.report_eq_nil .variablesAreInputTypes rfl
  have hconcrete : schema.concreteType? definition.type = some type := htype
  cases hinput : type.isInput with
  | true => simp [Schema.isInputType, hconcrete, hinput]
  | false => simp [hconcrete, hinput] at hreport

theorem use_declared {operation : Operation}
    (h : Step.Quiet schema document supplied ⟨.leave (.operation operation), types⟩)
    {use : VariableUse} (huse : use ∈ VariableUse.ofOperation schema document operation) :
    ∃ definition, Checker.declaration? operation use.name = some definition := by
  have hreport := h.answer_eq_nil .noUndefinedVariables rfl
  simp only [Inquiry.answer_uses, Inquiry.answer_settled, List.map_eq_nil_iff,
    List.filter_eq_nil_iff] at hreport
  have hsome := hreport use huse
  rw [Option.isNone_iff_eq_none] at hsome
  exact Option.ne_none_iff_exists'.mp hsome

theorem use_allowed {operation : Operation}
    (h : Step.Quiet schema document supplied ⟨.leave (.operation operation), types⟩)
    {use : VariableUse} (huse : use ∈ VariableUse.ofOperation schema document operation)
    {definition : VariableDefinition}
    (hdefinition : Checker.declaration? operation use.name = some definition)
    (hinput : schema.isInputType definition.type = true) {place : TypeRef}
    (hplace : use.type = some place) :
    schema.allowsVariable definition.type (definition.default.map Default.value) place
      use.default.isSome = true := by
  have hreport := h.answer_eq_nil .variablesInAllowedPosition rfl
  simp only [Inquiry.answer_uses, Inquiry.answer_settled, List.flatMap_eq_nil_iff] at hreport
  have hmisfit := hreport use huse
  cases hallowed : schema.allowsVariable definition.type (definition.default.map Default.value)
      place use.default.isSome with
  | true => rfl
  | false =>
      simp [Checker.variableMisfit, hdefinition, hplace, hinput, hallowed] at hmisfit

end Step.Quiet

/-- Every supplied value is other than null and accepted at the type of the variable of its name, in
every operation that declares the variable. -/
structure Document.SuppliesWell (schema : Schema) (document : Document) (supplied : Variables) :
    Prop where
  notNull : ∀ name constant, supplied.find? name = some constant → constant.isNull = false
  accepted : ∀ name constant, supplied.find? name = some constant →
    ∀ operation ∈ document.operations, ∀ definition ∈ operation.variableDefinitions,
      definition.name = name →
      Value.judgeConstant schema constant definition.type [.field name] = none

instance (schema : Schema) (document : Document) (supplied : Variables) :
    Decidable (document.SuppliesWell schema supplied) :=
  decidable_of_iff (∀ name ∈ supplied.names, ∀ constant ∈ supplied.find? name,
      constant.isNull = false ∧
        ∀ operation ∈ document.operations, ∀ definition ∈ operation.variableDefinitions,
          definition.name = name →
          Value.judgeConstant schema constant definition.type [.field name] = none) (by
    have hnames : ∀ name constant, supplied.find? name = some constant →
        name ∈ supplied.names := fun name constant hfind =>
      (NameTable.find?_isSome_iff_mem_names supplied name).mp (by simp [hfind])
    constructor
    · intro h
      exact ⟨fun name constant hfind => (h name (hnames name constant hfind) constant hfind).1,
        fun name constant hfind => (h name (hnames name constant hfind) constant hfind).2⟩
    · intro h name _ constant hfind
      exact ⟨h.notNull name constant hfind, h.accepted name constant hfind⟩)

section

variable {schema : Schema} {document : Document} {supplied : Variables}

theorem Document.getElem?_of_mem_operations {operation : Operation}
    (h : operation ∈ document.operations) :
    ∃ number : Nat, document.definitions[number]? = some (.operation operation) := by
  obtain ⟨definition, hdefinition, hfound⟩ := List.mem_filterMap.mp h
  obtain ⟨number, hnumber⟩ := List.mem_iff_getElem?.mp hdefinition
  cases definition with
  | fragment f => cases hfound
  | operation o =>
      cases hfound
      exact ⟨number, hnumber⟩

/-- In an accepted document a supplied value is accepted wherever an operation uses its variable at
a known type. -/
theorem accepts_of_use (haccepted : document.diagnostics schema Rule.all [] = [])
    (hsupplied : document.SuppliesWell schema supplied) {operation : Operation}
    (hoperation : operation ∈ document.operations) {use : VariableUse}
    (huse : use ∈ VariableUse.ofOperation schema document operation) {place : TypeRef}
    (hplace : use.type = some place) {constant : Constant}
    (hconstant : supplied.find? use.name = some constant) :
    Value.Accepts schema Empty.elim constant place := by
  have hquiet := Document.quiet_of_diagnostics_eq_nil haccepted
  obtain ⟨number, hnumber⟩ := Document.getElem?_of_mem_operations hoperation
  have hleave : ⟨.leave (.operation operation),
      Tracker.empty.enter schema (.operation operation)⟩ ∈ document.tree.steps schema := by
    refine Document.mem_steps_of_mem hnumber ?_
    rw [Definition.steps_eq]
    exact List.mem_cons_of_mem _ (List.mem_append_right _ List.mem_cons_self)
  obtain ⟨definition, hdefinition⟩ := (hquiet _ hleave).use_declared huse
  have hmem : definition ∈ operation.variableDefinitions := List.mem_of_find?_eq_some hdefinition
  have hname : definition.name = use.name := by simpa using List.find?_some hdefinition
  have hinput : schema.isInputType definition.type = true := by
    have hstep : ⟨.enter (.variableDefinition definition),
        (Tracker.empty.enter schema (.operation operation)).enter schema
          (.variableDefinition definition)⟩ ∈ document.tree.steps schema := by
      refine Document.mem_steps_of_mem hnumber ?_
      rw [Definition.steps_eq]
      have hchild : definition.tree ∈ Definition.trees number (.operation operation) :=
        List.mem_append_left _ (List.mem_append_left _ (List.mem_map_of_mem hmem))
      exact NodeTree.mem_stepsBelow_of_mem hchild List.mem_cons_self
    exact (hquiet _ hstep).variable_isInputType
  have hallowed := (hquiet _ hleave).use_allowed huse hdefinition hinput hplace
  have hdeclared := hsupplied.accepted use.name constant hconstant operation hoperation definition
    hmem hname
  exact Value.accepts_of_allowsVariable hallowed (hsupplied.notNull _ _ hconstant)
    ((Value.accepts_iff Value.empty_pathFree _ _ _).mp hdeclared)

theorem Document.exists_definition_of_mem_steps {step : Step}
    (hstep : step ∈ document.tree.steps schema) (hnode : step.event.node ≠ .document) :
    ∃ number definition, document.definitions[number]? = some definition ∧
      step ∈ (Definition.tree number definition).steps schema := by
  rw [Document.steps_eq, List.mem_cons, List.mem_append, List.mem_singleton] at hstep
  rcases hstep with rfl | hstep | rfl
  · exact absurd rfl hnode
  · obtain ⟨⟨definition, number⟩, hnumbered, hstep⟩ := List.mem_flatMap.mp hstep
    exact ⟨number, definition, List.mem_zipIdx_iff_getElem?.mp hnumbered, hstep⟩
  · exact absurd rfl hnode

/-- The uses in a definition of an accepted document are uses of one of its operations. -/
theorem exists_operation_of_use (haccepted : document.diagnostics schema Rule.all [] = [])
    {number : Nat} {definition : Definition}
    (hdefinition : document.definitions[number]? = some definition) {use : VariableUse}
    (huse : use ∈ VariableUse.inTree schema (Definition.tree number definition)) :
    ∃ operation ∈ document.operations, use ∈ VariableUse.ofOperation schema document operation := by
  rw [VariableUse.inTree_definition schema number 0] at huse
  have hmem : definition ∈ document.definitions := List.mem_of_getElem? hdefinition
  cases definition with
  | operation o =>
      exact ⟨o, List.mem_filterMap.mpr ⟨_, hmem, rfl⟩, List.mem_append_left _ huse⟩
  | fragment f =>
      have hfragment : f ∈ document.fragments := List.mem_filterMap.mpr ⟨_, hmem, rfl⟩
      obtain ⟨operation, hoperation, hreachable⟩ :=
        Document.exists_reachable haccepted hfragment
      exact ⟨operation, hoperation, List.mem_append_right _
        (List.mem_flatMap.mpr ⟨f, hreachable, huse⟩)⟩

/-- In an accepted document a supplied value is accepted at every tracked place of its variable in
an argument. -/
theorem accepts_of_tracked (hschema : schema.Built)
    (haccepted : document.diagnostics schema Rule.all [] = [])
    (hsupplied : document.SuppliesWell schema supplied) {argument : Argument} {types : Tracker}
    {declared : InputValue}
    (hstep : ⟨.enter (.argument argument), types⟩ ∈ document.tree.steps schema)
    (hdeclared : types.argument = some declared) {place : Value.VariablePlace}
    (hplace : place ∈ argument.value.variablePlaces schema true declared.type)
    (htracked : place.tracked = true) {constant : Constant}
    (hconstant : supplied.find? place.name = some constant) :
    Value.Accepts schema Empty.elim constant place.type := by
  obtain ⟨number, definition, hdefinition, hstep⟩ :=
    Document.exists_definition_of_mem_steps hstep (by simp [Event.node])
  rw [Definition.steps_eq] at hstep
  obtain ⟨outer, children, htypes, hshows, hbelow⟩ :=
    (Definition.tree_shows number definition).of_mem_steps _ hstep
  have htypes : types = outer.enter schema (.argument argument) := htypes
  have hinput : types.inputType? = some declared.type := by
    rw [htypes] at hdeclared ⊢
    simp only [Tracker.enter] at hdeclared ⊢
    simp [Tracker.inputType?, Tracker.pushInput, hdeclared]
  obtain ⟨step, hvalue, hevent, hplaceType⟩ := argument.value.exists_step_of_tracked
    hschema.allInputsKeyed argument.valuePosition hinput hplace htracked
  have hmem : step ∈ (Definition.tree number definition).steps schema := by
    rw [Definition.steps_eq]
    refine hbelow step ?_
    rw [show children = [argument.value.tree argument.valuePosition] from hshows]
    exact List.mem_append_left _ hvalue
  have huse : (⟨place.name, argument.valuePosition, some place.type, step.types.default?⟩ :
      VariableUse) ∈ VariableUse.inTree schema (Definition.tree number definition) := by
    refine List.mem_filterMap.mpr ⟨step, hmem, ?_⟩
    simp [VariableUse.ofStep?, hevent, hplaceType]
  obtain ⟨operation, hoperation, huse⟩ := exists_operation_of_use haccepted hdefinition huse
  exact accepts_of_use haccepted hsupplied hoperation huse rfl hconstant

/-! ## Which rules look at supplied values -/

theorem judgeSupplied_pathFree (schema : Schema) (supplied : Variables) (name : Name) :
    Value.PathFree (Value.judgeSupplied schema supplied name) := by
  intro type path other h
  unfold Value.judgeSupplied at h ⊢
  cases hfind : supplied.find? name with
  | none => rfl
  | some constant =>
      simp only [hfind] at h ⊢
      exact Value.judge_pathFree schema Value.empty_pathFree constant type path other h

/-- A literal that has no fault while nothing is supplied has one with supplied values exactly if a
value is not accepted at a place of its variable. -/
theorem fault?_eq_none_iff (schema : Schema) (supplied : Variables) (value : Literal)
    (type : TypeRef) (path : ValuePath) :
    value.fault? schema supplied type path = none ↔
      value.fault? schema [] type path = none ∧
        ∀ place ∈ value.variablePlaces schema true type,
          ∀ constant, supplied.find? place.name = some constant →
            Value.Accepts schema Empty.elim constant place.type := by
  have hunjudged : Value.judgeSupplied schema [] = Value.unjudged := rfl
  unfold Value.fault?
  rw [Value.accepts_iff (judgeSupplied_pathFree schema supplied),
    Value.accepts_iff (judgeSupplied_pathFree schema []), hunjudged,
    Value.accepts_iff_places (judgeSupplied_pathFree schema supplied) value true type]
  refine and_congr_right fun _ => forall_congr' fun place => imp_congr_right fun _ => ?_
  unfold Value.judgeSupplied
  cases supplied.find? place.name with
  | none => simp
  | some constant =>
      simp only [Option.some.injEq, forall_eq']
      rfl

theorem not_mem_variablePlaces_ofConstant (schema : Schema) (constant : Constant) (tracked : Bool)
    (type : TypeRef) (place : Value.VariablePlace) :
    place ∉ (Value.ofConstant constant : Literal).variablePlaces schema tracked type := by
  unfold Value.ofConstant
  induction constant using Value.induction generalizing tracked type with
  | var x => exact x.elim
  | null | number n | string s | boolean b | enum e =>
      simp [Value.bind, Value.variablePlaces]
  | list items ih =>
      intro hplace
      cases type with
      | named name nonNull => simp [Value.bind, Value.variablePlaces] at hplace
      | list element nonNull =>
          simp only [Value.bind, Value.variablePlaces, Value.mem_itemPlaces,
            Value.bindItems_eq_map] at hplace
          obtain ⟨bound, hbound, hplace⟩ := hplace
          obtain ⟨item, hitem, rfl⟩ := List.mem_map.mp hbound
          exact ih item hitem tracked element hplace
  | object fields ih =>
      intro hplace
      rw [Value.bind, Value.mem_places_object] at hplace
      obtain ⟨definition, -, -, input, -, value, hvalue, hplace⟩ := hplace
      rw [Value.find?_bindFields] at hvalue
      obtain ⟨field, hfield, rfl⟩ := Option.map_eq_some_iff.mp hvalue
      exact ih _ (NameTable.mem_of_find? hfield) _ _ hplace

/-- Whether a default has a fault does not depend on what is supplied. -/
theorem fault?_ofConstant_eq_none (schema : Schema) (supplied : Variables) (constant : Constant)
    {type : TypeRef} {path : ValuePath}
    (h : (Value.ofConstant constant : Literal).fault? schema [] type path = none) :
    (Value.ofConstant constant : Literal).fault? schema supplied type path = none := by
  rw [fault?_eq_none_iff]
  exact ⟨h, fun place hplace =>
    absurd hplace (not_mem_variablePlaces_ofConstant schema constant true type place)⟩

theorem Checker.reports_congr {checker : Checker} (supplied other : Variables)
    (h : ∀ types state event, checker.step ⟨schema, document, supplied, types⟩ state event =
      checker.step ⟨schema, document, other, types⟩ state event)
    (state : checker.State) (steps : List Step) :
    checker.reports schema document supplied state steps =
      checker.reports schema document other state steps := by
  induction steps generalizing state with
  | nil => rfl
  | cons step rest ih => simp only [Checker.reports, h, ih]

theorem defaultValues_silent
    (h : document.reportsOf schema .defaultValuesOfCorrectType [] = []) :
    document.reportsOf schema .defaultValuesOfCorrectType supplied = [] := by
  have hsilent := List.flatMap_eq_nil_iff.mp
    ((Checker.reports_stateless _ schema document [] _).symm.trans h)
  refine (Checker.reports_stateless _ schema document supplied _).trans ?_
  rw [List.flatMap_eq_nil_iff]
  intro step hstep
  have hreport := hsilent step hstep
  obtain ⟨event, types⟩ := step
  simp only at hreport ⊢
  split
  · rename_i definition
    simp only at hreport
    cases hdefault : definition.default with
    | none => rfl
    | some default =>
        simp only [hdefault] at hreport ⊢
        cases hfault : (Value.ofConstant default.value : Literal).fault? schema [] definition.type
            [.field definition.name] with
        | some fault => simp [hfault] at hreport
        | none => simp [fault?_ofConstant_eq_none schema supplied default.value hfault]
  · rfl

/-- But for the values of arguments, an accepted document stays accepted. -/
theorem reportsOf_eq_nil_of_ne {rule : Rule} (hrule : rule ≠ .argumentsOfCorrectType)
    (h : document.reportsOf schema rule [] = []) :
    document.reportsOf schema rule supplied = [] := by
  cases rule with
  | argumentsOfCorrectType => exact absurd rfl hrule
  | defaultValuesOfCorrectType => exact defaultValues_silent h
  | _ => exact (Checker.reports_congr supplied [] (fun _ _ _ => rfl) _ _).trans h

theorem argumentsOfCorrectType_silent_iff (supplied : Variables) :
    document.reportsOf schema .argumentsOfCorrectType supplied = [] ↔
      ∀ argument types declared,
        ⟨.enter (.argument argument), types⟩ ∈ document.tree.steps schema →
        types.argument = some declared →
        argument.value.fault? schema supplied declared.type [.field argument.name] = none := by
  have hreports : document.reportsOf schema .argumentsOfCorrectType supplied = _ :=
    Checker.reports_stateless _ schema document supplied (document.tree.steps schema)
  rw [hreports, List.flatMap_eq_nil_iff]
  constructor
  · intro h argument types declared hstep hdeclared
    have hreport := h _ hstep
    cases hfault : argument.value.fault? schema supplied declared.type [.field argument.name] with
    | none => rfl
    | some fault => simp [hdeclared, hfault] at hreport
  · intro h step hstep
    obtain ⟨event, types⟩ := step
    split
    · rename_i argument hevent
      simp only at hevent
      subst hevent
      cases hdeclared : types.argument with
      | none => rfl
      | some declared => simp [h argument types declared hstep hdeclared]
    · rfl

theorem badArgument_of_mem {diagnostic : Diagnostic}
    (h : diagnostic ∈ document.reportsOf schema .argumentsOfCorrectType supplied) :
    ∃ fault, diagnostic.problem = .badArgument fault := by
  have hreports : document.reportsOf schema .argumentsOfCorrectType supplied = _ :=
    Checker.reports_stateless _ schema document supplied (document.tree.steps schema)
  rw [hreports] at h
  obtain ⟨step, -, hmem⟩ := List.mem_flatMap.mp h
  split at hmem
  · split at hmem
    · split at hmem
      · rename_i fault hfault
        rw [List.mem_singleton] at hmem
        exact ⟨fault, by rw [hmem]; rfl⟩
      · cases hmem
    · cases hmem
  · cases hmem

/-- Wherever a variable stands inside an object literal at a list type, the value supplied for it is
accepted at the type at which it is judged there. -/
def Document.HiddenAccepted (schema : Schema) (document : Document) (supplied : Variables) :
    Prop :=
  ∀ argument types declared, ⟨.enter (.argument argument), types⟩ ∈ document.tree.steps schema →
    types.argument = some declared →
    ∀ place ∈ argument.value.variablePlaces schema true declared.type, place.tracked = false →
      ∀ constant, supplied.find? place.name = some constant →
        Value.judgeConstant schema constant place.type [] = none

end

/-- Take a document that is accepted while nothing is supplied, and values that the declared types
of their variables accept. Checked with these values, the document is reported on for the values of
arguments at most, and it is accepted exactly if the values are accepted at the variables inside
object literals that stand at list types; at all other places they are accepted anyway. -/
theorem supplied_accepted_iff {schema : Schema} {document : Document} {supplied : Variables}
    (hschema : schema.Built) (haccepted : document.diagnostics schema Rule.all [] = [])
    (hsupplied : document.SuppliesWell schema supplied) :
    (∀ diagnostic ∈ document.diagnostics schema Rule.all supplied,
        ∃ fault, diagnostic.problem = .badArgument fault) ∧
      (document.diagnostics schema Rule.all supplied = [] ↔
        document.HiddenAccepted schema supplied) := by
  have hrules := (Document.diagnostics_eq_nil_iff schema Rule.all document []).mp haccepted
  have hothers : ∀ rule, rule ≠ .argumentsOfCorrectType →
      document.reportsOf schema rule supplied = [] := fun rule hrule =>
    reportsOf_eq_nil_of_ne hrule (hrules rule (Rule.mem_all rule))
  have hstatic := (argumentsOfCorrectType_silent_iff []).mp
    (hrules .argumentsOfCorrectType (Rule.mem_all _))
  constructor
  · intro diagnostic hmem
    obtain ⟨rule, -, hmem⟩ := (Document.mem_diagnostics_iff ..).mp hmem
    by_cases hrule : rule = .argumentsOfCorrectType
    · subst hrule
      exact badArgument_of_mem hmem
    · rw [hothers rule hrule] at hmem
      cases hmem
  · have hall : document.diagnostics schema Rule.all supplied = [] ↔
        document.reportsOf schema .argumentsOfCorrectType supplied = [] := by
      rw [Document.diagnostics_eq_nil_iff]
      constructor
      · exact fun h => h _ (Rule.mem_all _)
      · intro h rule _
        by_cases hrule : rule = .argumentsOfCorrectType
        · rw [hrule]
          exact h
        · exact hothers rule hrule
    rw [hall, argumentsOfCorrectType_silent_iff]
    constructor
    · intro h argument types declared hstep hdeclared place hplace _
      exact ((fault?_eq_none_iff ..).mp (h argument types declared hstep hdeclared)).2 place hplace
    · intro h argument types declared hstep hdeclared
      refine (fault?_eq_none_iff ..).mpr ⟨hstatic argument types declared hstep hdeclared, ?_⟩
      intro place hplace constant hconstant
      cases htracked : place.tracked with
      | true =>
          exact accepts_of_tracked hschema haccepted hsupplied hstep hdeclared hplace htracked
            hconstant
      | false =>
          exact h argument types declared hstep hdeclared place hplace htracked constant hconstant

/-- A variable of type String in an object literal at a list of objects with an integer field: the
document is accepted, and with a string supplied it is not. -/
theorem supplied_accepted_iff_hidden_string :
    ∃ (schema : Schema) (document : Document) (supplied : Variables), schema.Built ∧
      document.diagnostics schema Rule.all [] = [] ∧ document.SuppliesWell schema supplied ∧
      document.diagnostics schema Rule.all supplied ≠ [] ∧
      ¬ document.HiddenAccepted schema supplied := by
  have hpass : Schema.textsPass (fun schema document =>
      (document.diagnostics schema Rule.all []).isEmpty &&
        decide (document.SuppliesWell schema [("v", .string "s")]) &&
        !(document.diagnostics schema Rule.all [("v", .string "s")]).isEmpty)
      "input I{x:Int} type Query{f(arg:[I]):Int}" "query Q($v:String){f(arg:{x:$v})}" = true := by
    decide +kernel
  obtain ⟨schema, document, hschema, hcheck⟩ := Schema.exists_of_textsPass hpass
  simp only [Bool.and_eq_true, decide_eq_true_eq, List.isEmpty_iff, Bool.not_eq_true',
    List.isEmpty_eq_false_iff] at hcheck
  obtain ⟨⟨haccepted, hsupplied⟩, hreported⟩ := hcheck
  refine ⟨schema, document, [("v", .string "s")], hschema, haccepted, hsupplied, hreported, ?_⟩
  exact fun hhidden => hreported ((supplied_accepted_iff hschema haccepted hsupplied).2.mpr hhidden)

end QueryAudit
