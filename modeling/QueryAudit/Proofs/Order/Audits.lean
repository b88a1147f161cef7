import QueryAudit.Proofs.Measures
import QueryAudit.Proofs.Order.Merging

/-!
# Audits do not depend on the order of tables

An audit finds the same, and says it in the same order, for schemas that differ in the order of
their types, their directives and the members of types, and for sources whose operations and
fragments come in different orders. Each rule is set beside itself on the schema with the members of
types sorted. Most rules only look names up. Those that list names sort them, and the search for
fields that cannot be merged carries types along without looking at the order of their members.
-/

namespace QueryAudit

variable {schema ordered : Schema}

/-- Questions have the same answers. -/
theorem Inquiry.answer_sorted {α : Type} (h : schema.SortedAs ordered) (document : Document)
    (inquiry : Inquiry α) : inquiry.answer ordered document = inquiry.answer schema document := by
  induction inquiry with
  | settled result => rfl
  | uses operation next ih =>
      rw [Inquiry.answer_uses, Inquiry.answer_uses, VariableUse.ofOperation_sorted h]
      exact ih _
  | reached number operation next ih => exact ih _

namespace Checker

/-- A checker does the same with the members of types sorted, up to a change of its state. -/
def IgnoresOrder (checker : Checker) (schema ordered : Schema) : Prop :=
  ∃ change : checker.State → checker.State, change checker.start = checker.start ∧
    ∀ document supplied types state event,
      checker.step ⟨ordered, document, supplied, types.sorted⟩ (change state) event =
        Prod.map change id (checker.step ⟨schema, document, supplied, types⟩ state event)

theorem ignoresOrder_ofStep {State : Type} {start : State}
    {act : Scene → State → Event → State × List Diagnostic} (change : State → State)
    (hstart : change start = start)
    (hact : ∀ document supplied types state event,
      act ⟨ordered, document, supplied, types.sorted⟩ (change state) event =
        Prod.map change id (act ⟨schema, document, supplied, types⟩ state event)) :
    (ofStep State start act).IgnoresOrder schema ordered :=
  ⟨change, hstart, hact⟩

theorem ignoresOrder_asking (h : schema.SortedAs ordered)
    {inquiry : Scene → Event → Inquiry (List Diagnostic)}
    (hinquiry : ∀ document supplied types event,
      inquiry ⟨ordered, document, supplied, types.sorted⟩ event =
        inquiry ⟨schema, document, supplied, types⟩ event) :
    (asking inquiry).IgnoresOrder schema ordered := by
  refine ⟨id, rfl, fun document supplied types state event => ?_⟩
  have hact : (asking inquiry).act ⟨ordered, document, supplied, types.sorted⟩ state event =
      (asking inquiry).act ⟨schema, document, supplied, types⟩ state event :=
    congrArg (Inquiry.map fun diagnostics => ((), diagnostics))
      (hinquiry document supplied types event)
  unfold Checker.step
  rw [Inquiry.answer_sorted h]
  exact congrArg (Inquiry.answer schema document) hact

theorem ignoresOrder_stateless (h : schema.SortedAs ordered)
    {report : Scene → Event → List Diagnostic}
    (hreport : ∀ document supplied types event,
      report ⟨ordered, document, supplied, types.sorted⟩ event =
        report ⟨schema, document, supplied, types⟩ event) :
    (stateless report).IgnoresOrder schema ordered :=
  ignoresOrder_asking h fun document supplied types event =>
    congrArg Inquiry.settled (hreport document supplied types event)

/-- What holds at each step of a walk holds along the walk. -/
theorem IgnoresOrder.reportsEach {checker : Checker} (h : checker.IgnoresOrder schema ordered)
    (document : Document) (supplied : Variables) (steps : List Step) :
    checker.reportsEach ordered document supplied checker.start (steps.map .sorted) =
      checker.reportsEach schema document supplied checker.start steps := by
  obtain ⟨change, hstart, hstep⟩ := h
  have hsteps : ∀ state,
      checker.reportsEach ordered document supplied (change state) (steps.map .sorted) =
        checker.reportsEach schema document supplied state steps := by
    induction steps with
    | nil => exact fun _ => rfl
    | cons step rest ih =>
        intro state
        have hhere := hstep document supplied step.types state step.event
        simp only [List.map_cons, Checker.reportsEach, Step.sorted]
        rw [hhere]
        exact congrArg _ (ih _)
  -- the change of state leaves the start as it is
  have hwalk := hsteps checker.start
  rwa [hstart] at hwalk

/-! ## What the rules ask -/

theorem typesWithField_sorted (h : schema.SortedAs ordered) (parent : TypeDefinition)
    (field : Name) :
    typesWithField ordered parent.sorted field = typesWithField schema parent field := by
  have hfield : ordered.typeHasField field = schema.typeHasField field := by
    funext name
    unfold Schema.typeHasField
    rw [h.type?]
    cases schema.type? name <;> rfl
  have hperm : parent.sorted.possibleTypes.Perm parent.possibleTypes :=
    (sortNames_perm parent.members).append_left _
  rw [typesWithField_eq, typesWithField_eq, hfield]
  exact sortNames_eq_of_perm (hperm.filter _)

theorem fieldHint_sorted (h : schema.SortedAs ordered) (parent : TypeDefinition) (field : Name) :
    fieldHint ordered parent.sorted field = fieldHint schema parent field := by
  simp only [fieldHint, typesWithField_sorted h]
  rfl

theorem argumentOwner?_sorted (types : Tracker) :
    argumentOwner? types.sorted = argumentOwner? types := by
  simp only [argumentOwner?, Tracker.directive_sorted, Tracker.parent?_sorted,
    Tracker.field?_sorted]
  rcases types.directive with - | - | directive
  · cases types.parent? <;> cases types.field? <;> rfl
  · rfl
  · rfl

theorem unknownTypeAt_sorted (h : schema.SortedAs ordered) (name : Name) (position : Position) :
    unknownTypeAt ordered name position = unknownTypeAt schema name position := by
  have hknown : ∀ types : List TypeDefinition,
      (types.filter fun type => !type.isIntrospection).map TypeDefinition.name =
        (types.map TypeDefinition.name).filter fun name => !isReserved name := by
    intro types
    rw [List.filter_map]
    rfl
  have hnear : Suggestion.nearest name ((ordered.types.entries.filter fun type =>
      !type.isIntrospection).map TypeDefinition.name) =
      Suggestion.nearest name ((schema.types.entries.filter fun type =>
        !type.isIntrospection).map TypeDefinition.name) := by
    rw [hknown, hknown]
    exact Suggestion.nearest_eq_of_perm name (h.typeNames.filter _)
  simp only [unknownTypeAt, hnear, h.type?]
  cases schema.type? name <;> rfl

theorem nonCompositeCondition_sorted (types : Tracker) (fragment : Option Name)
    (condition : Name) (position : Position) :
    nonCompositeCondition types.sorted fragment condition position =
      nonCompositeCondition types fragment condition position := by
  simp only [nonCompositeCondition, Tracker.type?_sorted]
  cases types.type? <;> rfl

theorem impossibleSpread_sorted (fragment : Option Name) (type parent : Option TypeDefinition)
    (position : Position) :
    impossibleSpread fragment (type.map .sorted) (parent.map .sorted) position =
      impossibleSpread fragment type parent position := by
  cases type <;> cases parent <;> simp [impossibleSpread]

theorem nearestDirective_sorted (h : schema.SortedAs ordered) (name : String) :
    Suggestion.nearest name (ordered.directives.entries.map fun d => "@" ++ d.name) =
      Suggestion.nearest name (schema.directives.entries.map fun d => "@" ++ d.name) := by
  apply Suggestion.nearest_eq_of_perm
  have hnames := h.directiveNames.map fun name => "@" ++ name
  rwa [List.map_map, List.map_map] at hnames

theorem misplacedDirective_sorted (h : schema.SortedAs ordered) (directive : Directive)
    (location : DirectiveLocation) :
    misplacedDirective ordered directive location =
      misplacedDirective schema directive location := by
  simp only [misplacedDirective, h.directive?]

theorem isUnrepeatable_sorted (h : schema.SortedAs ordered) :
    isUnrepeatable ordered = isUnrepeatable schema := by
  funext directive
  simp only [isUnrepeatable, h.directive?]

theorem variableMisfit_sorted (h : schema.SortedAs ordered) (operation : Operation) :
    variableMisfit ordered operation = variableMisfit schema operation := by
  funext use
  simp only [variableMisfit, h.isInputType, h.allowsVariable]

/-! ## The rules -/

theorem fieldsOnCorrectType_ignoresOrder (h : schema.SortedAs ordered) :
    fieldsOnCorrectType.IgnoresOrder schema ordered := by
  refine ignoresOrder_stateless h fun document supplied types event => ?_
  cases event with
  | leave node => rfl
  | enter node =>
      cases node with
      | field field selections =>
          simp only [Tracker.parent?_sorted, Tracker.field?_sorted]
          cases types.parent? <;> cases types.field? <;>
            simp only [Option.map_none, Option.map_some, fieldHint_sorted h,
              TypeDefinition.sorted_name]
      | _ => rfl

theorem scalarLeafs_ignoresOrder (h : schema.SortedAs ordered) :
    scalarLeafs.IgnoresOrder schema ordered := by
  refine ignoresOrder_stateless h fun document supplied types event => ?_
  cases event with
  | leave node => rfl
  | enter node =>
      cases node with
      | field field selections =>
          simp only [Tracker.type?_sorted, Tracker.field?_sorted]
          cases types.type? <;> cases types.field? <;> rfl
      | _ => rfl

theorem variablesAreInputTypes_ignoresOrder (h : schema.SortedAs ordered) :
    variablesAreInputTypes.IgnoresOrder schema ordered := by
  refine ignoresOrder_stateless h fun document supplied types event => ?_
  cases event with
  | leave node => rfl
  | enter node =>
      cases node with
      | variableDefinition definition =>
          simp only [h.concreteType?]
          cases schema.concreteType? definition.type <;> rfl
      | _ => rfl

theorem possibleFragmentSpreads_ignoresOrder (h : schema.SortedAs ordered) :
    possibleFragmentSpreads.IgnoresOrder schema ordered := by
  refine ignoresOrder_stateless h fun document supplied types event => ?_
  have htype : ∀ fragment : Option Fragment,
      (fragment.bind fun fragment => ordered.type? fragment.condition) =
        (fragment.bind fun fragment => schema.type? fragment.condition).map .sorted := by
    intro fragment
    cases fragment with
    | none => rfl
    | some fragment => exact h.type? fragment.condition
  simp only [htype, Tracker.type?_sorted, Tracker.parent?_sorted, impossibleSpread_sorted]

theorem overlappingFields_ignoresOrder (h : schema.SortedAs ordered) :
    overlappingFieldsCanBeMerged.IgnoresOrder schema ordered := by
  refine ignoresOrder_ofStep Merge.Ledger.sorted rfl
    fun document supplied types ledger event => ?_
  cases event with
  | leave node => rfl
  | enter node =>
      cases node with
      | selectionSet address selections =>
          simp only [Tracker.parent?_sorted, Merge.conflictsIn_sorted h]
          cases Merge.conflictsIn schema document ledger types.parent? address selections <;> rfl
      | _ => rfl

end Checker

theorem Rule.ignoresOrder (h : schema.SortedAs ordered) (rule : Rule) :
    rule.checker.IgnoresOrder schema ordered := by
  cases rule with
  | uniqueOperationNames | uniqueArgumentNames | uniqueFragmentNames | noFragmentCycles
  | uniqueVariableNames => exact Checker.ignoresOrder_ofStep id rfl fun _ _ _ _ _ => rfl
  | loneAnonymousOperation | singleFieldSubscriptions | knownFragmentNames =>
      exact Checker.ignoresOrder_stateless h fun _ _ _ _ => rfl
  | fieldsOnCorrectType => exact Checker.fieldsOnCorrectType_ignoresOrder h
  | overlappingFieldsCanBeMerged => exact Checker.overlappingFields_ignoresOrder h
  | scalarLeafs => exact Checker.scalarLeafs_ignoresOrder h
  | knownArgumentNames =>
      refine Checker.ignoresOrder_stateless h fun document supplied types event => ?_
      simp only [Checker.argumentOwner?_sorted]
  | providedNonNullArguments =>
      refine Checker.ignoresOrder_stateless h fun document supplied types event => ?_
      simp only [h.directive?, Tracker.field?_sorted]
  | knownTypeNames =>
      refine Checker.ignoresOrder_stateless h fun document supplied types event => ?_
      simp only [Checker.unknownTypeAt_sorted h]
  | fragmentsOnCompositeTypes =>
      refine Checker.ignoresOrder_stateless h fun document supplied types event => ?_
      simp only [Checker.nonCompositeCondition_sorted]
  | possibleFragmentSpreads => exact Checker.possibleFragmentSpreads_ignoresOrder h
  | argumentsOfCorrectType | defaultValuesOfCorrectType =>
      refine Checker.ignoresOrder_stateless h fun document supplied types event => ?_
      simp only [Tracker.argument_sorted, Value.fault?_sorted h]
  | knownDirectives =>
      refine Checker.ignoresOrder_stateless h fun document supplied types event => ?_
      simp only [h.directive?, Checker.nearestDirective_sorted h]
  | directivesInValidLocations =>
      refine Checker.ignoresOrder_ofStep id rfl fun document supplied types state event => ?_
      simp only [Checker.misplacedDirective_sorted h]
      rfl
  | uniqueDirectivesPerLocation =>
      refine Checker.ignoresOrder_stateless h fun document supplied types event => ?_
      simp only [Checker.isUnrepeatable_sorted h]
  | variablesAreInputTypes => exact Checker.variablesAreInputTypes_ignoresOrder h
  | noUnusedFragments | noUndefinedVariables | noUnusedVariables =>
      exact Checker.ignoresOrder_asking h fun _ _ _ _ => rfl
  | variablesInAllowedPosition =>
      refine Checker.ignoresOrder_asking h fun document supplied types event => ?_
      simp only [Checker.variableMisfit_sorted h]

attribute [ext] Report

namespace Document

theorem reportsEachOf_sorted (h : schema.SortedAs ordered) (rule : Rule) (document : Document)
    (supplied : Variables) :
    document.reportsEachOf ordered rule supplied = document.reportsEachOf schema rule supplied := by
  unfold reportsEachOf
  rw [document.tree.steps_sorted h]
  exact (rule.ignoresOrder h).reportsEach document supplied _

/-- An audit finds the same with the members of types sorted. -/
theorem audit_sorted (h : schema.SortedAs ordered) (document : Document) (set : RuleSet)
    (supplied : Variables) :
    document.audit ordered set supplied = document.audit schema set supplied := by
  have hdiagnostics : (document.audit ordered set supplied).diagnostics =
      (document.audit schema set supplied).diagnostics := by
    simp only [audit, reports_pass, reportsEachOf_sorted h, document.tree.steps_sorted h,
      List.length_map]
  have haliases := (audit_aliasCount ordered set document supplied).trans
    (audit_aliasCount schema set document supplied).symm
  have hdepth := (audit_depth ordered set document supplied).trans
    (audit_depth schema set document supplied).symm
  exact Report.ext hdiagnostics haliases hdepth

end Document

/-- An audit does not depend on the order in which a schema lists its types, its directives and the
members of a type, nor on the order in which the operations and the fragments of a source come: it
reports the same in the same order, and measures the same. Nor does the order of types show in more
than the order of members where a schema gives its interfaces their members. -/
theorem audit_rearranged {a b : Schema} (hschemas : a.Rearranged b) (hnames : a.NamesDistinct)
    {sources others : List Source} (hsources : List.Forall₂ Source.Rearranged sources others)
    (hplaces : ∀ source ∈ sources, source.PlacesDistinct) (set : RuleSet)
    (supplied : Variables) :
    (Document.ofSources sources).audit a set supplied =
        (Document.ofSources others).audit b set supplied ∧
      a.addMembers.Rearranged b.addMembers := by
  -- both schemas read as the first one does with the members of its types sorted
  have hfirst : a.SortedAs a.sorted := (Schema.Rearranged.refl a).sortedAs hnames
  have hsecond : b.SortedAs a.sorted := hschemas.sortedAs hnames
  refine ⟨?_, hschemas.addMembers⟩
  calc (Document.ofSources sources).audit a set supplied
      = (Document.ofSources sources).audit a.sorted set supplied :=
        (Document.audit_sorted hfirst _ set supplied).symm
    _ = (Document.ofSources sources).audit b set supplied :=
        Document.audit_sorted hsecond _ set supplied
    _ = (Document.ofSources others).audit b set supplied := by
        rw [Document.ofSources_eq hsources hplaces]

/-- The schema with its tables and the members of its types back to front. -/
def Schema.mirrored (schema : Schema) : Schema :=
  { schema with
    types := schema.types.reverse.map fun entry =>
      (entry.1, { entry.2 with members := entry.2.members.reverse })
    directives := schema.directives.reverse }

theorem Schema.rearranged_mirrored (schema : Schema) : schema.Rearranged schema.mirrored where
  types := by
    refine ⟨schema.types.reverse, (List.reverse_perm _).symm, ?_⟩
    rw [Schema.mirrored, List.forall₂_map_right_iff]
    exact List.forall₂_same.mpr fun entry _ => ⟨rfl, (List.reverse_perm _).symm, rfl⟩
  directives := (List.reverse_perm _).symm
  others := rfl

def Source.mirrored (source : Source) : Source :=
  ⟨source.operations.reverse, source.fragments.reverse⟩

theorem Source.rearranged_mirrored (source : Source) : source.Rearranged source.mirrored :=
  ⟨(List.reverse_perm _).symm, (List.reverse_perm _).symm⟩

/-- Two operations and two fragments, with an unknown field that two object types of an interface
have, and an unknown type that is near a known one. -/
theorem audit_rearranged_mirrored :
    ∃ (schema : Schema) (source : Source), schema.NamesDistinct ∧ source.PlacesDistinct ∧
      schema.mirrored.types.names ≠ schema.types.names ∧
      source.mirrored.operations.map Operation.name ≠ source.operations.map Operation.name ∧
      (((Document.ofSources [source.mirrored]).audit schema.mirrored .all []).diagnostics.map
        fun diagnostic => diagnostic.problem.code) = [.fieldSelections, .typeExistence] ∧
      (Document.ofSources [source]).audit schema .all [] =
        (Document.ofSources [source.mirrored]).audit schema.mirrored .all [] := by
  have hpass : Schema.sourcesPass (fun schema source =>
      let written : List Definition :=
        source.operations.map .operation ++ source.fragments.map .fragment
      decide schema.types.names.Nodup && decide schema.directives.names.Nodup &&
        decide (source.operations.map Operation.position ++
          source.fragments.map Fragment.position).Nodup &&
        schema.mirrored.types.names != schema.types.names &&
        source.mirrored.operations.map Operation.name != source.operations.map Operation.name &&
        decide (written.Pairwise fun a b => a.position.before b.position) &&
        (((Document.mk written).audit schema .all []).diagnostics.map
          fun diagnostic => diagnostic.problem.code) == [.fieldSelections, .typeExistence])
      "interface Pet{name:String}
       type Dog implements Pet{name:String bark:Int}
       type Cat implements Pet{name:String bark:Int}
       type Query{pet:Pet}"
      "query A{pet{bark...F}}
       query B{pet{...G}}
       fragment F on Pet{name}
       fragment G on Dogg{name}" = true := by
    decide +kernel
  obtain ⟨schema, source, hcheck⟩ := Schema.exists_of_sourcesPass hpass
  simp only [Bool.and_eq_true, decide_eq_true_eq, bne_iff_ne, beq_iff_eq] at hcheck
  obtain ⟨⟨⟨⟨⟨⟨htypes, hdirectives⟩, hplaces⟩, hmirror⟩, hmirrored⟩, hwritten⟩, hcodes⟩ := hcheck
  have hnames : schema.NamesDistinct := ⟨htypes, hdirectives⟩
  have hequal := (audit_rearranged schema.rearranged_mirrored hnames
    (.cons source.rearranged_mirrored .nil) (List.forall_mem_singleton.mpr hplaces) .all []).1
  have hdocument : Document.ofSources [source] =
      ⟨source.operations.map .operation ++ source.fragments.map .fragment⟩ :=
    congrArg Document.mk (List.mergeSort_of_pairwise hwritten)
  refine ⟨schema, source, hnames, hplaces, hmirror, hmirrored, ?_, hequal⟩
  rw [← hequal, hdocument]
  exact hcodes

end QueryAudit
