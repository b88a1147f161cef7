import QueryAudit.Proofs.Checkers
import QueryAudit.Proofs.Schemas

/-!
# Accepted documents are resolved

Many rules keep silent where the type, the field or the directive that they ask about is unknown,
and leave it to another rule to report the cause. So the silence of a single rule says little. This
file shows that the silence of all of them leaves nothing unknown: in an accepted document every
name means something at the place where it stands, and what it means fits there.
-/

namespace QueryAudit

namespace Schema

def KnowsFieldType (schema : Schema) (field : FieldDefinition) : Prop :=
  ∃ type, schema.concreteType? field.type = some type ∧
    (type.isLeaf = true ∨ type.isComposite = true)

instance (schema : Schema) (field : FieldDefinition) : Decidable (schema.KnowsFieldType field) :=
  decidable_of_iff ((schema.concreteType? field.type).any
      (fun type => type.isLeaf || type.isComposite) = true) (by
    simp [KnowsFieldType, Option.any_eq_true])

/-- The types of all fields are known, those of the field that every composite type has included. -/
structure FieldTypesKnown (schema : Schema) : Prop where
  typename : schema.KnowsFieldType typenameField
  declared : ∀ type ∈ schema.types.entries, ∀ field ∈ type.fields.entries,
    schema.KnowsFieldType field

instance (schema : Schema) : Decidable schema.FieldTypesKnown :=
  decidable_of_iff (schema.KnowsFieldType typenameField ∧
      ∀ type ∈ schema.types.entries, ∀ field ∈ type.fields.entries, schema.KnowsFieldType field)
    ⟨fun h => ⟨h.1, h.2⟩, fun h => ⟨h.typename, h.declared⟩⟩

theorem FieldTypesKnown.fieldOn {schema : Schema} (h : schema.FieldTypesKnown)
    {type : TypeDefinition} (htype : type ∈ schema.types.entries) {name : Name}
    {field : FieldDefinition} (hfield : fieldOn? type name = some field) :
    schema.KnowsFieldType field := by
  unfold fieldOn? at hfield
  split at hfield
  · cases hfield
    exact h.typename
  · exact h.declared type htype field (NameTable.mem_entries_of_find? hfield)

theorem mem_types_of_type? {schema : Schema} {name : Name} {type : TypeDefinition}
    (h : schema.type? name = some type) : type ∈ schema.types.entries :=
  NameTable.mem_entries_of_find? h

end Schema

/-! ## What it is for a step to be resolved -/

/-- Every argument that is required is given. -/
def SuppliesRequired (declared : NameTable InputValue) (given : List Argument) : Prop :=
  ∀ input ∈ declared.entries, input.isRequired = true →
    ∃ argument ∈ given, argument.name = input.name

/-- A type condition names a composite type that an object of the parent type can have. -/
def ConditionFits (schema : Schema) (types : Tracker) (condition : Name) : Prop :=
  ∃ type parent, schema.type? condition = some type ∧ type.isComposite = true ∧
    types.parent? = some parent ∧ type.overlaps parent = true

/-- The parent type and the definition of a field are known, it has sub-selections exactly if its
type is composite, and its required arguments are given. -/
def FieldResolved (schema : Schema) (types : Tracker) (field : Field) (selections : SelectionSet) :
    Prop :=
  ∃ parent definition type, types.parent? = some parent ∧ types.field? = some definition ∧
    Schema.fieldOn? parent field.name = some definition ∧
    schema.concreteType? definition.type = some type ∧
    (selections ≠ [] ↔ type.isComposite = true) ∧
    SuppliesRequired definition.arguments field.arguments

/-- The directives of a node are declared and may stand there. -/
def DirectivesPlaced (schema : Schema) (node : Node) : Prop :=
  ∀ directive ∈ node.directives, ∃ definition location,
    schema.directive? directive.name = some definition ∧
    node.directiveLocation? = some location ∧ location ∈ definition.locations

/-- What the names at a node mean, with the types tracked there. -/
def NodeResolved (schema : Schema) (document : Document) (types : Tracker) : Node → Prop
  | .fragment fragment =>
      ∃ type, schema.type? fragment.condition = some type ∧ type.isComposite = true
  | .field field selections => FieldResolved schema types field selections
  | .spread spread =>
      ∃ fragment, document.fragment? spread.name = some fragment ∧
        ConditionFits schema types fragment.condition
  | .inline fragment =>
      ∀ condition, fragment.condition = some condition → ConditionFits schema types condition
  | .directive directive =>
      ∃ definition, schema.directive? directive.name = some definition ∧
        types.directive = some (some definition) ∧
        SuppliesRequired definition.arguments directive.arguments
  | .argument argument =>
      ∃ table declared, types.declaredArguments? = some table ∧
        table.find? argument.name = some declared ∧ types.argument = some declared
  | _ => True

/-- The names at the node that a step enters mean something and fit. -/
def Step.Resolved (schema : Schema) (document : Document) (step : Step) : Prop :=
  match step.event with
  | .enter node => NodeResolved schema document step.types node
  | .leave _ => True

/-- In every fragment, and in every operation whose kind has a root type, every step is resolved;
and at every node of the document the directives are declared and stand where they may. -/
structure Document.Resolved (schema : Schema) (document : Document) : Prop where
  steps : ∀ number definition, document.definitions[number]? = some definition →
    (∀ operation, definition = .operation operation →
      (schema.rootType? operation.kind).isSome = true) →
    ∀ step ∈ (Definition.tree number definition).steps schema, step.Resolved schema document
  directives : ∀ step ∈ document.tree.steps schema, DirectivesPlaced schema step.event.node

/-! ## What the silence of each rule says -/

namespace Step.Quiet

variable {schema : Schema} {document : Document} {supplied : Variables} {types : Tracker}

theorem field_known {field : Field} {selections : SelectionSet} {parent : TypeDefinition}
    (h : Step.Quiet schema document supplied ⟨.enter (.field field selections), types⟩)
    (hparent : types.parent? = some parent) : ∃ definition, types.field? = some definition := by
  have hreport := h.report_eq_nil .fieldsOnCorrectType rfl
  cases hfield : types.field? with
  | some definition => exact ⟨definition, rfl⟩
  | none => simp [hparent, hfield] at hreport

theorem selections_fit {field : Field} {selections : SelectionSet}
    {definition : FieldDefinition} {type : TypeDefinition}
    (h : Step.Quiet schema document supplied ⟨.enter (.field field selections), types⟩)
    (hfield : types.field? = some definition) (htype : types.type? = some type)
    (hkind : type.isLeaf = true ∨ type.isComposite = true) :
    selections ≠ [] ↔ type.isComposite = true := by
  have hreport := h.report_eq_nil .scalarLeafs rfl
  simp only [hfield, htype] at hreport
  cases selections with
  | nil =>
      cases hcomposite : type.isComposite with
      | false => simp
      | true => simp [hcomposite] at hreport
  | cons first rest =>
      cases hleaf : type.isLeaf with
      | true => simp [hleaf] at hreport
      | false =>
          rw [hleaf] at hkind
          simpa using hkind

theorem missingArgument?_eq_none {declared : NameTable InputValue} {given : List Argument}
    (h : Checker.missingArgument? declared given = none) : SuppliesRequired declared given := by
  intro input hinput hrequired
  have hgiven := List.find?_eq_none.mp h input hinput
  simpa [hrequired] using hgiven

theorem field_supplies {field : Field} {selections : SelectionSet} {definition : FieldDefinition}
    (h : Step.Quiet schema document supplied ⟨.enter (.field field selections), types⟩)
    (hfield : types.field? = some definition) :
    SuppliesRequired definition.arguments field.arguments := by
  have hreport := h.report_eq_nil .providedNonNullArguments rfl
  apply missingArgument?_eq_none
  cases hmissing : Checker.missingArgument? definition.arguments field.arguments with
  | none => rfl
  | some input => simp [hfield, hmissing] at hreport

theorem directive_supplies {directive : Directive} {definition : DirectiveDefinition}
    (h : Step.Quiet schema document supplied ⟨.enter (.directive directive), types⟩)
    (hknown : schema.directive? directive.name = some definition) :
    SuppliesRequired definition.arguments directive.arguments := by
  have hreport := h.report_eq_nil .providedNonNullArguments rfl
  apply missingArgument?_eq_none
  cases hmissing : Checker.missingArgument? definition.arguments directive.arguments with
  | none => rfl
  | some input => simp [hknown, hmissing] at hreport

theorem directive_known {directive : Directive}
    (h : Step.Quiet schema document supplied ⟨.enter (.directive directive), types⟩) :
    ∃ definition, schema.directive? directive.name = some definition := by
  have hreport := h.report_eq_nil .knownDirectives rfl
  cases hknown : schema.directive? directive.name with
  | some definition => exact ⟨definition, rfl⟩
  | none => simp [hknown] at hreport

theorem argument_known {argument : Argument} {owner : ArgumentOwner}
    {declared : NameTable InputValue}
    (h : Step.Quiet schema document supplied ⟨.enter (.argument argument), types⟩)
    (howner : Checker.argumentOwner? types = some (owner, declared)) :
    ∃ input, declared.find? argument.name = some input := by
  have hreport := h.report_eq_nil .knownArgumentNames rfl
  cases hfind : declared.find? argument.name with
  | some input => exact ⟨input, rfl⟩
  | none => simp [howner, NameTable.has, hfind] at hreport

theorem unknownTypeAt_eq_nil {name : Name} {position : Position}
    (h : Checker.unknownTypeAt schema name position = []) :
    ∃ type, schema.type? name = some type := by
  cases htype : schema.type? name with
  | some type => exact ⟨type, rfl⟩
  | none => simp [Checker.unknownTypeAt, htype] at h

theorem nonCompositeCondition_eq_nil {fragment : Option Name} {condition : Name}
    {position : Position} {type : TypeDefinition}
    (h : Checker.nonCompositeCondition types fragment condition position = [])
    (htype : types.type? = some type) : type.isComposite = true := by
  cases hcomposite : type.isComposite with
  | true => rfl
  | false => simp [Checker.nonCompositeCondition, htype, hcomposite] at h

theorem impossibleSpread_eq_nil {fragment : Option Name} {position : Position}
    {type parent : TypeDefinition}
    (h : Checker.impossibleSpread fragment (some type) (some parent) position = [])
    (hcomposite : type.isComposite = true) : type.overlaps parent = true := by
  cases hoverlaps : type.overlaps parent with
  | true => rfl
  | false => simp [Checker.impossibleSpread, hcomposite, hoverlaps] at h

theorem fragment_condition {fragment : Fragment}
    (h : Step.Quiet schema document supplied ⟨.enter (.fragment fragment), types⟩)
    (htypes : types.type? = schema.type? fragment.condition) :
    ∃ type, schema.type? fragment.condition = some type ∧ type.isComposite = true := by
  obtain ⟨type, htype⟩ := unknownTypeAt_eq_nil (h.report_eq_nil .knownTypeNames rfl)
  exact ⟨type, htype, nonCompositeCondition_eq_nil (h.report_eq_nil .fragmentsOnCompositeTypes rfl)
    (htypes.trans htype)⟩

theorem inline_condition {fragment : InlineFragment} {condition : Name} {parent : TypeDefinition}
    (h : Step.Quiet schema document supplied ⟨.enter (.inline fragment), types⟩)
    (hcondition : fragment.condition = some condition)
    (htypes : types.type? = schema.type? condition) (hparent : types.parent? = some parent) :
    ConditionFits schema types condition := by
  have hknown := h.report_eq_nil .knownTypeNames rfl
  have hcomposite := h.report_eq_nil .fragmentsOnCompositeTypes rfl
  have hpossible := h.report_eq_nil .possibleFragmentSpreads rfl
  simp only [hcondition] at hknown
  simp only [hcondition] at hcomposite
  obtain ⟨type, htype⟩ := unknownTypeAt_eq_nil hknown
  have hcurrent : types.type? = some type := htypes.trans htype
  simp only [hcondition, Option.isSome_some, if_true, hcurrent, hparent] at hpossible
  have hiscomposite := nonCompositeCondition_eq_nil hcomposite hcurrent
  exact ⟨type, parent, htype, hiscomposite, hparent,
    impossibleSpread_eq_nil hpossible hiscomposite⟩

theorem spread_known {spread : Spread}
    (h : Step.Quiet schema document supplied ⟨.enter (.spread spread), types⟩) :
    ∃ fragment, document.fragment? spread.name = some fragment := by
  have hreport := h.report_eq_nil .knownFragmentNames rfl
  cases hfragment : document.fragment? spread.name with
  | some fragment => exact ⟨fragment, rfl⟩
  | none => simp [hfragment] at hreport

theorem spread_overlaps {spread : Spread} {fragment : Fragment} {type parent : TypeDefinition}
    (h : Step.Quiet schema document supplied ⟨.enter (.spread spread), types⟩)
    (hfragment : document.fragment? spread.name = some fragment)
    (htype : schema.type? fragment.condition = some type) (hcomposite : type.isComposite = true)
    (hparent : types.parent? = some parent) : type.overlaps parent = true := by
  have hreport := h.report_eq_nil .possibleFragmentSpreads rfl
  simp only [hfragment, htype, Option.bind_some, hparent] at hreport
  exact impossibleSpread_eq_nil hreport hcomposite

end Step.Quiet

/-! ## What is tracked in an accepted document -/

/-- The selections here are on a known composite type. -/
structure Tracker.On (schema : Schema) (tracker : Tracker) (parent : TypeDefinition) : Prop where
  atType : tracker.type? = some parent
  atParent : tracker.parent? = some parent
  composite : parent.isComposite = true
  known : parent ∈ schema.types.entries

section

variable {schema : Schema} {document : Document} {supplied : Variables}

theorem Step.resolved_of_isValue {step : Step} (h : step.event.node.isValue = true) :
    step.Resolved schema document := by
  obtain ⟨event, types⟩ := step
  cases event with
  | leave node => trivial
  | enter node => cases node <;> trivial

theorem declaredArguments?_of_owner {types : Tracker} {owner : ArgumentOwner}
    {declared : NameTable InputValue}
    (h : Checker.argumentOwner? types = some (owner, declared)) :
    types.declaredArguments? = some declared := by
  unfold Checker.argumentOwner? at h
  unfold Tracker.declaredArguments?
  cases hdirective : types.directive with
  | some known =>
      cases known with
      | none => simp [hdirective] at h
      | some definition =>
          simp only [hdirective, Option.some.injEq, Prod.mk.injEq] at h
          simp [h.2]
  | none =>
      cases hparent : types.parent? <;> cases hfield : types.field? <;>
        simp [hdirective, hparent, hfield] at h
      simp [h.2]

theorem Argument.tree_resolved {tracker : Tracker} {owner : ArgumentOwner}
    {declared : NameTable InputValue}
    (howner : Checker.argumentOwner? tracker = some (owner, declared)) (argument : Argument)
    (hquiet : NodeTree.AllSteps (Step.Quiet schema document supplied) schema tracker
      argument.tree) :
    NodeTree.AllSteps (Step.Resolved schema document) schema tracker argument.tree := by
  obtain ⟨hargument, -, -⟩ := (NodeTree.allSteps_node ..).mp hquiet
  obtain ⟨input, hinput⟩ := hargument.argument_known howner
  have htable := declaredArguments?_of_owner howner
  have hvalues := Value.tree_isValue argument.valuePosition argument.value
  refine (NodeTree.allSteps_node ..).mpr ⟨⟨declared, input, htable, hinput, ?_⟩, ?_, trivial⟩
  · simp [Tracker.enter, htable, hinput]
  · rw [NodeTree.forestAllSteps_singleton]
    intro step hstep
    obtain ⟨-, -, -, hvalue, -⟩ := hvalues.of_mem_steps _ hstep
    exact Step.resolved_of_isValue hvalue

theorem Directive.tree_resolved {tracker : Tracker} (directive : Directive)
    (hquiet : NodeTree.AllSteps (Step.Quiet schema document supplied) schema tracker
      directive.tree) :
    NodeTree.AllSteps (Step.Resolved schema document) schema tracker directive.tree := by
  obtain ⟨hdirective, harguments, -⟩ := (NodeTree.allSteps_node ..).mp hquiet
  obtain ⟨definition, hknown⟩ := hdirective.directive_known
  have hinside : (tracker.enter schema (.directive directive)).directive =
      some (some definition) := by
    rw [← hknown]
    rfl
  have howner : Checker.argumentOwner? (tracker.enter schema (.directive directive)) =
      some (.directive definition.name, definition.arguments) := by
    simp [Checker.argumentOwner?, hinside]
  refine (NodeTree.allSteps_node ..).mpr
    ⟨⟨definition, hknown, hinside, hdirective.directive_supplies hknown⟩, ?_, trivial⟩
  rw [NodeTree.forestAllSteps_map] at harguments ⊢
  exact fun argument hmem => argument.tree_resolved howner (harguments argument hmem)

theorem Directive.trees_resolved {tracker : Tracker} (directives : List Directive)
    (hquiet : NodeTree.ForestAllSteps (Step.Quiet schema document supplied) schema tracker
      (directives.map Directive.tree)) :
    NodeTree.ForestAllSteps (Step.Resolved schema document) schema tracker
      (directives.map Directive.tree) := by
  rw [NodeTree.forestAllSteps_map] at hquiet ⊢
  exact fun directive hmem => directive.tree_resolved (hquiet directive hmem)

/-- Inside a set on a composite type the selections are on that type. -/
theorem Tracker.On.enter_selectionSet {tracker : Tracker} {type : TypeDefinition}
    (htype : tracker.type? = some type) (hcomposite : type.isComposite = true)
    (hknown : type ∈ schema.types.entries) (address : Address) (selections : SelectionSet) :
    (tracker.enter schema (.selectionSet address selections)).On schema type := by
  refine ⟨htype, ?_, hcomposite, hknown⟩
  simp [Tracker.enter, Tracker.parent?, htype, hcomposite]

/-- The condition of a fragment that is defined was checked where the fragment is defined. -/
def ConditionsKnown (schema : Schema) (document : Document) : Prop :=
  ∀ fragment ∈ document.fragments, ∃ type,
    schema.type? fragment.condition = some type ∧ type.isComposite = true

/-- The items of the set at an address are resolved if no rule reports them, wherever the tracker
stands on a type. Each kind of selection has a lemma that takes this for granted of what is
below. -/
def SelectionSet.ResolvesAt (schema : Schema) (document : Document) (supplied : Variables)
    (address : Address) (selections : SelectionSet) : Prop :=
  ∀ (tracker : Tracker) (type : TypeDefinition), tracker.AtRest → tracker.On schema type →
    NodeTree.ForestAllSteps (Step.Quiet schema document supplied) schema tracker
      (Selection.trees address 0 selections) →
    NodeTree.ForestAllSteps (Step.Resolved schema document) schema tracker
      (Selection.trees address 0 selections)

/-- A field that no rule reports has a definition and a known type, and the tracker is on both. -/
theorem Tracker.On.exists_field {tracker : Tracker} {parent : TypeDefinition}
    (hon : tracker.On schema parent) (hfields : schema.FieldTypesKnown) {chosen : Field}
    {inner : SelectionSet}
    (hquiet : Step.Quiet schema document supplied
      ⟨.enter (.field chosen inner), tracker.enter schema (.field chosen inner)⟩) :
    ∃ definition type,
      (tracker.enter schema (.field chosen inner)).field? = some definition ∧
      (tracker.enter schema (.field chosen inner)).type? = some type ∧
      Schema.fieldOn? parent chosen.name = some definition ∧
      schema.concreteType? definition.type = some type ∧
      (inner ≠ [] ↔ type.isComposite = true) := by
  have hparent : (tracker.enter schema (.field chosen inner)).parent? = some parent := hon.atParent
  obtain ⟨definition, hdefinition⟩ := hquiet.field_known hparent
  have hfieldOn : Schema.fieldOn? parent chosen.name = some definition := by
    rw [← hdefinition]
    simp [Tracker.enter, Tracker.field?, hon.atParent]
  obtain ⟨type, htype, hkind⟩ := hfields.fieldOn hon.known hfieldOn
  have htracked : (tracker.enter schema (.field chosen inner)).type? = some type := by
    rw [← htype]
    simp [Tracker.enter, Tracker.type?, hon.atParent, hfieldOn]
  exact ⟨definition, type, hdefinition, htracked, hfieldOn, htype,
    hquiet.selections_fit hdefinition htracked hkind⟩

theorem Selection.field_resolved (hfields : schema.FieldTypesKnown) {tracker : Tracker}
    {parent : TypeDefinition} (hrest : tracker.AtRest) (hon : tracker.On schema parent)
    (address : Address) (chosen : Field) (inner : SelectionSet)
    (hbelow : SelectionSet.ResolvesAt schema document supplied address inner)
    (hquiet : NodeTree.AllSteps (Step.Quiet schema document supplied) schema tracker
      (Selection.tree address (.field chosen inner))) :
    NodeTree.AllSteps (Step.Resolved schema document) schema tracker
      (Selection.tree address (.field chosen inner)) := by
  obtain ⟨-, hfield, -⟩ := (NodeTree.allSteps_node ..).mp hquiet
  rw [NodeTree.forestAllSteps_singleton] at hfield
  obtain ⟨hhere, hparts, -⟩ := (NodeTree.allSteps_node ..).mp hfield
  rw [NodeTree.forestAllSteps_append, NodeTree.forestAllSteps_append] at hparts
  obtain ⟨⟨harguments, hdirectives⟩, hset⟩ := hparts
  rw [NodeTree.forestAllSteps_singleton] at hset
  obtain ⟨-, hinner, -⟩ := (NodeTree.allSteps_node ..).mp hset
  obtain ⟨definition, type, hdefinition, htracked, hfieldOn, htype, hfit⟩ :=
    hon.exists_field hfields hhere
  have hparent : (tracker.enter schema (.field chosen inner)).parent? = some parent := hon.atParent
  have hdirective : (tracker.enter schema (.field chosen inner)).directive = none :=
    hrest.directive
  have howner : Checker.argumentOwner? (tracker.enter schema (.field chosen inner)) =
      some (.field definition.name parent.name, definition.arguments) := by
    simp [Checker.argumentOwner?, hdirective, hparent, hdefinition]
  refine (NodeTree.allSteps_node ..).mpr ⟨trivial, ?_, trivial⟩
  refine (NodeTree.forestAllSteps_singleton ..).mpr ((NodeTree.allSteps_node ..).mpr
    ⟨⟨parent, definition, type, hparent, hdefinition, hfieldOn, htype, hfit,
      hhere.field_supplies hdefinition⟩, ?_, trivial⟩)
  rw [NodeTree.forestAllSteps_append, NodeTree.forestAllSteps_append,
    NodeTree.forestAllSteps_singleton, NodeTree.allSteps_node]
  refine ⟨⟨?_, Directive.trees_resolved _ hdirectives⟩, trivial, ?_, trivial⟩
  · rw [NodeTree.forestAllSteps_map] at harguments ⊢
    exact fun argument hmem => argument.tree_resolved howner (harguments argument hmem)
  · by_cases hempty : inner = []
    · rw [hempty]
      exact NodeTree.forestAllSteps_nil _ _ _
    · have hsetOn := Tracker.On.enter_selectionSet htracked (hfit.mp hempty)
        (Schema.mem_types_of_type? htype) address inner
      exact hbelow _ type ⟨hrest.directive, hrest.argument⟩ hsetOn hinner

theorem Selection.spread_resolved (hconditions : ConditionsKnown schema document)
    {tracker : Tracker} {parent : TypeDefinition} (hon : tracker.On schema parent)
    (address : Address) (chosen : Spread)
    (hquiet : NodeTree.AllSteps (Step.Quiet schema document supplied) schema tracker
      (Selection.tree address (.spread chosen))) :
    NodeTree.AllSteps (Step.Resolved schema document) schema tracker
      (Selection.tree address (.spread chosen)) := by
  obtain ⟨-, hspread, -⟩ := (NodeTree.allSteps_node ..).mp hquiet
  rw [NodeTree.forestAllSteps_singleton] at hspread
  obtain ⟨hhere, hdirectives, -⟩ := (NodeTree.allSteps_node ..).mp hspread
  obtain ⟨fragment, hfragment⟩ := hhere.spread_known
  have hmem : fragment ∈ document.fragments := List.mem_of_find?_eq_some hfragment
  obtain ⟨type, htype, hcomposite⟩ := hconditions fragment hmem
  have hoverlaps := hhere.spread_overlaps hfragment htype hcomposite hon.atParent
  refine (NodeTree.allSteps_node ..).mpr ⟨trivial, ?_, trivial⟩
  exact (NodeTree.forestAllSteps_singleton ..).mpr ((NodeTree.allSteps_node ..).mpr
    ⟨⟨fragment, hfragment, type, parent, htype, hcomposite, hon.atParent, hoverlaps⟩,
      Directive.trees_resolved _ hdirectives, trivial⟩)

/-- Inside an inline fragment the tracker is on a composite type: that of the condition, or without
one that of the set around. -/
theorem Tracker.On.exists_inline {tracker : Tracker} {parent : TypeDefinition}
    (hon : tracker.On schema parent) {head : InlineFragment}
    (hfits : ∀ condition, head.condition = some condition →
      ConditionFits schema (tracker.enter schema (.inline head)) condition) :
    ∃ type, (tracker.enter schema (.inline head)).type? = some type ∧
      type.isComposite = true ∧ type ∈ schema.types.entries := by
  cases hcondition : head.condition with
  | none =>
      refine ⟨parent, ?_, hon.composite, hon.known⟩
      rw [← hon.atType]
      simp [Tracker.enter, Tracker.type?, hcondition]
  | some condition =>
      obtain ⟨type, -, htype, hcomposite, -, -⟩ := hfits condition hcondition
      refine ⟨type, ?_, hcomposite, Schema.mem_types_of_type? htype⟩
      rw [← htype]
      simp [Tracker.enter, Tracker.type?, hcondition]

theorem Selection.inline_resolved {tracker : Tracker} {parent : TypeDefinition}
    (hrest : tracker.AtRest) (hon : tracker.On schema parent) (address : Address)
    (head : InlineFragment) (inner : SelectionSet)
    (hbelow : SelectionSet.ResolvesAt schema document supplied address inner)
    (hquiet : NodeTree.AllSteps (Step.Quiet schema document supplied) schema tracker
      (Selection.tree address (.inline head inner))) :
    NodeTree.AllSteps (Step.Resolved schema document) schema tracker
      (Selection.tree address (.inline head inner)) := by
  obtain ⟨-, hinline, -⟩ := (NodeTree.allSteps_node ..).mp hquiet
  rw [NodeTree.forestAllSteps_singleton] at hinline
  obtain ⟨hhere, hparts, -⟩ := (NodeTree.allSteps_node ..).mp hinline
  rw [NodeTree.forestAllSteps_append, NodeTree.forestAllSteps_singleton] at hparts
  obtain ⟨hdirectives, hset⟩ := hparts
  obtain ⟨-, hinner, -⟩ := (NodeTree.allSteps_node ..).mp hset
  have hfits : ∀ condition, head.condition = some condition →
      ConditionFits schema (tracker.enter schema (.inline head)) condition := by
    intro condition hcondition
    refine hhere.inline_condition hcondition ?_ hon.atParent
    simp [Tracker.enter, Tracker.type?, hcondition]
  obtain ⟨type, htracked, hcomposite, hknown⟩ := hon.exists_inline hfits
  have hsetOn := Tracker.On.enter_selectionSet htracked hcomposite hknown address inner
  refine (NodeTree.allSteps_node ..).mpr ⟨trivial, ?_, trivial⟩
  refine (NodeTree.forestAllSteps_singleton ..).mpr ((NodeTree.allSteps_node ..).mpr
    ⟨hfits, ?_, trivial⟩)
  rw [NodeTree.forestAllSteps_append, NodeTree.forestAllSteps_singleton, NodeTree.allSteps_node]
  exact ⟨Directive.trees_resolved _ hdirectives, trivial,
    hbelow _ type ⟨hrest.directive, hrest.argument⟩ hsetOn hinner, trivial⟩

mutual

theorem Selection.tree_resolved (hfields : schema.FieldTypesKnown)
    (hconditions : ConditionsKnown schema document) {tracker : Tracker} {parent : TypeDefinition}
    (hrest : tracker.AtRest) (hon : tracker.On schema parent) (address : Address)
    (selection : Selection)
    (hquiet : NodeTree.AllSteps (Step.Quiet schema document supplied) schema tracker
      (Selection.tree address selection)) :
    NodeTree.AllSteps (Step.Resolved schema document) schema tracker
      (Selection.tree address selection) := by
  cases selection with
  | field chosen inner =>
      refine Selection.field_resolved hfields hrest hon address chosen inner ?_ hquiet
      exact fun _ _ hbelow htype =>
        Selection.trees_resolved hfields hconditions hbelow htype address 0 inner
  | spread chosen => exact Selection.spread_resolved hconditions hon address chosen hquiet
  | inline head inner =>
      refine Selection.inline_resolved hrest hon address head inner ?_ hquiet
      exact fun _ _ hbelow htype =>
        Selection.trees_resolved hfields hconditions hbelow htype address 0 inner

theorem Selection.trees_resolved (hfields : schema.FieldTypesKnown)
    (hconditions : ConditionsKnown schema document) {tracker : Tracker} {parent : TypeDefinition}
    (hrest : tracker.AtRest) (hon : tracker.On schema parent) (address : Address) (number : Nat)
    (selections : List Selection)
    (hquiet : NodeTree.ForestAllSteps (Step.Quiet schema document supplied) schema tracker
      (Selection.trees address number selections)) :
    NodeTree.ForestAllSteps (Step.Resolved schema document) schema tracker
      (Selection.trees address number selections) := by
  cases selections with
  | nil => exact NodeTree.forestAllSteps_nil _ _ _
  | cons selection rest =>
      obtain ⟨hfirst, hothers⟩ := (NodeTree.forestAllSteps_cons ..).mp hquiet
      refine (NodeTree.forestAllSteps_cons ..).mpr ⟨?_, ?_⟩
      · exact Selection.tree_resolved hfields hconditions hrest hon _ selection hfirst
      · exact Selection.trees_resolved hfields hconditions hrest hon _ _ rest hothers

end

theorem Definition.tree_resolved (hschema : schema.Built) (hfields : schema.FieldTypesKnown)
    (hconditions : ConditionsKnown schema document) (number : Nat) (definition : Definition)
    (hroot : ∀ operation, definition = .operation operation →
      (schema.rootType? operation.kind).isSome = true)
    (hquiet : NodeTree.AllSteps (Step.Quiet schema document supplied) schema Tracker.empty
      (Definition.tree number definition)) :
    NodeTree.AllSteps (Step.Resolved schema document) schema Tracker.empty
      (Definition.tree number definition) := by
  cases definition with
  | operation o =>
      obtain ⟨-, hbelow, -⟩ := (NodeTree.allSteps_node ..).mp hquiet
      rw [NodeTree.forestAllSteps_append, NodeTree.forestAllSteps_append,
        NodeTree.forestAllSteps_singleton] at hbelow
      obtain ⟨⟨hvariables, hdirectives⟩, hset⟩ := hbelow
      obtain ⟨-, hinner, -⟩ := (NodeTree.allSteps_node ..).mp hset
      obtain ⟨type, htype⟩ := Option.isSome_iff_exists.mp (hroot o rfl)
      have hcomposite : type.isComposite = true := by
        have hobject := hschema.isObject_rootType htype
        simp only [TypeDefinition.isObject, beq_iff_eq] at hobject
        simp [TypeDefinition.isComposite, hobject]
      have hknown : type ∈ schema.types.entries := by
        obtain ⟨name, -, hname⟩ := Option.bind_eq_some_iff.mp htype
        exact Schema.mem_types_of_type? hname
      have hset := Tracker.On.enter_selectionSet
        (show (Tracker.empty.enter schema (.operation o)).type? = some type from htype)
        hcomposite hknown [number] o.selections
      have hrest : ((Tracker.empty.enter schema (.operation o)).enter schema
          (.selectionSet [number] o.selections)).AtRest := ⟨rfl, rfl⟩
      refine (NodeTree.allSteps_node ..).mpr ⟨trivial, ?_, trivial⟩
      rw [NodeTree.forestAllSteps_append, NodeTree.forestAllSteps_append,
        NodeTree.forestAllSteps_singleton]
      refine ⟨⟨?_, Directive.trees_resolved _ hdirectives⟩, (NodeTree.allSteps_node ..).mpr
        ⟨trivial, Selection.trees_resolved hfields hconditions hrest hset [number] 0 _ hinner,
          trivial⟩⟩
      rw [NodeTree.forestAllSteps_map] at hvariables ⊢
      intro variableDefinition hmem
      obtain ⟨-, hbelow, -⟩ := (NodeTree.allSteps_node ..).mp (hvariables variableDefinition hmem)
      exact (NodeTree.allSteps_node ..).mpr
        ⟨trivial, Directive.trees_resolved _ hbelow, trivial⟩
  | fragment f =>
      obtain ⟨hhere, hbelow, -⟩ := (NodeTree.allSteps_node ..).mp hquiet
      rw [NodeTree.forestAllSteps_append, NodeTree.forestAllSteps_singleton] at hbelow
      obtain ⟨hdirectives, hset⟩ := hbelow
      obtain ⟨-, hinner, -⟩ := (NodeTree.allSteps_node ..).mp hset
      obtain ⟨type, htype, hcomposite⟩ := hhere.fragment_condition rfl
      have hset := Tracker.On.enter_selectionSet
        (show (Tracker.empty.enter schema (.fragment f)).type? = some type from htype)
        hcomposite (Schema.mem_types_of_type? htype) [number] f.selections
      have hrest : ((Tracker.empty.enter schema (.fragment f)).enter schema
          (.selectionSet [number] f.selections)).AtRest := ⟨rfl, rfl⟩
      refine (NodeTree.allSteps_node ..).mpr ⟨⟨type, htype, hcomposite⟩, ?_, trivial⟩
      rw [NodeTree.forestAllSteps_append, NodeTree.forestAllSteps_singleton]
      exact ⟨Directive.trees_resolved _ hdirectives, (NodeTree.allSteps_node ..).mpr
        ⟨trivial, Selection.trees_resolved hfields hconditions hrest hset [number] 0 _ hinner,
          trivial⟩⟩

theorem conditionsKnown_of_quiet
    (hquiet : ∀ step ∈ document.tree.steps schema, step.Quiet schema document supplied) :
    ConditionsKnown schema document := by
  intro fragment hfragment
  obtain ⟨definition, hdefinition, hfound⟩ := List.mem_filterMap.mp hfragment
  obtain ⟨number, hnumber⟩ := List.mem_iff_getElem?.mp hdefinition
  cases definition with
  | operation o => cases hfound
  | fragment f =>
      cases hfound
      have hstep : ⟨.enter (.fragment fragment),
          Tracker.empty.enter schema (.fragment fragment)⟩ ∈
          (Definition.tree number (.fragment fragment)).steps schema := by
        rw [Definition.steps_eq]
        exact List.mem_cons_self
      exact (hquiet _ (Document.mem_steps_of_mem hnumber hstep)).fragment_condition rfl

end

/-! ## Where directives stand -/

/-- The trees right below a node show what it holds: an argument its value, any other node its
directives. -/
def Node.Shows : Node → List NodeTree → Prop
  | .argument given, children => children = [given.value.tree given.valuePosition]
  | node, children => ∀ directive ∈ node.directives, directive.tree ∈ children

theorem Node.shows_of_isValue {node : Node} (h : node.isValue = true) (children : List NodeTree) :
    node.Shows children := by
  cases node <;> first | exact fun _ hmem => absurd hmem List.not_mem_nil | cases h

theorem Node.tree_mem_of_shows {node : Node} {children : List NodeTree} {directive : Directive}
    (h : node.Shows children) (hdirective : directive ∈ node.directives) :
    directive.tree ∈ children := by
  cases node with
  | argument given => cases hdirective
  | _ => exact h directive hdirective

theorem Argument.trees_show (arguments : List Argument) :
    NodeTree.ForestEvery Node.Shows (arguments.map Argument.tree) := by
  apply NodeTree.forestEvery_of_forall
  intro tree htree
  obtain ⟨argument, -, rfl⟩ := List.mem_map.mp htree
  have hvalue := Value.tree_isValue argument.valuePosition argument.value
  exact ⟨rfl, hvalue.mono (fun _ children hnode => Node.shows_of_isValue hnode children), trivial⟩

theorem Directive.trees_show (directives : List Directive) :
    NodeTree.ForestEvery Node.Shows (directives.map Directive.tree) := by
  apply NodeTree.forestEvery_of_forall
  intro tree htree
  obtain ⟨directive, -, rfl⟩ := List.mem_map.mp htree
  exact ⟨fun _ hmem => absurd hmem List.not_mem_nil, Argument.trees_show directive.arguments⟩

mutual

theorem Selection.tree_shows (address : Address) (selection : Selection) :
    NodeTree.Every Node.Shows (Selection.tree address selection) := by
  cases selection with
  | field chosen inner =>
      refine ⟨by simp [Node.Shows, Node.directives], ⟨?_, ?_⟩, trivial⟩
      · intro directive hmem
        exact List.mem_append_left _ (List.mem_append_right _ (List.mem_map_of_mem hmem))
      · rw [NodeTree.forestEvery_append, NodeTree.forestEvery_append]
        exact ⟨⟨Argument.trees_show _, Directive.trees_show _⟩,
          ⟨by simp [Node.Shows, Node.directives], Selection.trees_show address 0 inner⟩, trivial⟩
  | spread chosen =>
      exact ⟨by simp [Node.Shows, Node.directives],
        ⟨fun directive hmem => List.mem_map_of_mem hmem, Directive.trees_show _⟩, trivial⟩
  | inline head inner =>
      refine ⟨by simp [Node.Shows, Node.directives], ⟨?_, ?_⟩, trivial⟩
      · intro directive hmem
        exact List.mem_append_left _ (List.mem_map_of_mem hmem)
      · rw [NodeTree.forestEvery_append]
        exact ⟨Directive.trees_show _,
          ⟨by simp [Node.Shows, Node.directives], Selection.trees_show address 0 inner⟩, trivial⟩

theorem Selection.trees_show (address : Address) (number : Nat)
    (selections : List Selection) :
    NodeTree.ForestEvery Node.Shows (Selection.trees address number selections) := by
  cases selections with
  | nil => trivial
  | cons selection rest =>
      exact ⟨Selection.tree_shows (number :: address) selection,
        Selection.trees_show address (number + 1) rest⟩

end

theorem Definition.tree_shows (number : Nat) (definition : Definition) :
    NodeTree.Every Node.Shows (Definition.tree number definition) := by
  cases definition with
  | operation o =>
      refine ⟨?_, ?_⟩
      · intro directive hmem
        exact List.mem_append_left _ (List.mem_append_right _ (List.mem_map_of_mem hmem))
      · rw [NodeTree.forestEvery_append, NodeTree.forestEvery_append]
        refine ⟨⟨?_, Directive.trees_show _⟩,
          ⟨by simp [Node.Shows, Node.directives], Selection.trees_show [number] 0 _⟩, trivial⟩
        apply NodeTree.forestEvery_of_forall
        intro tree htree
        obtain ⟨variableDefinition, -, rfl⟩ := List.mem_map.mp htree
        exact ⟨fun directive hmem => List.mem_map_of_mem hmem, Directive.trees_show _⟩
  | fragment f =>
      refine ⟨?_, ?_⟩
      · intro directive hmem
        exact List.mem_append_left _ (List.mem_map_of_mem hmem)
      · rw [NodeTree.forestEvery_append]
        exact ⟨Directive.trees_show _,
          ⟨by simp [Node.Shows, Node.directives], Selection.trees_show [number] 0 _⟩, trivial⟩

theorem Document.tree_shows (document : Document) : NodeTree.Every Node.Shows document.tree := by
  refine ⟨by simp [Node.Shows, Node.directives], NodeTree.forestEvery_of_forall ?_⟩
  intro tree htree
  obtain ⟨number, hnumber, rfl⟩ := List.mem_mapIdx.mp htree
  exact Definition.tree_shows number _

section

variable {schema : Schema} {document : Document} {supplied : Variables}

/-- The locations that the walk is inside of, once a node is entered. -/
def noteLocation (locations : List DirectiveLocation) (node : Node) : List DirectiveLocation :=
  node.directiveLocation?.toList ++ locations

/-- The rule on locations notes the location that a node is, and forgets it again. -/
theorem directivesInValidLocations_forgets :
    Checker.directivesInValidLocations.Forgets schema document supplied noteLocation where
  enter := by
    intro types locations node
    cases node <;> first | rfl | (cases locations <;> rfl)
  leave := by
    intro types locations node
    refine (congrArg Prod.fst (Checker.step_ofStep _ _ _ _ _ _)).trans ?_
    simp only [noteLocation]
    cases node.directiveLocation? <;> rfl

theorem Node.directiveLocation?_of_mem {node : Node} {directive : Directive}
    (h : directive ∈ node.directives) : ∃ location, node.directiveLocation? = some location := by
  cases node with
  | operation o => cases hkind : o.kind <;> simp [Node.directiveLocation?, hkind]
  | fragment | variableDefinition | field | spread | inline => exact ⟨_, rfl⟩
  | document | directive | argument | selectionSet | selection | value | listItem | objectField
  | variableUse => cases h

theorem misplacedDirective_eq_nil {directive : Directive} {definition : DirectiveDefinition}
    {location : DirectiveLocation} (hknown : schema.directive? directive.name = some definition)
    (h : Checker.misplacedDirective schema directive location = []) :
    location ∈ definition.locations := by
  by_cases hmem : location ∈ definition.locations
  · exact hmem
  · simp [Checker.misplacedDirective, hknown, hmem] at h

mutual

theorem NodeTree.directivesPlaced (tracker : Tracker) (locations : List DirectiveLocation)
    (tree : NodeTree) (hshows : tree.Every Node.Shows)
    (hquiet : NodeTree.AllSteps (Step.Quiet schema document supplied) schema tracker tree)
    (hsilent : Checker.directivesInValidLocations.reports schema document supplied locations
      (tree.stepsBelow schema tracker) = []) :
    tree.Every fun node _ => DirectivesPlaced schema node := by
  cases tree with
  | node here children =>
      obtain ⟨-, hbelow, -⟩ := (NodeTree.allSteps_node ..).mp hquiet
      obtain ⟨-, hchildren⟩ := directivesInValidLocations_forgets.reports_node_eq_nil hsilent
      refine ⟨?_, NodeTree.directivesPlaced_forest _ _ children hshows.2 hbelow hchildren⟩
      intro directive hdirective
      have hmem := Node.tree_mem_of_shows hshows.1 hdirective
      obtain ⟨location, hlocation⟩ := Node.directiveLocation?_of_mem hdirective
      obtain ⟨hreport, -⟩ := directivesInValidLocations_forgets.reports_node_eq_nil
        (hchildren directive.tree hmem)
      obtain ⟨hhere, -, -⟩ := (NodeTree.allSteps_node ..).mp
        ((NodeTree.forestAllSteps_iff ..).mp hbelow directive.tree hmem)
      obtain ⟨definition, hknown⟩ := hhere.directive_known
      simp only [Checker.directivesInValidLocations, noteLocation, hlocation, Option.toList_some,
        List.cons_append, List.nil_append] at hreport
      exact ⟨definition, location, hknown, hlocation, misplacedDirective_eq_nil hknown hreport⟩

theorem NodeTree.directivesPlaced_forest (tracker : Tracker)
    (locations : List DirectiveLocation) (trees : List NodeTree)
    (hshows : NodeTree.ForestEvery Node.Shows trees)
    (hquiet : NodeTree.ForestAllSteps (Step.Quiet schema document supplied) schema tracker trees)
    (hsilent : ∀ tree ∈ trees, Checker.directivesInValidLocations.reports schema document supplied
      locations (tree.stepsBelow schema tracker) = []) :
    NodeTree.ForestEvery (fun node _ => DirectivesPlaced schema node) trees := by
  cases trees with
  | nil => trivial
  | cons tree rest =>
      obtain ⟨htree, hrest⟩ := (NodeTree.forestAllSteps_cons ..).mp hquiet
      exact ⟨NodeTree.directivesPlaced tracker locations tree hshows.1 htree
          (hsilent tree List.mem_cons_self),
        NodeTree.directivesPlaced_forest tracker locations rest hshows.2 hrest
          fun other hother => hsilent other (List.mem_cons_of_mem _ hother)⟩

end

end

/-- Take a schema in which the types of all fields are known, and a document that no rule reports
on. The walk of the document is that of its definitions, one after the other, and the document is
resolved. -/
theorem accepted_resolved {schema : Schema} {document : Document} {supplied : Variables}
    (hschema : schema.Built) (hfields : schema.FieldTypesKnown)
    (haccepted : document.diagnostics schema Rule.all supplied = []) :
    document.tree.steps schema = ⟨.enter .document, Tracker.empty⟩ ::
        (document.definitionSteps schema ++ [⟨.leave .document, Tracker.empty⟩]) ∧
      document.Resolved schema := by
  have hquiet := Document.quiet_of_diagnostics_eq_nil haccepted
  refine ⟨Document.steps_eq schema document, ?_, ?_⟩
  · intro number definition hdefinition hroot
    have hbelow : NodeTree.AllSteps (Step.Quiet schema document supplied) schema Tracker.empty
        (Definition.tree number definition) := by
      intro step hstep
      rw [← Definition.steps_eq] at hstep
      exact hquiet step (Document.mem_steps_of_mem hdefinition hstep)
    rw [Definition.steps_eq]
    exact Definition.tree_resolved hschema hfields (conditionsKnown_of_quiet hquiet) number
      definition hroot hbelow
  · have hlocations := (Document.diagnostics_eq_nil_iff schema Rule.all document supplied).mp
      haccepted .directivesInValidLocations (Rule.mem_all _)
    rw [Document.steps_eq_stepsBelow] at hquiet ⊢
    rw [Document.reportsOf, Document.steps_eq_stepsBelow] at hlocations
    have hplaced := NodeTree.directivesPlaced Tracker.empty [] document.tree
      document.tree_shows hquiet hlocations
    intro step hstep
    obtain ⟨-, -, -, hhere, -⟩ := hplaced.of_mem_steps _ hstep
    exact hhere

/-- A query with a variable, directives, a spread and an inline fragment on an interface. -/
theorem accepted_resolved_pets :
    ∃ (schema : Schema) (document : Document), schema.Built ∧ schema.FieldTypesKnown ∧
      document.diagnostics schema Rule.all [] = [] ∧
      document.operations.length = 1 ∧ document.fragments.length = 1 ∧
      document.Resolved schema := by
  have hpass : Schema.textsPass (fun schema document =>
      decide schema.FieldTypesKnown && (document.diagnostics schema Rule.all []).isEmpty &&
        document.operations.length == 1 && document.fragments.length == 1)
      "interface Named{name:String}
       type Dog implements Named{name:String bark(times:Int!):Int}
       type Query{pet(id:ID!):Named}
       directive@once on QUERY"
      "query Q($id:ID!)@once{pet(id:$id){name...F...on Dog@include(if:true){__typename}}}
       fragment F on Dog{bark(times:2)}" = true := by
    decide +kernel
  obtain ⟨schema, document, hschema, hcheck⟩ := Schema.exists_of_textsPass hpass
  simp only [Bool.and_eq_true, decide_eq_true_eq, List.isEmpty_iff, beq_iff_eq] at hcheck
  obtain ⟨⟨⟨hfields, haccepted⟩, hoperations⟩, hfragments⟩ := hcheck
  exact ⟨schema, document, hschema, hfields, haccepted, hoperations, hfragments,
    (accepted_resolved hschema hfields haccepted).2⟩

end QueryAudit
