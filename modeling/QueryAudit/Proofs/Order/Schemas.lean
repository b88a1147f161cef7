import QueryAudit.Proofs.Checkers
import QueryAudit.Proofs.Order.Sorting
import QueryAudit.Proofs.Schemas

/-!
# Schemas up to the order of their tables

Two schemas may list the same types and directives in different orders, and the members of their
types too. Both are set beside a schema with the members of every type sorted. What is looked up,
judged, coerced, compared and tracked is the same in both, but for the order of members in the types
that are tracked.
-/

namespace QueryAudit

namespace TypeDefinition

def sorted (type : TypeDefinition) : TypeDefinition :=
  { type with members := sortNames type.members }

/-- Two types that differ at most in the order of their members. -/
structure Rearranged (a b : TypeDefinition) : Prop where
  members : a.members.Perm b.members
  others : { a with members := b.members } = b

theorem Rearranged.refl (type : TypeDefinition) : type.Rearranged type := ⟨.refl _, rfl⟩

theorem Rearranged.sorted_eq {a b : TypeDefinition} (h : a.Rearranged b) :
    a.sorted = b.sorted := by
  rw [← h.others]
  simp only [sorted, sortNames_eq_of_perm h.members]

variable (type other : TypeDefinition)

@[simp] theorem sorted_name : type.sorted.name = type.name := rfl

@[simp] theorem sorted_kind : type.sorted.kind = type.kind := rfl

@[simp] theorem sorted_inputFields : type.sorted.inputFields = type.inputFields := rfl

@[simp] theorem sorted_isComposite : type.sorted.isComposite = type.isComposite := rfl

@[simp] theorem sorted_isAbstract : type.sorted.isAbstract = type.isAbstract := rfl

@[simp] theorem sorted_isObject : type.sorted.isObject = type.isObject := rfl

theorem mem_sorted_members (name : Name) : name ∈ type.sorted.members ↔ name ∈ type.members :=
  (sortNames_perm type.members).mem_iff

@[simp] theorem sorted_isPossible (name : Name) :
    type.sorted.isPossible name = type.isPossible name := by
  have hmembers : type.sorted.members.contains name = type.members.contains name := by
    rw [Bool.eq_iff_iff, List.contains_iff_mem, List.contains_iff_mem, mem_sorted_members]
  simp only [isPossible, hmembers, sorted_kind, sorted_name]

@[simp] theorem sorted_overlaps : type.sorted.overlaps other.sorted = type.overlaps other := by
  have hany : type.sorted.members.any other.sorted.isPossible =
      type.members.any other.isPossible := by
    rw [Bool.eq_iff_iff, List.any_eq_true, List.any_eq_true]
    simp only [mem_sorted_members, sorted_isPossible]
  simp only [overlaps, hany, sorted_name, sorted_isAbstract, sorted_isPossible]

theorem bind_fieldOn?_sorted (parent : Option TypeDefinition) (name : Name) :
    ((parent.map .sorted).bind fun type => Schema.fieldOn? type name) =
      parent.bind fun type => Schema.fieldOn? type name := by
  cases parent <;> rfl

end TypeDefinition

/-- The second schema reads as the first does with the members of its types sorted, and has the same
types and directives to suggest. -/
structure Schema.SortedAs (schema ordered : Schema) : Prop where
  type? : ∀ name, ordered.type? name = (schema.type? name).map .sorted
  directive? : ∀ name, ordered.directive? name = schema.directive? name
  rootName? : ∀ kind, ordered.rootName? kind = schema.rootName? kind
  converters : ordered.converters = schema.converters
  typeNames : (ordered.types.entries.map TypeDefinition.name).Perm
    (schema.types.entries.map TypeDefinition.name)
  directiveNames : (ordered.directives.entries.map DirectiveDefinition.name).Perm
    (schema.directives.entries.map DirectiveDefinition.name)

/-! ## Schemas in another order -/

namespace Schema

/-- Two schemas that differ at most in the order of their types, of their directives, and of the
members of a type. -/
structure Rearranged (a b : Schema) : Prop where
  types : ∃ between, a.types.Perm between ∧
    List.Forall₂ (fun x y => x.1 = y.1 ∧ x.2.Rearranged y.2) between b.types
  directives : a.directives.Perm b.directives
  others : { a with types := b.types, directives := b.directives } = b

/-- The tables of a schema have each name once. -/
structure NamesDistinct (schema : Schema) : Prop where
  types : schema.types.names.Nodup
  directives : schema.directives.names.Nodup

def sortMembers (types : NameTable TypeDefinition) : NameTable TypeDefinition :=
  types.map fun entry => (entry.1, entry.2.sorted)

theorem find?_sortMembers (types : NameTable TypeDefinition) (name : Name) :
    (sortMembers types).find? name = (types.find? name).map .sorted :=
  NameTable.find?_map types (fun _ type => type.sorted) name

theorem names_sortMembers (types : NameTable TypeDefinition) :
    (sortMembers types).names = types.names := by
  simp only [sortMembers, NameTable.names, List.map_map]
  rfl

theorem entries_sortMembers (types : NameTable TypeDefinition) :
    (sortMembers types).entries = types.entries.map .sorted := by
  simp only [sortMembers, NameTable.entries, List.map_map]
  rfl

theorem withMembers_eq (types : NameTable TypeDefinition) (name : Name) (type : TypeDefinition) :
    withMembers types name type =
      if type.kind = .interface ∧ implementors types name ≠ [] then
        { type with members := implementors types name }
      else type := by
  unfold withMembers
  cases type.kind <;> cases implementors types name <;> simp

def sorted (schema : Schema) : Schema := { schema with types := sortMembers schema.types }

namespace Rearranged

variable {a b : Schema}

theorem refl (schema : Schema) : schema.Rearranged schema := by
  refine ⟨⟨schema.types, .refl _, ?_⟩, .refl _, rfl⟩
  exact List.forall₂_same.mpr fun entry _ => ⟨rfl, .refl entry.2⟩

theorem sortMembers_perm (h : a.Rearranged b) :
    (sortMembers a.types).Perm (sortMembers b.types) := by
  obtain ⟨between, hperm, halike⟩ := h.types
  have heq : sortMembers between = sortMembers b.types := by
    rw [← List.forall₂_eq_eq_eq, sortMembers, sortMembers, List.forall₂_map_left_iff,
      List.forall₂_map_right_iff]
    refine halike.imp fun x y hxy => ?_
    rw [hxy.1, hxy.2.sorted_eq]
  rw [← heq]
  exact hperm.map _

theorem sortedAs (h : a.Rearranged b) (ha : a.NamesDistinct) : b.SortedAs a.sorted where
  type? name := by
    have hfind := NameTable.find?_eq_of_perm h.sortMembers_perm
      ((names_sortMembers a.types).symm ▸ ha.types) name
    exact hfind.trans (find?_sortMembers b.types name)
  directive? name := NameTable.find?_eq_of_perm h.directives ha.directives name
  rootName? kind := by rw [← h.others]; cases kind <;> rfl
  converters := by rw [← h.others]; rfl
  typeNames := by
    have hnames := (h.sortMembers_perm.map Prod.snd).map TypeDefinition.name
    have hb : ((sortMembers b.types).entries.map TypeDefinition.name) =
        b.types.entries.map TypeDefinition.name := by
      simp only [entries_sortMembers, List.map_map]
      rfl
    exact hb ▸ hnames
  directiveNames := (h.directives.map Prod.snd).map DirectiveDefinition.name

theorem implementors_perm (h : a.Rearranged b) (interface : Name) :
    (implementors a.types interface).Perm (implementors b.types interface) := by
  have hsorted : ∀ types : NameTable TypeDefinition,
      implementors (sortMembers types) interface = implementors types interface := by
    intro types
    simp only [implementors, entries_sortMembers, List.filter_map, List.map_map]
    rfl
  rw [← hsorted a.types, ← hsorted b.types]
  exact ((h.sortMembers_perm.map Prod.snd).filter _).map _

theorem withMembers {x y : TypeDefinition} (h : a.Rearranged b) (hxy : x.Rearranged y)
    (name : Name) :
    (Schema.withMembers a.types name x).Rearranged (Schema.withMembers b.types name y) := by
  have hperm := h.implementors_perm name
  have hkind : x.kind = y.kind := by rw [← hxy.others]
  have hnone : implementors a.types name = [] ↔ implementors b.types name = [] :=
    ⟨fun hnil => (hnil ▸ hperm).nil_eq.symm, fun hnil => (hnil ▸ hperm).eq_nil⟩
  rw [withMembers_eq, withMembers_eq, hkind]
  simp only [ne_eq, hnone]
  split
  · exact ⟨hperm, by rw [← hxy.others]⟩
  · exact hxy

/-- Where types are rearranged, so are the members that interfaces get. -/
theorem addMembers (h : a.Rearranged b) : a.addMembers.Rearranged b.addMembers := by
  obtain ⟨between, hperm, halike⟩ := h.types
  refine ⟨?types, h.directives, ?others⟩
  case types =>
    rw [addMembers_types, addMembers_types]
    refine ⟨_, hperm.map _, ?_⟩
    rw [List.forall₂_map_left_iff, List.forall₂_map_right_iff]
    refine halike.imp fun x y hxy => ⟨hxy.1, ?_⟩
    rw [hxy.1]
    exact h.withMembers hxy.2 y.1
  case others =>
    exact congrArg (fun schema : Schema => { schema with types := b.addMembers.types }) h.others

end Rearranged

end Schema

variable {schema ordered : Schema}

/-! ## What is asked of a schema -/

namespace Schema.SortedAs

theorem concreteType? (h : schema.SortedAs ordered) (ref : TypeRef) :
    ordered.concreteType? ref = (schema.concreteType? ref).map .sorted :=
  h.type? ref.concreteName

theorem bind_concreteType? (h : schema.SortedAs ordered) (definition : Option FieldDefinition) :
    (definition.bind fun d => ordered.concreteType? d.type) =
      (definition.bind fun d => schema.concreteType? d.type).map .sorted := by
  cases definition with
  | none => rfl
  | some d => exact h.concreteType? d.type

theorem rootType? (h : schema.SortedAs ordered) (kind : OperationKind) :
    ordered.rootType? kind = (schema.rootType? kind).map .sorted := by
  unfold Schema.rootType?
  rw [h.rootName?]
  cases schema.rootName? kind with
  | none => rfl
  | some name => exact h.type? name

theorem convertScalar (h : schema.SortedAs ordered) (name : Name) (value : Constant) :
    ordered.convertScalar name value = schema.convertScalar name value := by
  unfold Schema.convertScalar
  rw [h.converters]

theorem isInputType (h : schema.SortedAs ordered) (ref : TypeRef) :
    ordered.isInputType ref = schema.isInputType ref := by
  unfold Schema.isInputType
  rw [h.concreteType?]
  cases schema.concreteType? ref <;> rfl

theorem isLeafName (h : schema.SortedAs ordered) (name : Name) :
    ordered.isLeafName name = schema.isLeafName name := by
  unfold Schema.isLeafName
  rw [h.type?]
  cases schema.type? name <;> rfl

theorem isSubtype (h : schema.SortedAs ordered) (sub super : TypeRef) :
    ordered.isSubtype sub super = schema.isSubtype sub super := by
  induction sub generalizing super with
  | named sub subNonNull =>
      cases super with
      | named super superNonNull =>
          simp only [Schema.isSubtype, h.type?]
          cases schema.type? sub <;> cases schema.type? super <;> simp
      | list super superNonNull => rfl
  | list sub subNonNull ih =>
      cases super with
      | named super superNonNull => rfl
      | list super superNonNull => simp only [Schema.isSubtype, ih]

theorem allowsVariable (h : schema.SortedAs ordered) (declared : TypeRef)
    (default : Option Constant) (place : TypeRef) (placeHasDefault : Bool) :
    ordered.allowsVariable declared default place placeHasDefault =
      schema.allowsVariable declared default place placeHasDefault := by
  simp only [Schema.allowsVariable, h.isSubtype]

theorem typesConflict (h : schema.SortedAs ordered) (first second : TypeRef) :
    ordered.typesConflict first second = schema.typesConflict first second := by
  induction first generalizing second with
  | named first firstNonNull =>
      cases second with
      | named second secondNonNull => simp only [Schema.typesConflict, h.isLeafName]
      | list second secondNonNull => rfl
  | list first firstNonNull ih =>
      cases second with
      | named second secondNonNull => rfl
      | list second secondNonNull => simp only [Schema.typesConflict, ih]

end Schema.SortedAs

/-! ## Values -/

namespace Value

variable {ν : Type}

theorem judgeNamed_sorted (h : schema.SortedAs ordered) (value : Value ν)
    (fields : NameTable Judgement) (name : Name) (path : ValuePath) :
    judgeNamed ordered value fields name path = judgeNamed schema value fields name path := by
  unfold judgeNamed
  rw [h.type?]
  cases schema.type? name with
  | none => rfl
  | some type => simp only [Option.map_some, h.convertScalar]; rfl

mutual

theorem judge_sorted (h : schema.SortedAs ordered) (judgeVar : ν → Judgement) (value : Value ν)
    (type : TypeRef) (path : ValuePath) :
    judge ordered judgeVar value type path = judge schema judgeVar value type path := by
  cases value with
  | var x => rfl
  | null => rfl
  | number n | string s | boolean b | enum e =>
      simp only [judge]
      exact judgeNamed_sorted h _ _ _ _
  | list items =>
      cases type with
      | named name nonNull => exact judgeNamed_sorted h _ [] name path
      | list element nonNull => exact judgeItems_sorted h judgeVar items element path 0
  | object fields =>
      simp only [judge, judgeFields_sorted h judgeVar fields]
      exact judgeNamed_sorted h _ _ _ _

theorem judgeItems_sorted (h : schema.SortedAs ordered) (judgeVar : ν → Judgement)
    (items : List (Value ν)) (element : TypeRef) (path : ValuePath) (index : Nat) :
    judgeItems ordered judgeVar items element path index =
      judgeItems schema judgeVar items element path index := by
  cases items with
  | nil => rfl
  | cons item rest =>
      simp only [judgeItems, judge_sorted h judgeVar item,
        judgeItems_sorted h judgeVar rest element path (index + 1)]

theorem judgeFields_sorted (h : schema.SortedAs ordered) (judgeVar : ν → Judgement)
    (fields : List (Name × Value ν)) :
    judgeFields ordered judgeVar fields = judgeFields schema judgeVar fields := by
  cases fields with
  | nil => rfl
  | cons field rest =>
      have hfield : judge ordered judgeVar field.2 = judge schema judgeVar field.2 := by
        funext type path
        exact judge_sorted h judgeVar field.2 type path
      simp only [judgeFields, hfield, judgeFields_sorted h judgeVar rest]

end

theorem fault?_sorted (h : schema.SortedAs ordered) (supplied : Variables) (type : TypeRef)
    (value : Literal) (path : ValuePath) :
    value.fault? ordered supplied type path = value.fault? schema supplied type path := by
  have hsupplied : judgeSupplied ordered supplied = judgeSupplied schema supplied := by
    funext name type path
    simp only [judgeSupplied, judgeConstant]
    cases supplied.find? name with
    | none => rfl
    | some constant => exact judge_sorted h Empty.elim constant type path
  unfold fault?
  rw [hsupplied, judge_sorted h]

theorem coerceNamed_sorted (h : schema.SortedAs ordered) (value : Value ν) (name : Name) :
    coerceNamed ordered value name = coerceNamed schema value name := by
  unfold coerceNamed
  rw [h.type?]
  cases schema.type? name with
  | none => rfl
  | some type => simp only [Option.map_some, TypeDefinition.sorted_kind, h.convertScalar]

mutual

theorem coerce_sorted (h : schema.SortedAs ordered) (value : Value ν) (type : Option TypeRef) :
    value.coerce ordered type = value.coerce schema type := by
  cases value with
  | var x => cases type <;> rfl
  | null => cases type <;> rfl
  | number n | string s | boolean b | enum e =>
      cases type with
      | none => rfl
      | some type => simp only [coerce, coerceNamed_sorted h]
  | list items =>
      rcases type with - | ⟨element, nonNull⟩ | ⟨element, nonNull⟩
      · rfl
      · simp only [coerce, coerceNamed_sorted h]
      · simp only [coerce, coerceItems_sorted h items element]
  | object fields =>
      cases type with
      | none => rfl
      | some type =>
          simp only [coerce, h.concreteType?]
          cases schema.concreteType? type with
          | none => rfl
          | some definition =>
              simp only [Option.map_some, TypeDefinition.sorted_kind,
                TypeDefinition.sorted_inputFields, coerceNamed_sorted h,
                coerceFields_sorted h definition.inputFields fields]

theorem coerceItems_sorted (h : schema.SortedAs ordered) (items : List (Value ν))
    (element : TypeRef) : coerceItems ordered items element = coerceItems schema items element := by
  cases items with
  | nil => rfl
  | cons item rest =>
      simp only [coerceItems, coerce_sorted h item, coerceItems_sorted h rest element]

theorem coerceFields_sorted (h : schema.SortedAs ordered) (inputs : NameTable InputValue)
    (fields : List (Name × Value ν)) :
    coerceFields ordered inputs fields = coerceFields schema inputs fields := by
  cases fields with
  | nil => rfl
  | cons field rest =>
      simp only [coerceFields, coerce_sorted h field.2, coerceFields_sorted h inputs rest]

end

end Value

/-! ## Types along a walk -/

namespace Tracker

def sorted (tracker : Tracker) : Tracker :=
  { tracker with
    types := tracker.types.map (Option.map .sorted)
    parents := tracker.parents.map (Option.map .sorted) }

variable (tracker : Tracker)

@[simp] theorem type?_sorted : tracker.sorted.type? = tracker.type?.map .sorted := by
  unfold type? sorted
  cases tracker.types <;> rfl

@[simp] theorem parent?_sorted : tracker.sorted.parent? = tracker.parent?.map .sorted := by
  unfold parent? sorted
  cases tracker.parents <;> rfl

@[simp] theorem field?_sorted : tracker.sorted.field? = tracker.field? := rfl

@[simp] theorem inputType?_sorted : tracker.sorted.inputType? = tracker.inputType? := rfl

@[simp] theorem argument_sorted : tracker.sorted.argument = tracker.argument := rfl

@[simp] theorem directive_sorted : tracker.sorted.directive = tracker.directive := rfl

theorem inputField?_sorted (h : schema.SortedAs ordered) (expected : Option TypeRef)
    (name : Name) : inputField? ordered expected name = inputField? schema expected name := by
  unfold inputField?
  split
  · rw [h.type?]
    cases schema.type? _ <;> rfl
  · rfl

theorem enter_sorted (h : schema.SortedAs ordered) (node : Node) :
    tracker.sorted.enter ordered node = (tracker.enter schema node).sorted := by
  cases node with
  | operation operation => simp only [enter, h.rootType?, Tracker.sorted, List.map_cons]
  | fragment fragment => simp only [enter, h.type?, Tracker.sorted, List.map_cons]
  | inline fragment =>
      cases hcondition : fragment.condition with
      | none => simp only [enter, hcondition, type?_sorted]; rfl
      | some condition => simp only [enter, hcondition, h.type?]; rfl
  | selectionSet address selections =>
      have hcomposite : (tracker.type?.map .sorted).filter TypeDefinition.isComposite =
          (tracker.type?.filter TypeDefinition.isComposite).map .sorted := by
        rw [Option.filter_map]
        rfl
      simp only [enter, type?_sorted, hcomposite]
      rfl
  | field field selections =>
      simp only [enter, parent?_sorted, TypeDefinition.bind_fieldOn?_sorted, h.bind_concreteType?]
      rfl
  | directive directive => simp only [enter, h.directive?]; rfl
  | objectField position name value =>
      simp only [enter, inputType?_sorted, inputField?_sorted h]
      rfl
  -- the other nodes change at most what is expected of values, which holds no type definitions
  | document | variableDefinition definition | argument argument | selection selection
  | spread spread | value position value | listItem position value
  | variableUse position name => rfl

theorem leave_sorted (node : Node) : tracker.sorted.leave node = (tracker.leave node).sorted := by
  cases node <;> simp only [leave, Tracker.sorted, popInput, List.map_tail]

end Tracker

namespace Step

def sorted (step : Step) : Step := { step with types := step.types.sorted }

end Step

theorem Tracker.steps_sorted (h : schema.SortedAs ordered) (tracker : Tracker)
    (events : List Event) :
    Tracker.steps ordered tracker.sorted events =
      (Tracker.steps schema tracker events).map .sorted := by
  induction events generalizing tracker with
  | nil => rfl
  | cons event rest ih =>
      cases event with
      | enter node =>
          simp only [Tracker.steps, tracker.enter_sorted h, ih, List.map_cons]
          rfl
      | leave node =>
          simp only [Tracker.steps, tracker.leave_sorted, ih, List.map_cons]
          rfl

/-- A walk takes the same steps, with the members of the tracked types sorted. -/
theorem NodeTree.steps_sorted (h : schema.SortedAs ordered) (tree : NodeTree) :
    tree.steps ordered = (tree.steps schema).map .sorted :=
  Tracker.steps_sorted h Tracker.empty tree.events

namespace VariableUse

theorem inTree_sorted (h : schema.SortedAs ordered) (tree : NodeTree) :
    inTree ordered tree = inTree schema tree := by
  unfold inTree
  rw [tree.steps_sorted h, List.filterMap_map]
  rfl

theorem ofOperation_sorted (h : schema.SortedAs ordered) (document : Document)
    (operation : Operation) :
    ofOperation ordered document operation = ofOperation schema document operation := by
  simp only [ofOperation, inTree_sorted h]

end VariableUse

end QueryAudit
