import QueryAudit.Merge
import QueryAudit.Proofs.Tables
import QueryAudit.Proofs.Walk

/-!
# The selection sets of a document

An address leads from a document to one selection set, and the way there determines the composite
type on which the set selects. `setAt?` follows an address. The walk enters exactly the sets that
addresses lead to, each with the parent type found on the way.
-/

namespace QueryAudit

namespace Schema

/-- Only types on which fields can be selected have fields. -/
def FieldsOnComposites (schema : Schema) : Prop :=
  ∀ type ∈ schema.types.entries, type.isComposite = false → type.fields.names = []

instance (schema : Schema) : Decidable schema.FieldsOnComposites :=
  inferInstanceAs (Decidable (∀ type ∈ schema.types.entries,
    type.isComposite = false → type.fields.names = []))

/-- A type that may be unknown is one of the schema where it is known. -/
def Lists (schema : Schema) (type : Option TypeDefinition) : Prop :=
  ∀ known, type = some known → known ∈ schema.types.entries

theorem lists_type? (schema : Schema) (name : Name) : schema.Lists (schema.type? name) :=
  fun _ h => NameTable.mem_entries_of_find? h

theorem lists_bind {α : Type} (schema : Schema) (start : Option α)
    (next : α → Option TypeDefinition) (h : ∀ a, schema.Lists (next a)) :
    schema.Lists (start.bind next) := by
  intro known hknown
  obtain ⟨a, -, ha⟩ := Option.bind_eq_some_iff.mp hknown
  exact h a known ha

end Schema

/-- A type, if it is known and fields can be selected on it. -/
def selectable (type : Option TypeDefinition) : Option TypeDefinition :=
  type.filter TypeDefinition.isComposite

@[simp] theorem selectable_selectable (type : Option TypeDefinition) :
    selectable (selectable type) = selectable type := by
  cases type with
  | none => rfl
  | some known => cases hkind : known.isComposite <;> simp [selectable, Option.filter, hkind]

theorem Schema.Lists.selectable {schema : Schema} {type : Option TypeDefinition}
    (h : schema.Lists type) : schema.Lists (selectable type) :=
  fun known hknown => h known (Option.filter_eq_some_iff.mp hknown).1

/-- What a field name means on a type does not depend on types that have no fields. -/
theorem bind_fieldOn?_selectable {schema : Schema} (hschema : schema.FieldsOnComposites)
    {type : Option TypeDefinition} (htype : schema.Lists type) (name : Name) :
    (selectable type).bind (fun known => Schema.fieldOn? known name) =
      type.bind fun known => Schema.fieldOn? known name := by
  cases type with
  | none => rfl
  | some known =>
      cases hkind : known.isComposite with
      | true => simp [selectable, Option.filter, hkind]
      | false =>
          have hnames := hschema known (htype known rfl) hkind
          have hfind : known.fields.find? name = none := by
            cases hfound : known.fields.find? name with
            | none => rfl
            | some field =>
                have hmem := (NameTable.find?_isSome_iff_mem_names known.fields name).mp
                  (by simp [hfound])
                rw [hnames] at hmem
                cases hmem
          simp [selectable, Option.filter, Schema.fieldOn?, hkind, hfind]

/-! ## Following an address -/

def Definition.scope (schema : Schema) : Definition → Option TypeDefinition
  | .operation o => schema.rootType? o.kind
  | .fragment f => schema.type? f.condition

/-- The selection set that an item of a set has, with the type on which it selects; the set that
holds the item selects on `parent`. -/
def Selection.inside? (schema : Schema) (parent : Option TypeDefinition) :
    Selection → Option (Option TypeDefinition × SelectionSet)
  | .field chosen inner =>
      let definition := parent.bind fun type => Schema.fieldOn? type chosen.name
      some (definition.bind fun d => schema.concreteType? d.type, inner)
  | .spread _ => none
  | .inline head inner =>
      let type := match head.condition with
        | some condition => schema.type? condition
        | none => parent
      some (type, inner)

namespace Document

/-- The selection set at an address, with the type on which it selects if fields can be selected on
that. -/
def setAt? (schema : Schema) (document : Document) :
    Address → Option (Option TypeDefinition × SelectionSet)
  | [] => none
  | [number] =>
      document.definitions[number]?.map fun definition =>
        (selectable (definition.scope schema), definition.selections)
  | number :: above :: address =>
      (setAt? schema document (above :: address)).bind fun outer =>
        (outer.2[number]?.bind (Selection.inside? schema outer.1)).map fun inner =>
          (selectable inner.1, inner.2)

theorem setAt?_definition {schema : Schema} {document : Document} {number : Nat}
    {definition : Definition} (h : document.definitions[number]? = some definition) :
    document.setAt? schema [number] =
      some (selectable (definition.scope schema), definition.selections) := by
  rw [setAt?, h]
  rfl

theorem setAt?_item {schema : Schema} {document : Document} {number : Nat} {address : Address}
    {outer type : Option TypeDefinition} {siblings selections : SelectionSet}
    {selection : Selection} (houter : document.setAt? schema address = some (outer, siblings))
    (hselection : siblings[number]? = some selection)
    (hinside : selection.inside? schema outer = some (type, selections)) :
    document.setAt? schema (number :: address) = some (selectable type, selections) := by
  cases address with
  | nil => cases houter
  | cons above rest =>
      simp only [setAt?, houter, Option.bind_some, hselection, hinside, Option.map_some]

/-- Every set that an address leads to is that of a definition or stands in an item of another. -/
@[elab_as_elim]
theorem setAt?_induction {schema : Schema} {document : Document}
    {motive : (address : Address) → (type : Option TypeDefinition) → (selections : SelectionSet) →
      document.setAt? schema address = some (type, selections) → Prop}
    (definition : ∀ number definition (h : document.definitions[number]? = some definition),
      motive [number] (selectable (definition.scope schema)) definition.selections
        (setAt?_definition h))
    (item : ∀ number address outer siblings selection type selections
      (houter : document.setAt? schema address = some (outer, siblings))
      (hselection : siblings[number]? = some selection)
      (hinside : selection.inside? schema outer = some (type, selections)),
      motive address outer siblings houter →
        motive (number :: address) (selectable type) selections
          (setAt?_item houter hselection hinside))
    {address : Address} {type : Option TypeDefinition} {selections : SelectionSet}
    (h : document.setAt? schema address = some (type, selections)) :
    motive address type selections h := by
  induction address generalizing type selections with
  | nil => cases h
  | cons number rest ih =>
      cases rest with
      | nil =>
          obtain ⟨found, hfound, heq⟩ := Option.map_eq_some_iff.mp h
          cases heq
          exact definition number found hfound
      | cons above address =>
          obtain ⟨⟨outer, siblings⟩, houter, hinner⟩ := Option.bind_eq_some_iff.mp h
          obtain ⟨⟨inside, inner⟩, hinside, heq⟩ := Option.map_eq_some_iff.mp hinner
          obtain ⟨selection, hselection, hscope⟩ := Option.bind_eq_some_iff.mp hinside
          cases heq
          exact item number (above :: address) outer siblings selection inside inner houter
            hselection hscope (ih houter)

/-- What an address leads to is selectable and listed in the schema. -/
theorem selectable_of_setAt? {schema : Schema} {document : Document} {address : Address}
    {type : Option TypeDefinition} {selections : SelectionSet}
    (h : document.setAt? schema address = some (type, selections)) :
    selectable type = type ∧ schema.Lists type := by
  induction h using setAt?_induction with
  | definition number definition hdefinition =>
      refine ⟨selectable_selectable _, Schema.Lists.selectable ?_⟩
      cases definition with
      | operation o => exact schema.lists_bind _ _ schema.lists_type?
      | fragment f => exact schema.lists_type? _
  | item number address outer siblings selection type selections _ _ hinside ih =>
      refine ⟨selectable_selectable _, Schema.Lists.selectable ?_⟩
      cases selection with
      | field chosen below =>
          cases hinside
          exact schema.lists_bind _ _ fun d => schema.lists_type? _
      | spread chosen => cases hinside
      | inline head below =>
          cases hinside
          cases head.condition with
          | some condition => exact schema.lists_type? condition
          | none => exact ih.2

end Document

/-! ## The walk enters the sets that addresses lead to -/

/-- A step that enters a selection set enters the one at its address, on the type tracked. -/
def Step.EntersPlaced (schema : Schema) (document : Document) (step : Step) : Prop :=
  ∀ address selections, step.event = .enter (.selectionSet address selections) →
    document.setAt? schema address = some (step.types.parent?, selections)

theorem Step.entersPlaced_of_isPart {schema : Schema} {document : Document} {step : Step}
    (h : step.event.node.isPart = true) : step.EntersPlaced schema document := by
  intro address selections hevent
  rw [hevent] at h
  cases h

theorem NodeTree.ForestEvery.entersPlaced {schema : Schema} {document : Document}
    {trees : List NodeTree} (h : NodeTree.ForestEvery (fun node _ => node.isPart = true) trees)
    (tracker : Tracker) :
    NodeTree.ForestAllSteps (Step.EntersPlaced schema document) schema tracker trees := by
  intro step hstep
  obtain ⟨-, -, -, hpart, -⟩ := h.of_mem_steps trees hstep
  exact Step.entersPlaced_of_isPart hpart

/-- What is tracked inside a selection set agrees with what its address leads to. -/
structure Tracker.Inside (tracker : Tracker) (type : Option TypeDefinition) : Prop where
  parent : tracker.parent? = type
  current : selectable tracker.type? = type

theorem Tracker.inside_selectionSet (schema : Schema) (tracker : Tracker) (address : Address)
    (selections : SelectionSet) :
    (tracker.enter schema (.selectionSet address selections)).Inside (selectable tracker.type?) :=
  ⟨rfl, rfl⟩

theorem Tracker.selectable_type?_inline {schema : Schema} {tracker : Tracker}
    {type : Option TypeDefinition} (h : tracker.Inside type) (head : InlineFragment) :
    selectable (tracker.enter schema (.inline head)).type? =
      selectable (match head.condition with
        | some condition => schema.type? condition
        | none => type) := by
  have hcurrent := h.current
  cases hcondition : head.condition with
  | some condition => simp [Tracker.enter, Tracker.type?, hcondition]
  | none =>
      have hselectable : selectable type = type := by
        rw [← hcurrent, selectable_selectable]
      simp only [Tracker.type?] at hcurrent
      simp [Tracker.enter, Tracker.type?, hcondition, hcurrent, hselectable]

mutual

theorem Selection.tree_entersPlaced {schema : Schema} {document : Document} {tracker : Tracker}
    {type : Option TypeDefinition} (h : tracker.Inside type) (address : Address)
    (selection : Selection)
    (hset : ∀ inner, selection.inside? schema type = some inner →
      document.setAt? schema address = some (selectable inner.1, inner.2)) :
    NodeTree.AllSteps (Step.EntersPlaced schema document) schema tracker
      (Selection.tree address selection) := by
  cases selection with
  | field chosen inner =>
      have hinner := hset _ rfl
      rw [← h.parent] at hinner
      rw [Selection.tree, NodeTree.allSteps_node, NodeTree.forestAllSteps_singleton,
        NodeTree.allSteps_node, NodeTree.forestAllSteps_append, NodeTree.forestAllSteps_append,
        NodeTree.forestAllSteps_singleton, NodeTree.allSteps_node]
      refine ⟨nofun, ⟨nofun, ⟨⟨(Argument.trees_arePart _).entersPlaced _,
        (Directive.trees_arePart _).entersPlaced _⟩, ?_, ?_, nofun⟩, nofun⟩, nofun⟩
      · rintro _ _ ⟨⟩
        exact hinner
      · exact Selection.trees_entersPlaced (Tracker.inside_selectionSet ..) address 0 inner hinner
          fun _ => by rw [Nat.zero_add]
  | spread chosen =>
      rw [Selection.tree, NodeTree.allSteps_node, NodeTree.forestAllSteps_singleton,
        NodeTree.allSteps_node]
      exact ⟨nofun, ⟨nofun, (Directive.trees_arePart _).entersPlaced _, nofun⟩, nofun⟩
  | inline head inner =>
      have hinner := hset _ rfl
      rw [← Tracker.selectable_type?_inline h] at hinner
      rw [Selection.tree, NodeTree.allSteps_node, NodeTree.forestAllSteps_singleton,
        NodeTree.allSteps_node, NodeTree.forestAllSteps_append,
        NodeTree.forestAllSteps_singleton, NodeTree.allSteps_node]
      refine ⟨nofun, ⟨nofun, ⟨(Directive.trees_arePart _).entersPlaced _, ?_, ?_, nofun⟩, nofun⟩,
        nofun⟩
      · rintro _ _ ⟨⟩
        exact hinner
      · exact Selection.trees_entersPlaced (Tracker.inside_selectionSet ..) address 0 inner hinner
          fun _ => by rw [Nat.zero_add]

theorem Selection.trees_entersPlaced {schema : Schema} {document : Document} {tracker : Tracker}
    {type : Option TypeDefinition} (h : tracker.Inside type) (address : Address) (number : Nat)
    (rest : List Selection) {all : List Selection}
    (hset : document.setAt? schema address = some (type, all))
    (hrest : ∀ index, rest[index]? = all[number + index]?) :
    NodeTree.ForestAllSteps (Step.EntersPlaced schema document) schema tracker
      (Selection.trees address number rest) := by
  cases rest with
  | nil => exact NodeTree.forestAllSteps_nil _ _ _
  | cons selection others =>
      have hhead : all[number]? = some selection := (hrest 0).symm
      rw [Selection.trees, NodeTree.forestAllSteps_cons]
      constructor
      · exact Selection.tree_entersPlaced h (number :: address) selection fun inner hinner =>
          Document.setAt?_item hset hhead hinner
      · refine Selection.trees_entersPlaced h address (number + 1) others hset fun index => ?_
        rw [Nat.add_assoc, Nat.add_comm 1 index, ← hrest (index + 1)]
        rfl

end

theorem Tracker.type?_enter_definition (schema : Schema) (tracker : Tracker)
    (definition : Definition) :
    (tracker.enter schema definition.node).type? = definition.scope schema := by
  cases definition <;> rfl

/-- The trees right below a definition are that of its selection set and trees without sets. -/
theorem Definition.trees_eq (number : Nat) (definition : Definition) :
    ∃ heads, definition.trees number =
        heads ++ [SelectionSet.tree [number] definition.selections] ∧
      NodeTree.ForestEvery (fun node _ => ∀ address selections,
        node ≠ .selectionSet address selections) heads := by
  have hpart : ∀ (node : Node) (_ : List NodeTree), node.isPart = true →
      ∀ address selections, node ≠ .selectionSet address selections := by
    rintro node - h address selections rfl
    cases h
  cases definition with
  | operation o =>
      refine ⟨_, rfl, ?_⟩
      rw [NodeTree.forestEvery_append]
      refine ⟨NodeTree.forestEvery_of_forall ?_, (Directive.trees_arePart _).mono hpart⟩
      intro tree htree
      obtain ⟨definition, -, rfl⟩ := List.mem_map.mp htree
      exact ⟨nofun, (Directive.trees_arePart _).mono hpart⟩
  | fragment f => exact ⟨_, rfl, (Directive.trees_arePart _).mono hpart⟩

theorem Definition.tree_entersPlaced {schema : Schema} {document : Document} {number : Nat}
    {definition : Definition} (h : document.definitions[number]? = some definition) :
    NodeTree.AllSteps (Step.EntersPlaced schema document) schema Tracker.empty
      (Definition.tree number definition) := by
  have hset : document.setAt? schema [number] =
      some (selectable (definition.scope schema), definition.selections) :=
    Document.setAt?_definition h
  obtain ⟨heads, htrees, hheads⟩ := Definition.trees_eq number definition
  rw [Definition.tree_eq, NodeTree.allSteps_node, htrees, NodeTree.forestAllSteps_append,
    NodeTree.forestAllSteps_singleton, SelectionSet.tree, NodeTree.allSteps_node]
  rw [← Tracker.type?_enter_definition schema Tracker.empty definition] at hset
  refine ⟨?_, ⟨?_, ?_, ?_, nofun⟩, nofun⟩
  · cases definition <;> exact nofun
  · intro step hstep address selections hevent
    obtain ⟨-, -, -, hnode, -⟩ := hheads.of_mem_steps heads hstep
    rw [hevent] at hnode
    exact absurd rfl (hnode address selections)
  · rintro _ _ ⟨⟩
    exact hset
  · exact Selection.trees_entersPlaced (Tracker.inside_selectionSet ..) [number] 0 _ hset
      fun _ => by rw [Nat.zero_add]

namespace Document

/-- Where the walk enters a selection set, it is the one that the address leads to. -/
theorem setAt?_of_mem_steps {schema : Schema} {document : Document} {address : Address}
    {selections : SelectionSet} {types : Tracker}
    (h : ⟨.enter (.selectionSet address selections), types⟩ ∈ document.tree.steps schema) :
    document.setAt? schema address = some (types.parent?, selections) := by
  rw [steps_eq] at h
  simp only [List.mem_cons, List.mem_append, Step.mk.injEq, Event.enter.injEq, reduceCtorEq,
    false_and, List.not_mem_nil, or_false, false_or] at h
  obtain ⟨⟨definition, number⟩, hnumbered, hstep⟩ := List.mem_flatMap.mp h
  rw [Definition.steps_eq] at hstep
  exact Definition.tree_entersPlaced (List.mem_zipIdx_iff_getElem?.mp hnumbered) _ hstep _ _ rfl

theorem mem_stepsBelow_selectionSet {schema : Schema} {tracker : Tracker} {address : Address}
    {selections : SelectionSet} {number : Nat} {selection : Selection}
    (h : selections[number]? = some selection) {step : Step}
    (hstep : step ∈ (Selection.tree (number :: address) selection).stepsBelow schema
      (tracker.enter schema (.selectionSet address selections))) :
    step ∈ (SelectionSet.tree address selections).stepsBelow schema tracker := by
  have htrees : ∀ (rest : List Selection) (first index : Nat), rest[index]? = some selection →
      Selection.tree ((first + index) :: address) selection ∈
        Selection.trees address first rest := by
    intro rest
    induction rest with
    | nil => intro first index hindex; cases hindex
    | cons head others ih =>
        intro first index hindex
        cases index with
        | zero =>
            cases hindex
            exact List.mem_cons_self
        | succ index =>
            have hmem := ih (first + 1) index hindex
            rw [Nat.add_assoc, Nat.add_comm 1 index] at hmem
            exact List.mem_cons_of_mem _ hmem
  have hmem := htrees selections 0 number h
  rw [Nat.zero_add] at hmem
  exact NodeTree.mem_stepsBelow_of_mem hmem hstep

/-- The walk goes through every set that an address leads to. -/
theorem walked_of_setAt? {schema : Schema} {document : Document} {address : Address}
    {type : Option TypeDefinition} {selections : SelectionSet}
    (h : document.setAt? schema address = some (type, selections)) :
    ∃ outer : Tracker, selectable outer.type? = type ∧
      ∀ step ∈ (SelectionSet.tree address selections).stepsBelow schema outer,
        step ∈ document.tree.steps schema := by
  induction h using setAt?_induction with
  | definition number definition hdefinition =>
      refine ⟨Tracker.empty.enter schema definition.node, ?_, fun step hstep => ?_⟩
      · rw [Tracker.type?_enter_definition]
      · refine mem_steps_of_mem hdefinition ?_
        obtain ⟨heads, htrees, -⟩ := Definition.trees_eq number definition
        rw [Definition.steps_eq, Definition.tree_eq, htrees]
        exact NodeTree.mem_stepsBelow_of_mem (List.mem_append_right _ List.mem_cons_self) hstep
  | item number address outerType siblings selection type selections _ hselection hinside ih =>
      obtain ⟨outer, htype, hwalked⟩ := ih
      have hset := Tracker.inside_selectionSet schema outer address siblings
      rw [htype] at hset
      generalize htracker : outer.enter schema (.selectionSet address siblings) = tracker at hset
      have hbelow : ∀ step ∈ (Selection.tree (number :: address) selection).stepsBelow schema
          tracker, step ∈ document.tree.steps schema := by
        intro step hstep
        rw [← htracker] at hstep
        exact hwalked step (mem_stepsBelow_selectionSet hselection hstep)
      cases selection with
      | field chosen below =>
          cases hinside
          refine ⟨tracker.enter schema (.field chosen selections), ?_, fun step hstep => ?_⟩
          · simp only [Tracker.enter, Tracker.type?, List.head?_cons, Option.join_some, hset.parent]
          · apply hbelow
            rw [Selection.tree]
            refine NodeTree.mem_stepsBelow_of_mem List.mem_cons_self ?_
            exact NodeTree.mem_stepsBelow_of_mem (List.mem_append_right _ List.mem_cons_self) hstep
      | spread chosen => cases hinside
      | inline head below =>
          cases hinside
          refine ⟨tracker.enter schema (.inline head), ?_, fun step hstep => ?_⟩
          · rw [Tracker.selectable_type?_inline hset]
          · apply hbelow
            rw [Selection.tree]
            refine NodeTree.mem_stepsBelow_of_mem List.mem_cons_self ?_
            exact NodeTree.mem_stepsBelow_of_mem (List.mem_append_right _ List.mem_cons_self) hstep

end Document

/-! ## All addresses of a document -/

namespace Merge

mutual

/-- The addresses of the selection sets in an item; its own set has the given address. -/
def addressesOf (address : Address) : Selection → List Address
  | .field _ inner => address :: addressesOfAll address 0 inner
  | .spread _ => []
  | .inline _ inner => address :: addressesOfAll address 0 inner

def addressesOfAll (address : Address) : Nat → List Selection → List Address
  | _, [] => []
  | number, selection :: rest =>
      addressesOf (number :: address) selection ++ addressesOfAll address (number + 1) rest

end

mutual

theorem length_addressesOf (address : Address) (selection : Selection) :
    (addressesOf address selection).length = setCount selection := by
  cases selection with
  | field chosen inner =>
      have hinner := length_addressesOfAll address 0 inner
      simp only [addressesOf, setCount, List.length_cons]
      omega
  | spread chosen => rfl
  | inline head inner =>
      have hinner := length_addressesOfAll address 0 inner
      simp only [addressesOf, setCount, List.length_cons]
      omega

theorem length_addressesOfAll (address : Address) (number : Nat) (selections : List Selection) :
    (addressesOfAll address number selections).length = setCountAll selections := by
  cases selections with
  | nil => rfl
  | cons selection rest =>
      have hhead := length_addressesOf (number :: address) selection
      have hrest := length_addressesOfAll address (number + 1) rest
      simp only [addressesOfAll, setCountAll, List.length_append]
      omega

end

theorem sublist_addressesOfAll (address : Address) {selections : List Selection} {number : Nat}
    {selection : Selection} (h : selections[number]? = some selection) (first : Nat) :
    (addressesOf ((first + number) :: address) selection).Sublist
      (addressesOfAll address first selections) := by
  induction selections generalizing number first with
  | nil => cases h
  | cons head rest ih =>
      cases number with
      | zero =>
          cases h
          exact List.sublist_append_left _ _
      | succ number =>
          have hshift : first + (number + 1) = first + 1 + number := by omega
          rw [hshift]
          exact (ih h (first + 1)).trans (List.sublist_append_right _ _)

end Merge

namespace Document

def setCount (document : Document) : Nat :=
  document.definitions.foldl (fun n d => n + 1 + Merge.setCountAll d.selections) 0

def addresses (document : Document) : List Address :=
  document.definitions.zipIdx.flatMap fun numbered =>
    [numbered.2] :: Merge.addressesOfAll [numbered.2] 0 numbered.1.selections

theorem length_addresses (document : Document) : document.addresses.length = document.setCount := by
  have hfold : ∀ (definitions : List Definition) (first count : Nat),
      count + ((definitions.zipIdx first).flatMap fun numbered =>
        [numbered.2] :: Merge.addressesOfAll [numbered.2] 0 numbered.1.selections).length =
      definitions.foldl (fun n d => n + 1 + Merge.setCountAll d.selections) count := by
    intro definitions
    induction definitions with
    | nil => intro first count; rfl
    | cons definition rest ih =>
        intro first count
        have hrest := ih (first + 1) (count + 1 + Merge.setCountAll definition.selections)
        have hhere := Merge.length_addressesOfAll [first] 0 definition.selections
        simp only [List.zipIdx_cons, List.flatMap_cons, List.length_append, List.length_cons,
          List.foldl_cons] at hrest ⊢
        omega
  have h := hfold document.definitions 0 0
  rw [Nat.zero_add] at h
  exact h

/-- The sets that addresses lead to are those of the document, with all that is in them. -/
theorem sublist_addresses_of_setAt? {schema : Schema} {document : Document} {address : Address}
    {type : Option TypeDefinition} {selections : SelectionSet}
    (h : document.setAt? schema address = some (type, selections)) :
    (address :: Merge.addressesOfAll address 0 selections).Sublist document.addresses := by
  induction h using setAt?_induction with
  | definition number definition hdefinition =>
      have hnumbered : (definition, number) ∈ document.definitions.zipIdx :=
        List.mem_zipIdx_iff_getElem?.mpr hdefinition
      exact List.sublist_flatten_of_mem (List.mem_map_of_mem hnumbered)
  | item number address outer siblings selection type selections _ hselection hinside ih =>
      have hitem := Merge.sublist_addressesOfAll address hselection 0
      rw [Nat.zero_add] at hitem
      have hall := (hitem.trans (List.sublist_cons_self _ _)).trans ih
      cases selection with
      | field chosen below =>
          cases hinside
          exact hall
      | spread chosen => cases hinside
      | inline head below =>
          cases hinside
          exact hall

theorem mem_addresses_of_setAt? {schema : Schema} {document : Document} {address : Address}
    {type : Option TypeDefinition} {selections : SelectionSet}
    (h : document.setAt? schema address = some (type, selections)) :
    address ∈ document.addresses :=
  (sublist_addresses_of_setAt? h).subset List.mem_cons_self

theorem setCountAll_lt_setCount {schema : Schema} {document : Document} {address : Address}
    {type : Option TypeDefinition} {selections : SelectionSet}
    (h : document.setAt? schema address = some (type, selections)) :
    Merge.setCountAll selections < document.setCount := by
  have hlength := (sublist_addresses_of_setAt? h).length_le
  have hinside := Merge.length_addressesOfAll address 0 selections
  have htotal := document.length_addresses
  rw [List.length_cons] at hlength
  omega

end Document

end QueryAudit
