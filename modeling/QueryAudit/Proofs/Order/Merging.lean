import QueryAudit.Proofs.Order.Schemas

/-!
# Merging fields up to the order of members

The search for conflicts carries types along: those on which fields are selected. It looks at their
names and kinds only. So the search with the members of all types sorted takes the same way and
finds the same conflicts, and its ledger is the same but for the sorting.
-/

namespace QueryAudit.Merge

variable {schema ordered : Schema}

/-! ## What is carried along -/

def Entry.sorted (entry : Entry) : Entry := { entry with parent := entry.parent.map .sorted }

@[simp] theorem Entry.sorted_definition (entry : Entry) :
    entry.sorted.definition = entry.definition := rfl

@[simp] theorem Entry.sorted_selections (entry : Entry) :
    entry.sorted.selections = entry.selections := rfl

@[simp] theorem Entry.sorted_address (entry : Entry) : entry.sorted.address = entry.address := rfl

def Item.sorted : Item → Item
  | .entry found => .entry found.sorted
  | .spread name => .spread name

def sortFields (fields : NameTable (List Entry)) : NameTable (List Entry) :=
  fields.map fun entry => (entry.1, entry.2.map .sorted)

def Gathered.sorted (gathered : Gathered) : Gathered :=
  { gathered with fields := sortFields gathered.fields }

@[simp] theorem Gathered.sorted_address (gathered : Gathered) :
    gathered.sorted.address = gathered.address := rfl

def Task.sorted : Task → Task
  | .fields key exclusive a b => .fields key exclusive a.sorted b.sorted
  | .setWithFragment exclusive set name => .setWithFragment exclusive set.sorted name
  | .fragments exclusive a b => .fragments exclusive a b

def Ledger.sorted (ledger : Ledger) : Ledger :=
  { ledger with gathered := ledger.gathered.map fun entry => (entry.1, entry.2.sorted) }

@[simp] theorem Ledger.sorted_setsWithFragments (ledger : Ledger) :
    ledger.sorted.setsWithFragments = ledger.setsWithFragments := rfl

theorem Ledger.noteSet_sorted (ledger : Ledger) (sets : List (Address × Name × Bool)) :
    { ledger.sorted with setsWithFragments := sets } =
      Ledger.sorted { ledger with setsWithFragments := sets } := rfl

theorem Ledger.notePair_sorted (ledger : Ledger) (pairs : List ((Name × Name) × Bool)) :
    { ledger.sorted with fragmentPairs := pairs } =
      Ledger.sorted { ledger with fragmentPairs := pairs } := rfl

theorem Ledger.hasPair_sorted (ledger : Ledger) (exclusive : Bool) (a b : Name) :
    ledger.sorted.hasPair exclusive a b = ledger.hasPair exclusive a b := rfl

def Opened.sorted (opened : Opened) : Opened :=
  { opened with ledger := opened.ledger.sorted, tasks := opened.tasks.map .sorted }

theorem Opened.into_sorted (ledger : Ledger) (tasks : List Task) :
    (Opened.into ledger tasks).sorted = Opened.into ledger.sorted (tasks.map .sorted) := rfl

/-! ## Gathering -/

theorem find?_sortFields (fields : NameTable (List Entry)) (key : Name) :
    (sortFields fields).find? key = (fields.find? key).map (List.map .sorted) :=
  NameTable.find?_map fields (fun _ entries => entries.map .sorted) key

theorem insert_sortFields (fields : NameTable (List Entry)) (key : Name) (entries : List Entry) :
    (sortFields fields).insert key (entries.map .sorted) =
      sortFields (fields.insert key entries) := by
  induction fields with
  | nil => rfl
  | cons head rest ih =>
      simp only [sortFields, List.map_cons, NameTable.insert] at ih ⊢
      split
      · rfl
      · rw [ih, List.map_cons]

theorem addEntry_sorted (fields : NameTable (List Entry)) (entry : Entry) :
    addEntry (sortFields fields) entry.sorted = sortFields (addEntry fields entry) := by
  have hentries : ((sortFields fields).find? entry.field.responseKey).getD [] ++ [entry.sorted] =
      ((fields.find? entry.field.responseKey).getD [] ++ [entry]).map .sorted := by
    rw [find?_sortFields]
    cases fields.find? entry.field.responseKey <;> simp
  have hinsert := insert_sortFields fields entry.field.responseKey
    ((fields.find? entry.field.responseKey).getD [] ++ [entry])
  rw [← hentries] at hinsert
  exact hinsert

theorem Gathered.add_sorted (gathered : Gathered) (item : Item) :
    gathered.sorted.add item.sorted = (gathered.add item).sorted := by
  cases item with
  | entry entry => simp only [Gathered.sorted, Item.sorted, Gathered.add, addEntry_sorted]
  | spread name => rfl

mutual

theorem itemsOf_sorted (h : schema.SortedAs ordered) (parent : Option TypeDefinition)
    (address : Address) (selection : Selection) :
    itemsOf ordered (parent.map .sorted) address selection =
      (itemsOf schema parent address selection).map .sorted := by
  cases selection with
  | field chosen inner =>
      simp only [itemsOf, TypeDefinition.bind_fieldOn?_sorted]
      rfl
  | spread chosen => rfl
  | inline head inner =>
      cases hcondition : head.condition with
      | none =>
          simp only [itemsOf, hcondition]
          exact itemsOfAll_sorted h parent address 0 inner
      | some condition =>
          simp only [itemsOf, hcondition, h.type?]
          exact itemsOfAll_sorted h (schema.type? condition) address 0 inner

theorem itemsOfAll_sorted (h : schema.SortedAs ordered) (parent : Option TypeDefinition)
    (address : Address) (number : Nat) (selections : List Selection) :
    itemsOfAll ordered (parent.map .sorted) address number selections =
      (itemsOfAll schema parent address number selections).map .sorted := by
  cases selections with
  | nil => rfl
  | cons selection rest =>
      simp only [itemsOfAll, itemsOf_sorted h parent _ selection,
        itemsOfAll_sorted h parent address (number + 1) rest, List.map_append]

end

theorem gather_sorted (h : schema.SortedAs ordered) (parent : Option TypeDefinition)
    (address : Address) (selections : SelectionSet) :
    gather ordered (parent.map .sorted) address selections =
      (gather schema parent address selections).sorted := by
  have hfold : ∀ (items : List Item) (gathered : Gathered),
      (items.map .sorted).foldl Gathered.add gathered.sorted =
        (items.foldl Gathered.add gathered).sorted := by
    intro items
    induction items with
    | nil => exact fun _ => rfl
    | cons item rest ih =>
        intro gathered
        rw [List.map_cons, List.foldl_cons, gathered.add_sorted, ih, List.foldl_cons]
  unfold gather
  rw [itemsOfAll_sorted h]
  exact hfold _ ⟨address, [], []⟩

theorem Ledger.gathered?_sorted (ledger : Ledger) (address : Address) :
    ledger.sorted.gathered? address = (ledger.gathered? address).map .sorted := by
  simp only [Ledger.gathered?, Ledger.sorted, List.find?_map, Option.map_map]
  rfl

theorem Ledger.gather_sorted (h : schema.SortedAs ordered) (ledger : Ledger)
    (parent : Option TypeDefinition) (address : Address) (selections : SelectionSet) :
    ledger.sorted.gather ordered (parent.map .sorted) address selections =
      ((ledger.gather schema parent address selections).1.sorted,
        (ledger.gather schema parent address selections).2.sorted) := by
  unfold Ledger.gather
  rw [ledger.gathered?_sorted]
  cases ledger.gathered? address with
  | some found => rfl
  | none =>
      simp only [Option.map_none, Merge.gather_sorted h]
      rfl

/-! ## Tasks -/

theorem pairwise_sorted (key : Name) (entries : List Entry) :
    pairwise key (entries.map .sorted) = (pairwise key entries).map .sorted := by
  induction entries with
  | nil => rfl
  | cons entry rest ih =>
      simp only [List.map_cons, pairwise, ih, List.map_append, List.map_map]
      rfl

theorem tasksWithin_sorted (fields : NameTable (List Entry)) :
    tasksWithin (sortFields fields) = (tasksWithin fields).map .sorted := by
  simp only [tasksWithin, sortFields, List.flatMap_map, List.map_flatMap, pairwise_sorted]

theorem tasksBetween_sorted (exclusive : Bool) (first second : NameTable (List Entry)) :
    tasksBetween exclusive (sortFields first) (sortFields second) =
      (tasksBetween exclusive first second).map .sorted := by
  simp only [tasksBetween, List.map_flatMap, find?_sortFields]
  rw [sortFields, List.flatMap_map]
  congr 1
  funext entry
  obtain ⟨key, entries⟩ := entry
  cases second.find? key with
  | none => rfl
  | some others =>
      simp only [Option.map_some, List.flatMap_map, List.map_flatMap, List.map_map]
      rfl

theorem tasksForSpreads_sorted (set : Gathered) (names : List Name) :
    tasksForSpreads set.sorted names = (tasksForSpreads set names).map .sorted := by
  induction names with
  | nil => rfl
  | cons name rest ih =>
      simp only [tasksForSpreads, ih, List.map_cons, List.map_append, List.map_map]
      rfl

theorem tasksForSet_sorted (set : Gathered) :
    tasksForSet set.sorted = (tasksForSet set).map .sorted := by
  simp only [tasksForSet, List.map_append, ← tasksForSpreads_sorted, ← tasksWithin_sorted]
  rfl

theorem tasksForSubsets_sorted (exclusive : Bool) (first second : Gathered) :
    tasksForSubsets exclusive first.sorted second.sorted =
      (tasksForSubsets exclusive first second).map .sorted := by
  simp only [tasksForSubsets, List.map_append, List.map_map, List.map_flatMap,
    ← tasksBetween_sorted]
  rfl

/-! ## Conflicts -/

theorem areExclusive_sorted (a b : Entry) : areExclusive a.sorted b.sorted = areExclusive a b := by
  obtain ⟨_ | first⟩ := a <;> obtain ⟨_ | second⟩ := b <;> rfl

theorem sameArguments_sorted (h : schema.SortedAs ordered) (definition : Option FieldDefinition)
    (a b : Field) :
    sameArguments ordered definition a b = sameArguments schema definition a b := by
  simp only [sameArguments, sameValue, Value.coerce_sorted h]

theorem directReason?_sorted (h : schema.SortedAs ordered) (exclusive : Bool) (a b : Entry) :
    directReason? ordered exclusive a.sorted b.sorted = directReason? schema exclusive a b := by
  simp only [directReason?, sameArguments_sorted h, h.typesConflict]
  rfl

theorem openFields_sorted (h : schema.SortedAs ordered) (ledger : Ledger) (key : Name)
    (exclusive : Bool) (a b : Entry) :
    openFields ordered ledger.sorted key exclusive a.sorted b.sorted =
      (openFields schema ledger key exclusive a b).sorted := by
  simp only [openFields, areExclusive_sorted, directReason?_sorted h]
  cases directReason? schema (exclusive || areExclusive a b) a b with
  | some reason => rfl
  | none =>
      simp only [Entry.sorted_selections, Entry.sorted_definition, Entry.sorted_address]
      by_cases hempty : (a.selections.isEmpty || b.selections.isEmpty) = true
      · simp only [hempty, if_true]
        rfl
      · simp only [hempty, if_false, Bool.false_eq_true, h.bind_concreteType?,
          Ledger.gather_sorted h, tasksForSubsets_sorted]
        rfl

theorem openSetWithFragment_sorted (h : schema.SortedAs ordered) (document : Document)
    (ledger : Ledger) (exclusive : Bool) (set : Gathered) (name : Name) :
    openSetWithFragment ordered document ledger.sorted exclusive set.sorted name =
      (openSetWithFragment schema document ledger exclusive set name).sorted := by
  simp only [openSetWithFragment, Gathered.sorted_address, Ledger.sorted_setsWithFragments]
  by_cases hdone : (set.address, name, exclusive) ∈ ledger.setsWithFragments
  · simp only [hdone, if_true]
    rfl
  · simp only [hdone, if_false]
    cases locate? document name with
    | none => rfl
    | some located =>
        obtain ⟨address, fragment⟩ := located
        -- the comparison is noted before the fragment is gathered, so the noted ledger is sorted
        simp only [h.type?, Ledger.noteSet_sorted, Ledger.gather_sorted h]
        generalize Ledger.gather schema _ _ address fragment.selections = result
        obtain ⟨after, found⟩ := result
        simp only [Gathered.sorted_address]
        by_cases hself : found.address = set.address
        · simp only [hself, if_true]
          rfl
        · simp only [hself, if_false, Opened.into_sorted, List.map_append, List.map_map,
            ← tasksBetween_sorted]
          rfl

theorem openFragments_sorted (h : schema.SortedAs ordered) (document : Document)
    (ledger : Ledger) (exclusive : Bool) (a b : Name) :
    openFragments ordered document ledger.sorted exclusive a b =
      (openFragments schema document ledger exclusive a b).sorted := by
  simp only [openFragments, Ledger.hasPair_sorted]
  by_cases hdone : (decide (a = b) || ledger.hasPair exclusive a b) = true
  · simp only [hdone, if_true]
    rfl
  · simp only [hdone, if_false, Bool.false_eq_true]
    cases locate? document a with
    | none => rfl
    | some first =>
        cases locate? document b with
        | none => rfl
        | some second =>
            simp only [h.type?, Ledger.notePair_sorted, Ledger.gather_sorted h,
              Opened.into_sorted, List.map_append, List.map_map, ← tasksBetween_sorted]
            rfl

theorem openTask_sorted (h : schema.SortedAs ordered) (document : Document) (ledger : Ledger)
    (task : Task) :
    openTask ordered document ledger.sorted task.sorted =
      (openTask schema document ledger task).sorted := by
  cases task with
  | fields key exclusive a b => exact openFields_sorted h ledger key exclusive a b
  | setWithFragment exclusive set name =>
      exact openSetWithFragment_sorted h document ledger exclusive set name
  | fragments exclusive a b => exact openFragments_sorted h document ledger exclusive a b

/-! ## Searches -/

def sortEnd (result : Ledger × List Conflict) : Ledger × List Conflict :=
  (result.1.sorted, result.2)

theorem doAll_sorted {step other : Ledger → Task → Option (Ledger × List Conflict)}
    (hstep : ∀ ledger task, other ledger.sorted task.sorted = (step ledger task).map sortEnd)
    (ledger : Ledger) (tasks : List Task) :
    doAll other ledger.sorted (tasks.map .sorted) = (doAll step ledger tasks).map sortEnd := by
  induction tasks generalizing ledger with
  | nil => rfl
  | cons task rest ih =>
      simp only [List.map_cons, doAll, hstep]
      cases step ledger task with
      | none => rfl
      | some result =>
          simp only [Option.map_some, sortEnd, Option.bind_eq_bind, Option.bind_some, ih]
          cases doAll step result.1 rest <;> rfl

theorem doTask_sorted (h : schema.SortedAs ordered) (document : Document) (depth : Nat)
    (ledger : Ledger) (task : Task) :
    doTask ordered document depth ledger.sorted task.sorted =
      (doTask schema document depth ledger task).map sortEnd := by
  induction depth generalizing ledger task with
  | zero => rfl
  | succ depth ih =>
      simp only [doTask, openTask_sorted h, Opened.sorted, doAll_sorted ih]
      cases doAll (doTask schema document depth) _ _ <;> rfl

theorem conflictsIn_sorted (h : schema.SortedAs ordered) (document : Document) (ledger : Ledger)
    (parent : Option TypeDefinition) (address : Address) (selections : SelectionSet) :
    conflictsIn ordered document ledger.sorted (parent.map .sorted) address selections =
      (conflictsIn schema document ledger parent address selections).map sortEnd := by
  unfold conflictsIn
  rw [Ledger.gather_sorted h]
  simp only [tasksForSet_sorted]
  exact doAll_sorted (doTask_sorted h document _) _ _

end QueryAudit.Merge
