import QueryAudit.Proofs.Merge.Clash

/-!
# Opening a task

What opening a task can do is said once, by `Opens`: a ledger that holds only sets of the document
opens a task about parts of the document in one of nine ways. All that is proved about the search
rests on these.

Which sets, on which types, and which fields a search may come upon is a parameter, `Sites`. The
walk gives one choice, `Sites.placed`, for schemas in which only composite types have fields.
-/

namespace QueryAudit

def Document.spreadNames (document : Document) : List Name :=
  document.definitions.flatMap fun definition =>
    (SelectionSet.spreads definition.selections).map Spread.name

namespace Merge

mutual

theorem exists_spread_of_mem_itemsOf {schema : Schema} {parent : Option TypeDefinition}
    {address : Address} {name : Name} (selection : Selection)
    (h : Item.spread name ∈ itemsOf schema parent address selection) :
    ∃ spread ∈ Selection.spreads selection, spread.name = name := by
  cases selection with
  | field chosen inner => simp [itemsOf] at h
  | spread chosen =>
      simp only [itemsOf, List.mem_singleton, Item.spread.injEq] at h
      exact ⟨chosen, List.mem_singleton.mpr rfl, h.symm⟩
  | inline head inner =>
      rw [itemsOf] at h
      exact exists_spread_of_mem_itemsOfAll inner h

theorem exists_spread_of_mem_itemsOfAll {schema : Schema} {parent : Option TypeDefinition}
    {address : Address} {number : Nat} {name : Name} (selections : List Selection)
    (h : Item.spread name ∈ itemsOfAll schema parent address number selections) :
    ∃ spread ∈ SelectionSet.spreads selections, spread.name = name := by
  cases selections with
  | nil => cases h
  | cons selection rest =>
      rcases List.mem_append.mp h with hhead | hrest
      · obtain ⟨spread, hspread, hname⟩ := exists_spread_of_mem_itemsOf selection hhead
        exact ⟨spread, List.mem_append_left _ hspread, hname⟩
      · obtain ⟨spread, hspread, hname⟩ := exists_spread_of_mem_itemsOfAll rest hrest
        exact ⟨spread, List.mem_append_right _ hspread, hname⟩

end

theorem mem_spreads_of_getElem? {selections : List Selection} {number : Nat}
    {selection : Selection} (h : selections[number]? = some selection) {spread : Spread}
    (hspread : spread ∈ Selection.spreads selection) :
    spread ∈ SelectionSet.spreads selections := by
  induction selections generalizing number with
  | nil => cases h
  | cons head rest ih =>
      cases number with
      | zero =>
          cases h
          exact List.mem_append_left _ hspread
      | succ number => exact List.mem_append_right _ (ih h)

theorem mem_spreadNames_of_setAt? {schema : Schema} {document : Document} {address : Address}
    {type : Option TypeDefinition} {selections : SelectionSet}
    (h : document.setAt? schema address = some (type, selections)) {spread : Spread}
    (hspread : spread ∈ SelectionSet.spreads selections) :
    spread.name ∈ document.spreadNames := by
  induction h using Document.setAt?_induction with
  | definition number definition hdefinition =>
      exact List.mem_flatMap.mpr ⟨definition, List.mem_of_getElem? hdefinition,
        List.mem_map_of_mem hspread⟩
  | item number address outer siblings selection type selections _ hselection hinside ih =>
      refine ih (mem_spreads_of_getElem? hselection ?_)
      cases selection with
      | field chosen below =>
          cases hinside
          exact hspread
      | spread chosen => cases hinside
      | inline head below =>
          cases hinside
          exact hspread

/-! ## Ledgers and tasks about a document -/

/-- What a search may come upon: the sets that it gathers, each on a type, and the fields that it
compares. The sub-selections of a field are gathered on the type of its definition, unless they are
held, that is, gathered before. -/
structure Sites (schema : Schema) (document : Document) where
  Set : Option TypeDefinition → Address → SelectionSet → Prop
  Field : Entry → Prop
  Held : Address → Prop
  stands {parent : Option TypeDefinition} {address : Address} {selections : SelectionSet} :
    Set parent address selections → ∃ type, document.setAt? schema address = some (type, selections)
  located {name : Name} {target : Address} {fragment : Fragment} :
    locate? document name = some (target, fragment) →
      Set (schema.type? fragment.condition) target fragment.selections
  below {entry : Entry} : Field entry →
    (∃ parent, Set parent entry.address entry.selections) ∧
      (Held entry.address ∨ Set (entry.scope schema) entry.address entry.selections)

/-- The fields in the sets are among the fields. -/
def Sites.Closed {schema : Schema} {document : Document} (sites : Sites schema document) : Prop :=
  ∀ {parent : Option TypeDefinition} {address : Address} {selections : SelectionSet}
    {entry : Entry}, sites.Set parent address selections →
      Item.entry entry ∈ itemsOfAll schema parent address 0 selections → sites.Field entry

section

variable {schema : Schema} {document : Document} {sites : Sites schema document}

/-- The set at an address shows a field, up to the types without fields on which fields may be
selected. -/
def Sites.Shows (sites : Sites schema document) (address : Address) (entry : Entry) : Prop :=
  ∃ parent selections found, sites.Set parent address selections ∧
    Item.entry found ∈ itemsOfAll schema parent address 0 selections ∧ found.plain = entry.plain

def Sites.Spreads (sites : Sites schema document) (address : Address) (name : Name) : Prop :=
  ∃ parent selections, sites.Set parent address selections ∧
    Item.spread name ∈ itemsOfAll schema parent address 0 selections

/-- Whoever asks for a set finds the same in it. -/
structure Sites.Coherent (sites : Sites schema document) : Prop where
  closed : sites.Closed
  entry {p q : Option TypeDefinition} {address : Address} {s t : SelectionSet} {entry : Entry} :
    sites.Set p address s → sites.Set q address t →
      Item.entry entry ∈ itemsOfAll schema p address 0 s →
        ∃ other, Item.entry other ∈ itemsOfAll schema q address 0 t ∧ other.plain = entry.plain
  spread {p q : Option TypeDefinition} {address : Address} {s t : SelectionSet} {name : Name} :
    sites.Set p address s → sites.Set q address t →
      Item.spread name ∈ itemsOfAll schema p address 0 s →
        Item.spread name ∈ itemsOfAll schema q address 0 t

theorem Sites.selections_eq {p q : Option TypeDefinition} {address : Address} {s t : SelectionSet}
    (hp : sites.Set p address s) (hq : sites.Set q address t) : s = t := by
  obtain ⟨type, hset⟩ := sites.stands hp
  obtain ⟨other, hset'⟩ := sites.stands hq
  rw [hset] at hset'
  cases hset'
  rfl

theorem Sites.mem_spreadNames {parent : Option TypeDefinition} {address : Address}
    {selections : SelectionSet} (hset : sites.Set parent address selections) {name : Name}
    (h : Item.spread name ∈ itemsOfAll schema parent address 0 selections) :
    name ∈ document.spreadNames := by
  obtain ⟨type, hstands⟩ := sites.stands hset
  obtain ⟨spread, hspread, rfl⟩ := exists_spread_of_mem_itemsOfAll selections h
  exact mem_spreadNames_of_setAt? hstands hspread

/-- The sets that the walk enters and the fields in them. -/
@[reducible] def Sites.placed (schema : Schema) (document : Document) : Sites schema document where
  Set := Place schema document
  Field := Placed schema document
  Held _ := False
  stands hplace := ⟨_, hplace.set⟩
  located := place_of_locate?
  below hentry := ⟨⟨_, hentry.place⟩, .inr hentry.place⟩

def Gathered.IsAt (sites : Sites schema document) (gathered : Gathered) (address : Address)
    (selections : SelectionSet) : Prop :=
  ∃ parent, sites.Set parent address selections ∧
    gathered = gather schema parent address selections

/-- A ledger holds only sets of a document, those that are held among them, and of the comparisons
of two fragments the one that was made without assuming exclusiveness stands first. -/
structure Ledger.Genuine (sites : Sites schema document) (ledger : Ledger) : Prop where
  gathered : ∀ pair ∈ ledger.gathered, ∃ selections, pair.2.IsAt sites pair.1 selections
  held : ∀ address, sites.Held address → ∃ set, (address, set) ∈ ledger.gathered
  pairs : ∀ key, (key, false) ∈ ledger.fragmentPairs →
    ledger.fragmentPairs.find? (fun entry => entry.1 = key) = some (key, false)

/-- A task compares fields, sets and fragments of a document. -/
def Task.Genuine (sites : Sites schema document) : Task → Prop
  | .fields key _ a b => sites.Field a ∧ sites.Field b ∧ a.key = key ∧ b.key = key
  | .setWithFragment _ set name =>
      (∃ selections, set.IsAt sites set.address selections) ∧ name ∈ document.spreadNames
  | .fragments _ a b => a ∈ document.spreadNames ∧ b ∈ document.spreadNames

/-- Two ledgers have made the same comparisons. -/
structure Ledger.Matches (before after : Ledger) : Prop where
  sets : after.setsWithFragments = before.setsWithFragments
  pairs : after.fragmentPairs = before.fragmentPairs

theorem Gathered.IsAt.address_eq {gathered : Gathered} {address : Address}
    {selections : SelectionSet} (h : gathered.IsAt sites address selections) :
    gathered.address = address := by
  obtain ⟨parent, -, rfl⟩ := h
  exact gather_address ..

theorem Gathered.IsAt.self {gathered : Gathered} {address : Address}
    {selections : SelectionSet} (h : gathered.IsAt sites address selections) :
    gathered.IsAt sites gathered.address selections := by
  rw [h.address_eq]
  exact h

theorem Ledger.genuine_empty_of_unheld (hheld : ∀ address, ¬ sites.Held address) :
    Ledger.Genuine sites .empty :=
  ⟨fun _ h => absurd h List.not_mem_nil, fun address h => absurd h (hheld address),
    fun _ h => absurd h List.not_mem_nil⟩

/-- A set that is asked for is found, and only the sets gathered may change. -/
theorem Ledger.gather_spec {ledger : Ledger} (hledger : ledger.Genuine sites)
    {parent : Option TypeDefinition} {address : Address} {selections : SelectionSet}
    (hsome : ∃ other, sites.Set other address selections)
    (hset : sites.Held address ∨ sites.Set parent address selections) :
    ∃ after found, ledger.gather schema parent address selections = (after, found) ∧
      after.Genuine sites ∧ ledger.Matches after ∧ found.IsAt sites address selections := by
  unfold Ledger.gather
  cases hfound : ledger.gathered? address with
  | some found =>
      refine ⟨ledger, found, rfl, hledger, ⟨rfl, rfl⟩, ?_⟩
      obtain ⟨⟨asked, gathered⟩, hpair, heq⟩ := Option.map_eq_some_iff.mp hfound
      have haddress := List.find?_some hpair
      simp only [decide_eq_true_eq] at haddress heq
      subst haddress heq
      obtain ⟨others, other, hother, hgathered⟩ :=
        hledger.gathered _ (List.mem_of_find?_eq_some hpair)
      obtain ⟨type, hstands⟩ := hsome
      have hsame := Sites.selections_eq hother hstands
      subst hsame
      exact ⟨other, hother, hgathered⟩
  | none =>
      -- What is held has been gathered, so this set is not held.
      have hunheld : ¬ sites.Held address := by
        intro hheld
        obtain ⟨set, hmem⟩ := hledger.held address hheld
        have hnone := List.find?_eq_none.mp (Option.map_eq_none_iff.mp hfound) _ hmem
        simp at hnone
      have hnew : (Merge.gather schema parent address selections).IsAt sites address selections :=
        ⟨parent, hset.resolve_left hunheld, rfl⟩
      refine ⟨_, _, rfl, ⟨fun pair hpair => ?_, fun other hother => ?_, hledger.pairs⟩,
        ⟨rfl, rfl⟩, hnew⟩
      · rcases List.mem_cons.mp hpair with rfl | hold
        · exact ⟨selections, hnew⟩
        · exact hledger.gathered pair hold
      · obtain ⟨set, hmem⟩ := hledger.held other hother
        exact ⟨set, List.mem_cons_of_mem _ hmem⟩

/-- A set of the document that is asked for is found. -/
theorem Ledger.gather_set {ledger : Ledger} (hledger : ledger.Genuine sites)
    {parent : Option TypeDefinition} {address : Address} {selections : SelectionSet}
    (hset : sites.Set parent address selections) :
    ∃ after found, ledger.gather schema parent address selections = (after, found) ∧
      after.Genuine sites ∧ ledger.Matches after ∧ found.IsAt sites address selections :=
  gather_spec hledger ⟨parent, hset⟩ (.inr hset)

/-- The sub-selections of a field are found. -/
theorem Ledger.gather_below {ledger : Ledger} (hledger : ledger.Genuine sites) {entry : Entry}
    (hentry : sites.Field entry) :
    ∃ after found,
      ledger.gather schema (entry.scope schema) entry.address entry.selections = (after, found) ∧
      after.Genuine sites ∧ ledger.Matches after ∧
      found.IsAt sites entry.address entry.selections :=
  gather_spec hledger (sites.below hentry).1 (sites.below hentry).2

theorem Ledger.eq_of_hasPair_eq_false {ledger : Ledger} {exclusive : Bool} {a b : Name}
    (h : ledger.hasPair exclusive a b = false) {found : (Name × Name) × Bool}
    (hfound : ledger.fragmentPairs.find? (fun entry => entry.1 = pairKey a b) = some found) :
    exclusive = false ∧ found.2 = true := by
  obtain ⟨key, before⟩ := found
  rw [hasPair, hfound] at h
  simpa using h

/-- Fragments that have to be compared were not compared on the same assumption before. -/
theorem Ledger.Genuine.not_mem_pairs {ledger : Ledger} (hledger : ledger.Genuine sites)
    {exclusive : Bool} {a b : Name} (h : ledger.hasPair exclusive a b = false) :
    (pairKey a b, exclusive) ∉ ledger.fragmentPairs := by
  intro hmem
  cases hfind : ledger.fragmentPairs.find? (fun entry => entry.1 = pairKey a b) with
  | none =>
      have hnone := List.find?_eq_none.mp hfind _ hmem
      simp at hnone
  | some found =>
      obtain ⟨rfl, hbefore⟩ := eq_of_hasPair_eq_false h hfind
      rw [hledger.pairs _ hmem] at hfind
      cases hfind
      cases hbefore

theorem Ledger.Genuine.note_pair {ledger : Ledger} (hledger : ledger.Genuine sites)
    {exclusive : Bool} {a b : Name} (h : ledger.hasPair exclusive a b = false) :
    Ledger.Genuine sites { ledger with
      fragmentPairs := (pairKey a b, exclusive) :: ledger.fragmentPairs } := by
  refine ⟨hledger.gathered, hledger.held, fun key hmem => ?_⟩
  rw [List.find?_cons]
  by_cases hkey : pairKey a b = key
  · subst hkey
    cases exclusive with
    | false => simp
    | true =>
        have hold := (List.mem_cons.mp hmem).resolve_left (by simp)
        have hfalse := eq_of_hasPair_eq_false h (hledger.pairs _ hold)
        cases hfalse.1
  · have hold := (List.mem_cons.mp hmem).resolve_left (by simp [Ne.symm hkey])
    simp only [hkey, decide_false]
    exact hledger.pairs key hold

/-! ## The ways to open a task -/

/-- What opening a task does to a ledger, which tasks it breaks into and what follows from their
conflicts. -/
inductive Opens (sites : Sites schema document) (ledger : Ledger) : Task → Opened → Prop
  | direct {key : Name} {exclusive : Bool} {a b : Entry} {reason : MergeReason}
      (hreason : directReason? schema (exclusive || areExclusive a b) a b = some reason) :
      Opens sites ledger (.fields key exclusive a b)
        ⟨ledger, [], fun _ => [Conflict.direct key reason a b]⟩
  | leaf {key : Name} {exclusive : Bool} {a b : Entry}
      (hreason : directReason? schema (exclusive || areExclusive a b) a b = none)
      (hempty : a.selections = [] ∨ b.selections = []) :
      Opens sites ledger (.fields key exclusive a b) (.nothing ledger)
  | subfields {key : Name} {exclusive : Bool} {a b : Entry} {after : Ledger}
      {first second : Gathered}
      (hreason : directReason? schema (exclusive || areExclusive a b) a b = none)
      (hgenuine : after.Genuine sites) (hmatches : ledger.Matches after)
      (hfirst : first.IsAt sites a.address a.selections)
      (hsecond : second.IsAt sites b.address b.selections)
      (hsome : a.selections ≠ [] ∧ b.selections ≠ []) :
      Opens sites ledger (.fields key exclusive a b)
        ⟨after, tasksForSubsets (exclusive || areExclusive a b) first second,
          Conflict.ofSubfields key a b⟩
  | setKnown {exclusive : Bool} {set : Gathered} {name : Name}
      (hknown : (set.address, name, exclusive) ∈ ledger.setsWithFragments) :
      Opens sites ledger (.setWithFragment exclusive set name) (.nothing ledger)
  | setAlone {exclusive : Bool} {set : Gathered} {name : Name} {after : Ledger}
      (hnew : (set.address, name, exclusive) ∉ ledger.setsWithFragments)
      (hgenuine : after.Genuine sites)
      (hsets : after.setsWithFragments =
        (set.address, name, exclusive) :: ledger.setsWithFragments)
      (hpairs : after.fragmentPairs = ledger.fragmentPairs)
      (halone : ∀ target fragment, locate? document name = some (target, fragment) →
        target = set.address) :
      Opens sites ledger (.setWithFragment exclusive set name) (.nothing after)
  | setWithFragment {exclusive : Bool} {set found : Gathered} {name : Name} {after : Ledger}
      {target : Address} {fragment : Fragment}
      (hnew : (set.address, name, exclusive) ∉ ledger.setsWithFragments)
      (hgenuine : after.Genuine sites)
      (hsets : after.setsWithFragments =
        (set.address, name, exclusive) :: ledger.setsWithFragments)
      (hpairs : after.fragmentPairs = ledger.fragmentPairs)
      (hlocate : locate? document name = some (target, fragment))
      (hfound : found.IsAt sites target fragment.selections) (hother : target ≠ set.address) :
      Opens sites ledger (.setWithFragment exclusive set name)
        (.into after (tasksBetween exclusive set.fields found.fields ++
          found.spreads.map (Task.setWithFragment exclusive set)))
  | pairKnown {exclusive : Bool} {a b : Name}
      (hknown : a = b ∨ ledger.hasPair exclusive a b = true) :
      Opens sites ledger (.fragments exclusive a b) (.nothing ledger)
  | pairMissing {exclusive : Bool} {a b : Name} {after : Ledger}
      (hnew : ledger.hasPair exclusive a b = false)
      (hgenuine : after.Genuine sites)
      (hsets : after.setsWithFragments = ledger.setsWithFragments)
      (hpairs : after.fragmentPairs = (Ledger.pairKey a b, exclusive) :: ledger.fragmentPairs)
      (hmissing : locate? document a = none ∨ locate? document b = none) :
      Opens sites ledger (.fragments exclusive a b) (.nothing after)
  | pair {exclusive : Bool} {a b : Name} {after : Ledger} {first second : Gathered}
      {targetA targetB : Address} {fragmentA fragmentB : Fragment}
      (hnew : ledger.hasPair exclusive a b = false)
      (hgenuine : after.Genuine sites)
      (hsets : after.setsWithFragments = ledger.setsWithFragments)
      (hpairs : after.fragmentPairs = (Ledger.pairKey a b, exclusive) :: ledger.fragmentPairs)
      (hlocateA : locate? document a = some (targetA, fragmentA))
      (hlocateB : locate? document b = some (targetB, fragmentB))
      (hfirst : first.IsAt sites targetA fragmentA.selections)
      (hsecond : second.IsAt sites targetB fragmentB.selections) (hother : a ≠ b) :
      Opens sites ledger (.fragments exclusive a b)
        (.into after (tasksBetween exclusive first.fields second.fields ++
          second.spreads.map (Task.fragments exclusive a) ++
          first.spreads.map fun name => Task.fragments exclusive name b))

theorem opens_openFields {ledger : Ledger} (hledger : ledger.Genuine sites) {key : Name}
    {exclusive : Bool} {a b : Entry} (ha : sites.Field a) (hb : sites.Field b) :
    Opens sites ledger (.fields key exclusive a b)
      (openFields schema ledger key exclusive a b) := by
  unfold openFields
  cases hreason : directReason? schema (exclusive || areExclusive a b) a b with
  | some reason => simpa only [hreason] using .direct hreason
  | none =>
      simp only [hreason]
      by_cases hempty : (a.selections.isEmpty || b.selections.isEmpty) = true
      · rw [if_pos hempty]
        rw [Bool.or_eq_true, List.isEmpty_iff, List.isEmpty_iff] at hempty
        exact .leaf hreason hempty
      · rw [if_neg hempty]
        obtain ⟨middle, first, hgather, hmiddle, hmatches, hfirst⟩ :=
          Ledger.gather_below hledger ha
        obtain ⟨after, second, hgather', hafter, hmatches', hsecond⟩ :=
          Ledger.gather_below hmiddle hb
        unfold Entry.scope at hgather hgather'
        simp only [hgather, hgather']
        rw [Bool.or_eq_true, List.isEmpty_iff, List.isEmpty_iff, not_or] at hempty
        exact .subfields hreason hafter ⟨hmatches'.sets.trans hmatches.sets,
          hmatches'.pairs.trans hmatches.pairs⟩ hfirst hsecond hempty

theorem opens_openSetWithFragment {ledger : Ledger} (hledger : ledger.Genuine sites)
    {exclusive : Bool} {set : Gathered} {name : Name} :
    Opens sites ledger (.setWithFragment exclusive set name)
      (openSetWithFragment schema document ledger exclusive set name) := by
  unfold openSetWithFragment
  by_cases hknown : (set.address, name, exclusive) ∈ ledger.setsWithFragments
  · rw [if_pos hknown]
    exact .setKnown hknown
  · rw [if_neg hknown]
    have hnoted : Ledger.Genuine sites { ledger with
        setsWithFragments := (set.address, name, exclusive) :: ledger.setsWithFragments } :=
      ⟨hledger.gathered, hledger.held, hledger.pairs⟩
    cases hlocate : locate? document name with
    | none => exact .setAlone hknown hnoted rfl rfl (by simp [hlocate])
    | some located =>
        obtain ⟨target, fragment⟩ := located
        obtain ⟨after, found, hgather, hafter, hmatches, hfound⟩ :=
          Ledger.gather_set hnoted (sites.located hlocate)
        simp only [hgather]
        split
        · rename_i hsame
          refine .setAlone hknown hafter hmatches.sets hmatches.pairs ?_
          intro other otherFragment hother
          rw [hlocate] at hother
          cases hother
          rw [← hsame, hfound.address_eq]
        · rename_i hother
          rw [hfound.address_eq] at hother
          exact .setWithFragment hknown hafter hmatches.sets hmatches.pairs hlocate hfound hother

theorem opens_openFragments {ledger : Ledger} (hledger : ledger.Genuine sites)
    {exclusive : Bool} {a b : Name} :
    Opens sites ledger (.fragments exclusive a b)
      (openFragments schema document ledger exclusive a b) := by
  unfold openFragments
  by_cases hknown : (decide (a = b) || ledger.hasPair exclusive a b) = true
  · rw [if_pos hknown]
    rw [Bool.or_eq_true, decide_eq_true_eq] at hknown
    exact .pairKnown hknown
  · rw [if_neg hknown]
    simp only [Bool.or_eq_true, decide_eq_true_eq, not_or, Bool.not_eq_true] at hknown
    obtain ⟨hother, hnew⟩ := hknown
    have hnoted := hledger.note_pair hnew
    cases hlocateA : locate? document a with
    | none => exact .pairMissing hnew hnoted rfl rfl (.inl hlocateA)
    | some locatedA =>
        cases hlocateB : locate? document b with
        | none => exact .pairMissing hnew hnoted rfl rfl (.inr hlocateB)
        | some locatedB =>
            obtain ⟨middle, first, hgather, hmiddle, hmatches, hfirst⟩ :=
              Ledger.gather_set hnoted (sites.located hlocateA)
            obtain ⟨after, second, hgather', hafter, hmatches', hsecond⟩ :=
              Ledger.gather_set hmiddle (sites.located hlocateB)
            simp only [hgather, hgather']
            exact .pair hnew hafter (hmatches'.sets.trans hmatches.sets)
              (hmatches'.pairs.trans hmatches.pairs) hlocateA hlocateB hfirst hsecond hother

/-- A task about a document is opened in one of the ways of `Opens`. -/
theorem opens_openTask {ledger : Ledger} (hledger : ledger.Genuine sites) {task : Task}
    (htask : task.Genuine sites) :
    Opens sites ledger task (openTask schema document ledger task) := by
  cases task with
  | fields key exclusive a b => exact opens_openFields hledger htask.1 htask.2.1
  | setWithFragment exclusive set name => exact opens_openSetWithFragment hledger
  | fragments exclusive a b => exact opens_openFragments hledger

/-- Why the fields that a task compares conflict by themselves. -/
def Task.reason? (schema : Schema) : Task → Option MergeReason
  | .fields _ exclusive a b => directReason? schema (exclusive || areExclusive a b) a b
  | _ => none

/-- A task comes to no conflicts if its fields do not conflict by themselves and the tasks that it
breaks into come to none. -/
theorem conclude_eq_nil_iff (ledger : Ledger) (task : Task) (found : List Conflict) :
    (openTask schema document ledger task).conclude found = [] ↔
      task.reason? schema = none ∧ found = [] := by
  cases task with
  | fields key exclusive a b =>
      simp only [openTask, openFields, Task.reason?]
      cases hreason : directReason? schema (exclusive || areExclusive a b) a b with
      | some reason => simp
      | none =>
          simp only [true_and]
          split
          · exact Iff.rfl
          · simp [Conflict.ofSubfields]
  | setWithFragment exclusive set name =>
      simp only [openTask, openSetWithFragment, Task.reason?, true_and]
      split
      · exact Iff.rfl
      · split
        · exact Iff.rfl
        · split <;> exact Iff.rfl
  | fragments exclusive a b =>
      simp only [openTask, openFragments, Task.reason?, true_and]
      split
      · exact Iff.rfl
      · split <;> exact Iff.rfl

/-! ## Opening keeps to the document -/

theorem Gathered.IsAt.mem_spreadNames {gathered : Gathered} {address : Address}
    {selections : SelectionSet} (h : gathered.IsAt sites address selections) {name : Name}
    (hname : name ∈ gathered.spreads) : name ∈ document.spreadNames := by
  obtain ⟨parent, hset, rfl⟩ := h
  exact Sites.mem_spreadNames hset (((gather_collects ..).spreads name).mp hname)

theorem Gathered.IsAt.exists_fields {first second : Gathered} {here there : Address}
    {s t : SelectionSet} (hfirst : first.IsAt sites here s) (hsecond : second.IsAt sites there t)
    {exclusive : Bool} {task : Task}
    (h : task ∈ tasksBetween exclusive first.fields second.fields) :
    ∃ p q a b, sites.Set p here s ∧ sites.Set q there t ∧
      Item.entry a ∈ itemsOfAll schema p here 0 s ∧
      Item.entry b ∈ itemsOfAll schema q there 0 t ∧ a.key = b.key ∧
      task = .fields a.key exclusive a b := by
  obtain ⟨p, hp, rfl⟩ := hfirst
  obtain ⟨q, hq, rfl⟩ := hsecond
  obtain ⟨a, b, ha, hb, hkey, rfl⟩ :=
    ((gather_collects ..).mem_tasksBetween (gather_collects ..)).mp h
  exact ⟨p, q, a, b, hp, hq, ha, hb, hkey, rfl⟩

theorem genuine_of_mem_tasksBetween (hsites : sites.Closed) {first second : Gathered}
    {here there : Address} {s t : SelectionSet} (hfirst : first.IsAt sites here s)
    (hsecond : second.IsAt sites there t) {exclusive : Bool} {task : Task}
    (htask : task ∈ tasksBetween exclusive first.fields second.fields) :
    task.Genuine sites := by
  obtain ⟨p, q, a, b, hp, hq, ha, hb, hkey, rfl⟩ := hfirst.exists_fields hsecond htask
  exact ⟨hsites hp ha, hsites hq hb, rfl, hkey.symm⟩

theorem genuine_of_mem_tasksForSubsets (hsites : sites.Closed) {first second : Gathered}
    {here there : Address} {s t : SelectionSet} (hfirst : first.IsAt sites here s)
    (hsecond : second.IsAt sites there t) {exclusive : Bool} {task : Task}
    (htask : task ∈ tasksForSubsets exclusive first second) : task.Genuine sites := by
  simp only [tasksForSubsets, List.mem_append, List.mem_map, List.mem_flatMap] at htask
  rcases htask with ((hbetween | ⟨name, hname, rfl⟩) | ⟨name, hname, rfl⟩) |
    ⟨name, hname, other, hother, rfl⟩
  · exact genuine_of_mem_tasksBetween hsites hfirst hsecond hbetween
  · exact ⟨⟨_, hfirst.self⟩, hsecond.mem_spreadNames hname⟩
  · exact ⟨⟨_, hsecond.self⟩, hfirst.mem_spreadNames hname⟩
  · exact ⟨hfirst.mem_spreadNames hname, hsecond.mem_spreadNames hother⟩

/-- The tasks that a task breaks into are about the document as well. -/
theorem Opens.genuine_tasks (hsites : sites.Closed) {ledger : Ledger} {task : Task}
    {opened : Opened} (h : Opens sites ledger task opened)
    (htask : task.Genuine sites) :
    ∀ other ∈ opened.tasks, other.Genuine sites := by
  intro other hother
  cases h with
  | direct | leaf | setKnown | setAlone | pairKnown | pairMissing => cases hother
  | subfields hreason hgenuine hmatches hfirst hsecond =>
      exact genuine_of_mem_tasksForSubsets hsites hfirst hsecond hother
  | setWithFragment hnew hgenuine hsets hpairs hlocate hfound =>
      obtain ⟨⟨selections, hset⟩, -⟩ := htask
      rcases List.mem_append.mp hother with hbetween | hspread
      · exact genuine_of_mem_tasksBetween hsites hset hfound hbetween
      · obtain ⟨name, hname, rfl⟩ := List.mem_map.mp hspread
        exact ⟨⟨selections, hset⟩, hfound.mem_spreadNames hname⟩
  | pair hnew hgenuine hsets hpairs hlocateA hlocateB hfirst hsecond =>
      simp only [Opened.into, List.mem_append, List.mem_map] at hother
      rcases hother with (hbetween | ⟨name, hname, rfl⟩) | ⟨name, hname, rfl⟩
      · exact genuine_of_mem_tasksBetween hsites hfirst hsecond hbetween
      · exact ⟨htask.1, hsecond.mem_spreadNames hname⟩
      · exact ⟨hfirst.mem_spreadNames hname, htask.2⟩

theorem Opens.genuine_ledger {ledger : Ledger} {task : Task} {opened : Opened}
    (h : Opens sites ledger task opened) (hledger : ledger.Genuine sites) :
    opened.ledger.Genuine sites := by
  cases h with
  | direct | leaf | setKnown | pairKnown => exact hledger
  | subfields _ hgenuine => exact hgenuine
  | setAlone _ hgenuine => exact hgenuine
  | setWithFragment _ hgenuine => exact hgenuine
  | pairMissing _ hgenuine => exact hgenuine
  | pair _ hgenuine => exact hgenuine

/-- The tasks for a set of a document are about the document. -/
theorem genuine_of_mem_tasksForSet (hsites : sites.Closed) {set : Gathered}
    {selections : SelectionSet} (hset : set.IsAt sites set.address selections)
    {task : Task} (htask : task ∈ tasksForSet set) : task.Genuine sites := by
  rcases List.mem_append.mp htask with hwithin | hspreads
  · obtain ⟨parent, hstands, heq⟩ := hset
    rw [heq] at hwithin
    obtain ⟨a, b, ha, hb, hkey, rfl⟩ := (gather_collects ..).exists_of_mem_tasksWithin hwithin
    exact ⟨hsites hstands ha, hsites hstands hb, rfl, hkey.symm⟩
  · rcases exists_of_mem_tasksForSpreads hspreads with ⟨name, hname, rfl⟩ | ⟨a, ha, b, hb, rfl⟩
    · exact ⟨⟨selections, hset⟩, hset.mem_spreadNames hname⟩
    · exact ⟨hset.mem_spreadNames ha, hset.mem_spreadNames hb⟩

/-! ## Runs keep to the document -/

/-- A ledger has made all comparisons that another one has made. -/
structure Ledger.Grows (before after : Ledger) : Prop where
  sets : ∀ entry ∈ before.setsWithFragments, entry ∈ after.setsWithFragments
  pairs : ∀ entry ∈ before.fragmentPairs, entry ∈ after.fragmentPairs

theorem Ledger.Grows.refl (ledger : Ledger) : ledger.Grows ledger := ⟨fun _ h => h, fun _ h => h⟩

theorem Ledger.Grows.trans {first second third : Ledger} (h : first.Grows second)
    (h' : second.Grows third) : first.Grows third :=
  ⟨fun entry hentry => h'.sets entry (h.sets entry hentry),
    fun entry hentry => h'.pairs entry (h.pairs entry hentry)⟩

theorem Opens.grows {ledger : Ledger} {task : Task} {opened : Opened}
    (h : Opens sites ledger task opened) : ledger.Grows opened.ledger := by
  cases h with
  | direct | leaf | setKnown | pairKnown => exact .refl ledger
  | subfields _ _ hmatches =>
      exact ⟨fun _ h => hmatches.sets ▸ h, fun _ h => hmatches.pairs ▸ h⟩
  | setAlone _ _ hsets hpairs =>
      exact ⟨fun _ h => hsets ▸ List.mem_cons_of_mem _ h, fun _ h => hpairs ▸ h⟩
  | setWithFragment _ _ hsets hpairs =>
      exact ⟨fun _ h => hsets ▸ List.mem_cons_of_mem _ h, fun _ h => hpairs ▸ h⟩
  | pairMissing _ _ hsets hpairs =>
      exact ⟨fun _ h => hsets ▸ h, fun _ h => hpairs ▸ List.mem_cons_of_mem _ h⟩
  | pair _ _ hsets hpairs =>
      exact ⟨fun _ h => hsets ▸ h, fun _ h => hpairs ▸ List.mem_cons_of_mem _ h⟩

theorem doAll_cons {step : Ledger → Task → Option (Ledger × List Conflict)} {ledger after : Ledger}
    {task : Task} {rest : List Task} {conflicts : List Conflict}
    (h : doAll step ledger (task :: rest) = some (after, conflicts)) :
    ∃ middle found others, step ledger task = some (middle, found) ∧
      doAll step middle rest = some (after, others) ∧ conflicts = found ++ others := by
  obtain ⟨⟨middle, found⟩, hstep, hlater⟩ := Option.bind_eq_some_iff.mp h
  obtain ⟨⟨last, others⟩, hrest, heq⟩ := Option.bind_eq_some_iff.mp hlater
  cases heq
  exact ⟨middle, found, others, hstep, hrest, rfl⟩

theorem doTask_succ {depth : Nat} {ledger after : Ledger} {task : Task} {conflicts : List Conflict}
    (h : doTask schema document (depth + 1) ledger task = some (after, conflicts)) :
    ∃ found, doAll (doTask schema document depth) (openTask schema document ledger task).ledger
        (openTask schema document ledger task).tasks = some (after, found) ∧
      conflicts = (openTask schema document ledger task).conclude found := by
  obtain ⟨⟨last, found⟩, hall, heq⟩ := Option.bind_eq_some_iff.mp h
  cases heq
  exact ⟨found, hall, rfl⟩

theorem doAll_keeps {step : Ledger → Task → Option (Ledger × List Conflict)}
    (hstep : ∀ {ledger after task conflicts}, ledger.Genuine sites →
      task.Genuine sites → step ledger task = some (after, conflicts) →
      after.Genuine sites ∧ ledger.Grows after)
    {tasks : List Task} (htasks : ∀ task ∈ tasks, task.Genuine sites)
    {ledger after : Ledger} (hledger : ledger.Genuine sites)
    {conflicts : List Conflict} (h : doAll step ledger tasks = some (after, conflicts)) :
    after.Genuine sites ∧ ledger.Grows after := by
  induction tasks generalizing ledger conflicts with
  | nil =>
      cases h
      exact ⟨hledger, .refl _⟩
  | cons task rest ih =>
      obtain ⟨middle, found, others, hfirst, hrest, -⟩ := doAll_cons h
      obtain ⟨hmiddle, hgrows⟩ := hstep hledger (htasks task List.mem_cons_self) hfirst
      have hlater : ∀ other ∈ rest, other.Genuine sites := fun other hother =>
        htasks other (List.mem_cons_of_mem _ hother)
      obtain ⟨hafter, hgrows'⟩ := ih hlater hmiddle hrest
      exact ⟨hafter, hgrows.trans hgrows'⟩

/-- Doing a task keeps the ledger to the document and forgets no comparison. -/
theorem doTask_keeps (hsites : sites.Closed) {depth : Nat} {ledger after : Ledger}
    {task : Task} {conflicts : List Conflict} (hledger : ledger.Genuine sites)
    (htask : task.Genuine sites)
    (h : doTask schema document depth ledger task = some (after, conflicts)) :
    after.Genuine sites ∧ ledger.Grows after := by
  induction depth generalizing ledger after task conflicts with
  | zero => cases h
  | succ depth ih =>
      obtain ⟨found, hall, -⟩ := doTask_succ h
      have hopens := opens_openTask hledger htask
      obtain ⟨hafter, hgrows⟩ := doAll_keeps ih (hopens.genuine_tasks hsites htask)
        (hopens.genuine_ledger hledger) hall
      exact ⟨hafter, hopens.grows.trans hgrows⟩

theorem conflictsIn_keeps (hsites : sites.Closed) {ledger after : Ledger}
    (hledger : ledger.Genuine sites) {parent : Option TypeDefinition} {address : Address}
    {selections : SelectionSet} (hset : sites.Set parent address selections)
    {conflicts : List Conflict}
    (h : conflictsIn schema document ledger parent address selections = some (after, conflicts)) :
    after.Genuine sites ∧ ledger.Grows after := by
  obtain ⟨middle, set, hgather, hmiddle, hmatches, hfound⟩ := Ledger.gather_set hledger hset
  simp only [conflictsIn, hgather] at h
  have htasks : ∀ task ∈ tasksForSet set, task.Genuine sites := fun _ =>
    genuine_of_mem_tasksForSet hsites hfound.self
  obtain ⟨hafter, hgrows⟩ := doAll_keeps (doTask_keeps hsites) htasks hmiddle h
  exact ⟨hafter, hmatches.sets ▸ hgrows.sets, hmatches.pairs ▸ hgrows.pairs⟩

/-! ## The tasks for sets of a document -/

/-- Whoever asks for a set finds the fields that it shows. -/
theorem Sites.Coherent.exists_entry (hsites : sites.Coherent) {parent : Option TypeDefinition}
    {address : Address} {selections : SelectionSet} (hset : sites.Set parent address selections)
    {entry : Entry} (h : sites.Shows address entry) :
    ∃ other, Item.entry other ∈ itemsOfAll schema parent address 0 selections ∧
      other.plain = entry.plain := by
  obtain ⟨p, s, found, hp, hfound, hplain⟩ := h
  obtain ⟨other, hother, heq⟩ := hsites.entry hp hset hfound
  exact ⟨other, hother, heq.trans hplain⟩

theorem Gathered.IsAt.mem_spreads_iff (hsites : sites.Coherent) {gathered : Gathered}
    {address : Address} {selections : SelectionSet} (h : gathered.IsAt sites address selections)
    {name : Name} : name ∈ gathered.spreads ↔ sites.Spreads address name := by
  obtain ⟨parent, hset, rfl⟩ := h
  rw [(gather_collects ..).spreads name]
  constructor
  · exact fun hspread => ⟨parent, selections, hset, hspread⟩
  · rintro ⟨p, s, hp, hspread⟩
    exact hsites.spread hp hset hspread

theorem Gathered.IsAt.exists_of_mem_tasksBetween {first second : Gathered} {here there : Address}
    {s t : SelectionSet} (hfirst : first.IsAt sites here s) (hsecond : second.IsAt sites there t)
    {exclusive : Bool} {task : Task}
    (h : task ∈ tasksBetween exclusive first.fields second.fields) :
    ∃ a b, sites.Shows here a ∧ sites.Shows there b ∧ a.key = b.key ∧
      task = .fields a.key exclusive a b := by
  obtain ⟨p, q, a, b, hp, hq, ha, hb, hkey, rfl⟩ := hfirst.exists_fields hsecond h
  exact ⟨a, b, ⟨p, s, a, hp, ha, rfl⟩, ⟨q, t, b, hq, hb, rfl⟩, hkey, rfl⟩

theorem Gathered.IsAt.exists_mem_tasksBetween (hsites : sites.Coherent)
    {first second : Gathered} {here there : Address} {s t : SelectionSet}
    (hfirst : first.IsAt sites here s) (hsecond : second.IsAt sites there t) (exclusive : Bool)
    {a b : Entry} (ha : sites.Shows here a) (hb : sites.Shows there b) (hkey : a.key = b.key) :
    ∃ key a' b', a'.plain = a.plain ∧ b'.plain = b.plain ∧
      .fields key exclusive a' b' ∈ tasksBetween exclusive first.fields second.fields := by
  obtain ⟨p, hp, rfl⟩ := hfirst
  obtain ⟨q, hq, rfl⟩ := hsecond
  obtain ⟨a', ha', hplain⟩ := hsites.exists_entry hp ha
  obtain ⟨b', hb', hplain'⟩ := hsites.exists_entry hq hb
  have hkeys : a'.key = b'.key := by
    rw [Entry.key_eq_of_plain hplain, hkey, Entry.key_eq_of_plain hplain']
  exact ⟨a'.key, a', b', hplain, hplain',
    ((gather_collects ..).mem_tasksBetween (gather_collects ..)).mpr ⟨a', b', ha', hb', hkeys, rfl⟩⟩

end

end Merge

theorem Schema.FieldsOnComposites.closed {schema : Schema} (hschema : schema.FieldsOnComposites)
    {document : Document} : (Merge.Sites.placed schema document).Closed :=
  fun hplace hentry => Merge.Place.placed hschema hplace hentry

theorem Schema.FieldsOnComposites.coherent {schema : Schema}
    (hschema : schema.FieldsOnComposites) {document : Document} :
    (Merge.Sites.placed schema document).Coherent :=
  ⟨hschema.closed, fun hp hq => Merge.Place.exists_entry hschema hp hq,
    fun hp hq => Merge.Place.mem_spread hschema hp hq⟩

end QueryAudit
