import QueryAudit.Proofs.Merge.Opening

/-!
# What the search finds is a clash

A task is asked for because a clash of the fields that it compares would be one of a set that the
walk enters. This is handed down from a task to those that it breaks into, so a conflict found at
the bottom is such a clash.

A fragment that spreads itself from inside an inline fragment makes the search compare a field with
itself. That finds something only if a field has other arguments than itself, as it may if it has
two arguments of one name.
-/

namespace QueryAudit.Merge

/-- Of two fields, one has other arguments than the other. -/
def DifferEitherWay (schema : Schema) (a b : Entry) : Prop :=
  ArgumentsDiffer schema a b ∨ ArgumentsDiffer schema b a

/-- Some field of a document has other arguments than itself. -/
def HasSelfDiffering (schema : Schema) (document : Document) : Prop :=
  ∃ a ∈ fieldEntries schema document, ArgumentsDiffer schema a a

section

variable {schema : Schema} {document : Document}

theorem differEitherWay_symm (a b : Entry) (h : DifferEitherWay schema a b) :
    DifferEitherWay schema b a := Or.symm h

theorem differEitherWay_congr {a a' b b' : Entry} (ha : a.plain = a'.plain)
    (hb : b.plain = b'.plain) (h : DifferEitherWay schema a b) : DifferEitherWay schema a' b' :=
  h.imp (argumentsDiffer_congr ha hb).mp (argumentsDiffer_congr hb ha).mp

/-! ## Clashes of one set -/

/-- Two fields that clash and that sets show are selected by whoever asks for the sets. -/
theorem exists_clash_of_shownBy (hschema : schema.FieldsOnComposites) {p q : List Name}
    {parentA parentB : Option TypeDefinition} {addressA addressB : Address} {s t : SelectionSet}
    {a b : Entry} {exclusive : Bool} (hplaceA : Place schema document parentA addressA s)
    (hplaceB : Place schema document parentB addressB t)
    (ha : ShownBy schema document p addressA a) (hb : ShownBy schema document q addressB b)
    (distinct : a.address ≠ b.address) (key : a.key = b.key)
    (clash : Clash schema document (DifferEitherWay schema) exclusive a b) :
    ∃ a' b', Selects schema document parentA addressA s a' ∧
      Selects schema document parentB addressB t b' ∧ a'.address ≠ b'.address ∧ a'.key = b'.key ∧
      Clash schema document (DifferEitherWay schema) exclusive a' b' := by
  obtain ⟨a', ha', haplain⟩ := ha.exists_selectsBy hschema hplaceA
  obtain ⟨b', hb', hbplain⟩ := hb.exists_selectsBy hschema hplaceB
  refine ⟨a', b', ⟨p, ha'⟩, ⟨q, hb'⟩, ?_, ?_, ?_⟩
  · rw [Entry.address_eq_of_plain haplain, Entry.address_eq_of_plain hbplain]
    exact distinct
  · rw [Entry.key_eq_of_plain haplain, Entry.key_eq_of_plain hbplain]
    exact key
  · exact clash.congr (differEitherWay_congr haplain.symm hbplain.symm) haplain.symm hbplain.symm

theorem hasClash_of_shownBy (hschema : schema.FieldsOnComposites) {p q : List Name}
    {address : Address} {a b : Entry} {exclusive : Bool}
    (ha : ShownBy schema document p address a) (hb : ShownBy schema document q address b)
    (distinct : a.address ≠ b.address) (key : a.key = b.key)
    (clash : Clash schema document (DifferEitherWay schema) exclusive a b) :
    HasClash schema document (DifferEitherWay schema) := by
  have ⟨parent, selections, _, hplace, _⟩ := ha
  have hset := place_of_setAt? hplace.set
  have hweaker : Clash schema document (DifferEitherWay schema) false a b := clash.of_le nofun
  obtain ⟨a', b', hclash⟩ :=
    exists_clash_of_shownBy hschema hset hset ha hb distinct key hweaker
  exact ⟨selectable parent, address, selections, a', b', Document.enters_iff.mpr hplace.set, hclash⟩

theorem clash_of_shownBy (hschema : schema.FieldsOnComposites) {p q : List Name}
    {a b inA inB : Entry} {exclusive : Bool} (ha : Placed schema document a)
    (hb : Placed schema document b) (hinA : ShownBy schema document p a.address inA)
    (hinB : ShownBy schema document q b.address inB) (distinct : inA.address ≠ inB.address)
    (key : inA.key = inB.key)
    (clash : Clash schema document (DifferEitherWay schema) (exclusive || areExclusive a b)
      inA inB) :
    Clash schema document (DifferEitherWay schema) exclusive a b := by
  obtain ⟨a', b', ha', hb', hdistinct, hkey, hclash⟩ :=
    exists_clash_of_shownBy hschema ha.place hb.place hinA hinB distinct key clash
  exact .subfields ha' hb' hdistinct hkey hclash

/-! ## Why a task is asked for -/

/-- The set at an address selects a field, up to the types without fields on which fields may be
selected. -/
def Shown (schema : Schema) (document : Document) (address : Address) (entry : Entry) : Prop :=
  ∃ path, ShownBy schema document path address entry

theorem Shown.of_spread (hschema : schema.FieldsOnComposites) {address target : Address}
    {name : Name} {fragment : Fragment} {entry : Entry}
    (hspread : SpreadsAt schema document address name)
    (hlocate : locate? document name = some (target, fragment))
    (h : Shown schema document target entry) : Shown schema document address entry := by
  obtain ⟨path, hpath⟩ := h
  exact ⟨name :: path, (shownBy_cons hschema).mpr ⟨hspread, target, fragment, hlocate, hpath⟩⟩

/-- A clash between a field of one kind and a field of another proves a goal. -/
def ClashProves (schema : Schema) (document : Document) (goal : Prop) (exclusive : Bool)
    (first second : Entry → Prop) : Prop :=
  ∀ a b, first a → second b → a.address ≠ b.address → a.key = b.key →
    Clash schema document (DifferEitherWay schema) exclusive a b → goal

theorem ClashProves.symm {goal : Prop} {exclusive : Bool} {first second : Entry → Prop}
    (h : ClashProves schema document goal exclusive first second) :
    ClashProves schema document goal exclusive second first :=
  fun a b ha hb distinct key clash =>
    h b a hb ha distinct.symm key.symm (clash.symm differEitherWay_symm)

theorem ClashProves.mono {goal : Prop} {exclusive : Bool}
    {first second first' second' : Entry → Prop}
    (h : ClashProves schema document goal exclusive first second)
    (hfirst : ∀ a, first' a → first a) (hsecond : ∀ b, second' b → second b) :
    ClashProves schema document goal exclusive first' second' :=
  fun a b ha hb => h a b (hfirst a ha) (hsecond b hb)

/-- A clash between the fields that a task compares proves a goal. -/
def Task.Proves (schema : Schema) (document : Document) (goal : Prop) : Task → Prop
  | .fields _ exclusive a b =>
      a.address ≠ b.address → Clash schema document (DifferEitherWay schema) exclusive a b → goal
  | .setWithFragment exclusive set name =>
      ∀ target fragment, locate? document name = some (target, fragment) →
        ClashProves schema document goal exclusive (ShownBy schema document [] set.address)
          (Shown schema document target)
  | .fragments exclusive a b =>
      ∀ targetA fragmentA targetB fragmentB, locate? document a = some (targetA, fragmentA) →
        locate? document b = some (targetB, fragmentB) →
        ClashProves schema document goal exclusive (Shown schema document targetA)
          (Shown schema document targetB)

variable {goal : Prop}

theorem proves_of_mem_tasksBetween {first second : Gathered} {here there : Address}
    {s t : SelectionSet} (hfirst : first.IsAt (Sites.placed schema document) here s)
    (hsecond : second.IsAt (Sites.placed schema document) there t) {exclusive : Bool}
    (h : ClashProves schema document goal exclusive (ShownBy schema document [] here)
      (ShownBy schema document [] there)) {task : Task}
    (htask : task ∈ tasksBetween exclusive first.fields second.fields) :
    task.Proves schema document goal := by
  obtain ⟨a, b, ha, hb, hkey, rfl⟩ := hfirst.exists_of_mem_tasksBetween hsecond htask
  exact fun distinct clash => h a b ha hb distinct hkey clash

theorem proves_of_mem_tasksForSubsets (hschema : schema.FieldsOnComposites)
    {first second : Gathered} {here there : Address} {s t : SelectionSet}
    (hfirst : first.IsAt (Sites.placed schema document) here s)
    (hsecond : second.IsAt (Sites.placed schema document) there t) {exclusive : Bool}
    (h : ClashProves schema document goal exclusive (Shown schema document here)
      (Shown schema document there)) {task : Task}
    (htask : task ∈ tasksForSubsets exclusive first second) :
    task.Proves schema document goal := by
  have hlocal : ∀ address entry, ShownBy schema document [] address entry →
      Shown schema document address entry := fun _ _ hentry => ⟨[], hentry⟩
  simp only [tasksForSubsets, List.mem_append, List.mem_map, List.mem_flatMap] at htask
  rcases htask with ((hbetween | ⟨name, hname, rfl⟩) | ⟨name, hname, rfl⟩) |
    ⟨name, hname, other, hother, rfl⟩
  · exact proves_of_mem_tasksBetween hfirst hsecond (h.mono (hlocal here) (hlocal there)) hbetween
  · intro target fragment hlocate
    have hspread := (hsecond.mem_spreads_iff hschema.coherent).mp hname
    rw [hfirst.address_eq]
    exact h.mono (hlocal here) fun b hb => hb.of_spread hschema hspread hlocate
  · intro target fragment hlocate
    have hspread := (hfirst.mem_spreads_iff hschema.coherent).mp hname
    rw [hsecond.address_eq]
    exact h.symm.mono (hlocal there) fun a ha => ha.of_spread hschema hspread hlocate
  · intro targetA fragmentA targetB fragmentB hlocateA hlocateB
    have hspread := (hfirst.mem_spreads_iff hschema.coherent).mp hname
    have hspread' := (hsecond.mem_spreads_iff hschema.coherent).mp hother
    exact h.mono (fun a ha => ha.of_spread hschema hspread hlocateA)
      fun b hb => hb.of_spread hschema hspread' hlocateB

theorem proves_of_mem_tasksForSet (hschema : schema.FieldsOnComposites) {set : Gathered}
    {address : Address} {s : SelectionSet}
    (hset : set.IsAt (Sites.placed schema document) address s)
    (h : ClashProves schema document goal false (Shown schema document address)
      (Shown schema document address)) {task : Task} (htask : task ∈ tasksForSet set) :
    task.Proves schema document goal := by
  rcases List.mem_append.mp htask with hwithin | hspreads
  · obtain ⟨parent, hplace, rfl⟩ := hset
    obtain ⟨a, b, ha, hb, hkey, rfl⟩ := (gather_collects ..).exists_of_mem_tasksWithin hwithin
    exact fun distinct clash => h a b ⟨[], shownBy_nil hplace ha⟩ ⟨[], shownBy_nil hplace hb⟩
      distinct hkey clash
  · rcases exists_of_mem_tasksForSpreads hspreads with ⟨name, hname, rfl⟩ | ⟨a, ha, b, hb, rfl⟩
    · intro target fragment hlocate
      have hspread := (hset.mem_spreads_iff hschema.coherent).mp hname
      rw [hset.address_eq]
      exact h.mono (fun _ hentry => ⟨[], hentry⟩) fun b hb => hb.of_spread hschema hspread hlocate
    · intro targetA fragmentA targetB fragmentB hlocateA hlocateB
      have hspread := (hset.mem_spreads_iff hschema.coherent).mp ha
      have hspread' := (hset.mem_spreads_iff hschema.coherent).mp hb
      exact h.mono (fun _ hentry => hentry.of_spread hschema hspread hlocateA)
        fun _ hentry => hentry.of_spread hschema hspread' hlocateB

/-! ## From one task to the next -/

/-- What makes a goal follow from clashes in any one set and from a field that has other arguments
than itself. -/
structure Decides (schema : Schema) (document : Document) (goal : Prop) : Prop where
  set : ∀ address exclusive, ClashProves schema document goal exclusive
    (Shown schema document address) (Shown schema document address)
  self : ∀ a, Placed schema document a → ArgumentsDiffer schema a a → goal

theorem clash_of_directReason? {exclusive : Bool} {a b : Entry} {reason : MergeReason}
    (h : directReason? schema (exclusive || areExclusive a b) a b = some reason) :
    Clash schema document (DifferEitherWay schema) exclusive a b := by
  unfold directReason? at h
  split at h
  · rename_i hnames
    simp only [Bool.and_eq_true, Bool.not_eq_true', bne_iff_ne] at hnames
    exact .names hnames.1 hnames.2
  · split at h
    · rename_i harguments
      simp only [Bool.and_eq_true, Bool.not_eq_true'] at harguments
      exact .arguments harguments.1 (.inl harguments.2)
    · split at h
      · rename_i first second hfirst hsecond
        split at h
        · rename_i htypes
          exact .types hfirst hsecond htypes
        · cases h
      · cases h

/-- A field conflicts with itself by itself only if it has other arguments than itself. -/
theorem argumentsDiffer_of_directReason? {exclusive : Bool} {a b : Entry} {reason : MergeReason}
    (hplain : a.plain = b.plain) (h : directReason? schema exclusive a b = some reason) :
    ArgumentsDiffer schema a a := by
  have hfield := Entry.field_eq_of_plain hplain
  have hdefinition := Entry.definition_eq_of_plain hplain
  unfold directReason? at h
  split at h
  · rename_i hnames
    simp [hfield] at hnames
  · split at h
    · rename_i harguments
      simp only [Bool.and_eq_true, Bool.not_eq_true', ← hfield] at harguments
      exact harguments.2
    · split at h
      · rename_i first second hfirst hsecond
        rw [hdefinition, hsecond] at hfirst
        cases hfirst
        rw [Schema.typesConflict_self] at h
        cases h
      · cases h

theorem Decides.of_direct (hgoal : Decides schema document goal) {key : Name} {exclusive : Bool}
    {a b : Entry} (ha : Placed schema document a) (hb : Placed schema document b)
    (hproves : Task.Proves schema document goal (.fields key exclusive a b)) {reason : MergeReason}
    (h : directReason? schema (exclusive || areExclusive a b) a b = some reason) : goal := by
  by_cases hsame : a.address = b.address
  · exact hgoal.self a ha (argumentsDiffer_of_directReason? (ha.eq_plain hb hsame) h)
  · exact hproves hsame (clash_of_directReason? h)

theorem Decides.of_subfields (hschema : schema.FieldsOnComposites)
    (hgoal : Decides schema document goal) {key : Name} {exclusive : Bool} {a b : Entry}
    (ha : Placed schema document a) (hb : Placed schema document b)
    (hproves : Task.Proves schema document goal (.fields key exclusive a b)) :
    ClashProves schema document goal (exclusive || areExclusive a b)
      (Shown schema document a.address) (Shown schema document b.address) := by
  by_cases hsame : a.address = b.address
  · rw [← hsame]
    exact hgoal.set a.address _
  · rintro inA inB ⟨p, hinA⟩ ⟨q, hinB⟩ distinct hkey clash
    exact hproves hsame (clash_of_shownBy hschema ha hb hinA hinB distinct hkey clash)

/-- A task that proves a goal breaks into tasks that prove it, and it has no conflict but theirs
unless the goal holds. -/
theorem Opens.proves (hschema : schema.FieldsOnComposites) (hgoal : Decides schema document goal)
    {ledger : Ledger} {task : Task} {opened : Opened}
    (hopens : Opens (Sites.placed schema document) ledger task opened)
    (htask : task.Genuine (Sites.placed schema document))
    (hproves : task.Proves schema document goal) :
    (∀ other ∈ opened.tasks, other.Proves schema document goal) ∧
      ∀ conflicts, opened.conclude conflicts ≠ [] → conflicts ≠ [] ∨ goal := by
  cases hopens with
  | direct hreason =>
      exact ⟨by simp, fun _ _ => .inr (hgoal.of_direct htask.1 htask.2.1 hproves hreason)⟩
  | leaf | setKnown | setAlone | pairKnown | pairMissing =>
      exact ⟨by simp [Opened.nothing], fun _ hconflicts => .inl hconflicts⟩
  | subfields hreason hgenuine hmatches hfirst hsecond =>
      have hbelow := hgoal.of_subfields hschema htask.1 htask.2.1 hproves
      refine ⟨fun other => proves_of_mem_tasksForSubsets hschema hfirst hsecond hbelow, ?_⟩
      intro conflicts hconflicts
      refine .inl fun hempty => hconflicts ?_
      simp [Conflict.ofSubfields, hempty]
  | setWithFragment hnew hgenuine hsets hpairs hlocate hfound =>
      refine ⟨fun other hother => ?_, fun _ hconflicts => .inl hconflicts⟩
      obtain ⟨⟨selections, hset⟩, -⟩ := htask
      have hclash := hproves _ _ hlocate
      rcases List.mem_append.mp hother with hbetween | hspreads
      · exact proves_of_mem_tasksBetween hset hfound
          (hclash.mono (fun _ h => h) fun _ h => ⟨[], h⟩) hbetween
      · obtain ⟨name, hname, rfl⟩ := List.mem_map.mp hspreads
        intro target fragment hnext
        have hspread := (hfound.mem_spreads_iff hschema.coherent).mp hname
        exact hclash.mono (fun _ h => h) fun _ h => h.of_spread hschema hspread hnext
  | pair hnew hgenuine hsets hpairs hlocateA hlocateB hfirst hsecond =>
      refine ⟨fun other hother => ?_, fun _ hconflicts => .inl hconflicts⟩
      have hclash := hproves _ _ _ _ hlocateA hlocateB
      simp only [Opened.into, List.mem_append, List.mem_map] at hother
      rcases hother with (hbetween | ⟨name, hname, rfl⟩) | ⟨name, hname, rfl⟩
      · exact proves_of_mem_tasksBetween hfirst hsecond
          (hclash.mono (fun _ h => ⟨[], h⟩) fun _ h => ⟨[], h⟩) hbetween
      · intro targetA fragmentA targetB fragmentB hnextA hnextB
        have hspread := (hsecond.mem_spreads_iff hschema.coherent).mp hname
        rw [hlocateA] at hnextA
        cases hnextA
        exact hclash.mono (fun _ h => h) fun _ h => h.of_spread hschema hspread hnextB
      · intro targetA fragmentA targetB fragmentB hnextA hnextB
        have hspread := (hfirst.mem_spreads_iff hschema.coherent).mp hname
        rw [hlocateB] at hnextB
        cases hnextB
        exact hclash.mono (fun _ h => h.of_spread hschema hspread hnextA) fun _ h => h

theorem doAll_proves (hschema : schema.FieldsOnComposites) {depth : Nat}
    (hstep : ∀ {ledger after task conflicts}, ledger.Genuine (Sites.placed schema document) →
      task.Genuine (Sites.placed schema document) → task.Proves schema document goal →
      doTask schema document depth ledger task = some (after, conflicts) → conflicts ≠ [] → goal)
    {tasks : List Task} (htasks : ∀ task ∈ tasks, task.Genuine (Sites.placed schema document))
    (hproves : ∀ task ∈ tasks, task.Proves schema document goal) {ledger after : Ledger}
    (hledger : ledger.Genuine (Sites.placed schema document)) {conflicts : List Conflict}
    (h : doAll (doTask schema document depth) ledger tasks = some (after, conflicts))
    (hconflicts : conflicts ≠ []) : goal := by
  induction tasks generalizing ledger conflicts with
  | nil =>
      cases h
      exact absurd rfl hconflicts
  | cons task rest ih =>
      obtain ⟨middle, found, others, hfirst, hrest, rfl⟩ := doAll_cons h
      have htask := htasks task List.mem_cons_self
      by_cases hfound : found = []
      · have hothers : others ≠ [] := by simpa [hfound] using hconflicts
        have hmiddle := (doTask_keeps hschema.closed hledger htask hfirst).1
        exact ih (fun other hother => htasks other (List.mem_cons_of_mem _ hother))
          (fun other hother => hproves other (List.mem_cons_of_mem _ hother)) hmiddle hrest hothers
      · exact hstep hledger htask (hproves task List.mem_cons_self) hfirst hfound

/-- A task that proves a goal finds conflicts only if the goal holds. -/
theorem doTask_proves (hschema : schema.FieldsOnComposites) (hgoal : Decides schema document goal)
    {depth : Nat} {ledger after : Ledger} {task : Task} {conflicts : List Conflict}
    (hledger : ledger.Genuine (Sites.placed schema document))
    (htask : task.Genuine (Sites.placed schema document))
    (hproves : task.Proves schema document goal)
    (h : doTask schema document depth ledger task = some (after, conflicts))
    (hconflicts : conflicts ≠ []) : goal := by
  induction depth generalizing ledger after task conflicts with
  | zero => cases h
  | succ depth ih =>
      obtain ⟨found, hall, rfl⟩ := doTask_succ h
      have hopens := opens_openTask hledger htask
      obtain ⟨htasks, hconclude⟩ := hopens.proves hschema hgoal htask hproves
      rcases hconclude found hconflicts with hfound | hholds
      · exact doAll_proves hschema ih (hopens.genuine_tasks hschema.closed htask) htasks
          (hopens.genuine_ledger hledger) hall hfound
      · exact hholds

/-- If a set that the walk enters has conflicts, there is a clash or a field that has other
arguments than itself. -/
theorem hasClash_of_conflictsIn (hschema : schema.FieldsOnComposites) {ledger after : Ledger}
    (hledger : ledger.Genuine (Sites.placed schema document)) {parent : Option TypeDefinition}
    {address : Address} {selections : SelectionSet}
    (hplace : Place schema document parent address selections)
    {conflicts : List Conflict}
    (h : conflictsIn schema document ledger parent address selections = some (after, conflicts))
    (hconflicts : conflicts ≠ []) :
    HasClash schema document (DifferEitherWay schema) ∨ HasSelfDiffering schema document := by
  have hgoal : Decides schema document
      (HasClash schema document (DifferEitherWay schema) ∨ HasSelfDiffering schema document) := by
    refine ⟨?_, fun a ha hdiffer => ?_⟩
    · rintro address exclusive a b ⟨p, ha⟩ ⟨q, hb⟩ distinct key clash
      exact .inl (hasClash_of_shownBy hschema ha hb distinct key clash)
    · exact .inr ⟨a.plain, ha.mem_fieldEntries, hdiffer⟩
  obtain ⟨middle, set, hgather, hmiddle, -, hset⟩ := Ledger.gather_set hledger hplace
  simp only [conflictsIn, hgather] at h
  exact doAll_proves hschema (doTask_proves hschema hgoal)
    (fun task => genuine_of_mem_tasksForSet hschema.closed hset.self)
    (fun task => proves_of_mem_tasksForSet hschema hset (hgoal.set address false)) hmiddle h
    hconflicts

end

end QueryAudit.Merge
