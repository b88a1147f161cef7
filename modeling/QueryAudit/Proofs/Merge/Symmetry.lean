import QueryAudit.Proofs.Merge.Reading
import QueryAudit.Proofs.Merge.Runs
import QueryAudit.Proofs.Merge.Verdict

/-!
# Whether two fields conflict does not depend on their order

Two searches that start with the same two fields, one way round and the other, skip different
comparisons, since each skips what it has on its own ledger. But the trace of a search that finds
nothing covers every comparison of the other search, perhaps the other way round or on a weaker
assumption. So the other search finds nothing either, as long as it does not matter which of two
fields is asked whether their arguments differ.
-/

namespace QueryAudit

namespace Merge

/-- The comparison of the fields `x` and `y` may come to that of two others, on an assumption about
exclusiveness: by way of fields of one key in the sub-selections of two fields, fragments included.
-/
inductive Meets (schema : Schema) (document : Document) (x y : Entry) (exclusive : Bool) :
    Bool → Entry → Entry → Prop
  | start : Meets schema document x y exclusive exclusive x y
  | subfields {assumed : Bool} {a b inA inB : Entry}
      (h : Meets schema document x y exclusive assumed a b)
      (hfirst : Selects schema document (a.scopeAfter schema x y) a.address a.selections inA)
      (hsecond : Selects schema document (b.scopeAfter schema x y) b.address b.selections inB)
      (hkey : inA.key = inB.key) :
      Meets schema document x y exclusive (assumed || areExclusive a b) inA inB

section

variable {schema : Schema} {document : Document}

/-! ## Direct conflicts -/

theorem directReason?_of_le {weaker exclusive : Bool} (hle : weaker = true → exclusive = true)
    {a b : Entry} (h : directReason? schema weaker a b = none) :
    directReason? schema exclusive a b = none := by
  rw [directReason?_eq_none_iff] at h ⊢
  refine ⟨fun hfalse => h.1 ?_, h.2⟩
  cases weaker with
  | false => rfl
  | true => rw [hle rfl] at hfalse; cases hfalse

theorem directReason?_symm {exclusive : Bool} {a b : Entry}
    (harguments : exclusive = false → a.field.name = b.field.name →
      (ArgumentsDiffer schema a b ↔ ArgumentsDiffer schema b a))
    (h : directReason? schema exclusive a b = none) :
    directReason? schema exclusive b a = none := by
  rw [directReason?_eq_none_iff] at h ⊢
  refine ⟨fun hfalse => ?_, fun first second hfirst hsecond => ?_⟩
  · obtain ⟨hnames, hsame⟩ := h.1 hfalse
    exact ⟨hnames.symm, fun hdiffer => hsame ((harguments hfalse hnames).mpr hdiffer)⟩
  · rw [Schema.typesConflict_comm]
    exact h.2 second first hsecond hfirst

/-! ## Tasks on a trace -/

theorem Ledger.Covers.of_le {ledger : Ledger} {weaker exclusive : Bool} {a b : Name}
    (h : ledger.Covers weaker a b) (hle : weaker = true → exclusive = true) :
    ledger.Covers exclusive a b := by
  rcases h with rfl | ⟨key, least, hmem, hkey, hleast⟩
  · exact .inl rfl
  · exact .inr ⟨key, least, hmem, hkey, fun htrue => hle (hleast htrue)⟩

namespace Trace

variable {sites : Sites schema document} {trace : Trace}

/-- A task is on a trace, one way round or the other, on an assumption that is no stronger. -/
def Covers (trace : Trace) : Task → Prop
  | .fields _ exclusive a b => ∃ weaker, (weaker = true → exclusive = true) ∧ trace.Has weaker a b
  | .setWithFragment exclusive set name =>
      ∃ weaker, (weaker = true → exclusive = true) ∧
        (set.address, name, weaker) ∈ trace.ledger.setsWithFragments
  | .fragments exclusive a b => trace.ledger.Covers exclusive a b

theorem covers_of_mem_tasksBetween {first second : Gathered} {here there : Address}
    {s t : SelectionSet} (hfirst : first.IsAt sites here s) (hsecond : second.IsAt sites there t)
    {weaker exclusive : Bool} (hle : weaker = true → exclusive = true)
    (h : trace.HasBetween sites weaker here there) {task : Task}
    (htask : task ∈ tasksBetween exclusive first.fields second.fields) : trace.Covers task := by
  obtain ⟨a, b, ha, hb, hkey, rfl⟩ := hfirst.exists_of_mem_tasksBetween hsecond htask
  exact ⟨weaker, hle, h a b ha hb hkey⟩

theorem covers_of_mem_tasksForSubsets (hsites : sites.Coherent) {first second : Gathered}
    {here there : Address} {s t : SelectionSet} (hfirst : first.IsAt sites here s)
    (hsecond : second.IsAt sites there t) {weaker exclusive : Bool}
    (hle : weaker = true → exclusive = true) (h : trace.SubsetsClosed sites weaker here there)
    {task : Task} (htask : task ∈ tasksForSubsets exclusive first second) : trace.Covers task := by
  simp only [tasksForSubsets, List.mem_append, List.mem_map, List.mem_flatMap] at htask
  rcases htask with ((hbetween | ⟨name, hname, rfl⟩) | ⟨name, hname, rfl⟩) |
    ⟨name, hname, other, hother, rfl⟩
  · exact covers_of_mem_tasksBetween hfirst hsecond hle h.between hbetween
  · refine ⟨weaker, hle, ?_⟩
    rw [hfirst.address_eq]
    exact h.first name ((hsecond.mem_spreads_iff hsites).mp hname)
  · refine ⟨weaker, hle, ?_⟩
    rw [hsecond.address_eq]
    exact h.second name ((hfirst.mem_spreads_iff hsites).mp hname)
  · have hcovers := h.pairs name other ((hfirst.mem_spreads_iff hsites).mp hname)
      ((hsecond.mem_spreads_iff hsites).mp hother)
    exact hcovers.of_le hle

/-- A closed trace that covers a task covers the tasks that it breaks into. -/
theorem Closed.covers (hsites : sites.Coherent) (hclosed : trace.Closed sites .empty)
    {ledger : Ledger} {task : Task} {opened : Opened} (hopens : Opens sites ledger task opened)
    (htask : task.Genuine sites) (h : trace.Covers task) :
    ∀ other ∈ opened.tasks, trace.Covers other := by
  intro other hother
  cases hopens with
  | direct | leaf | setKnown | setAlone | pairKnown | pairMissing => cases hother
  | subfields hreason hgenuine hmatches hfirst hsecond hsome =>
      obtain ⟨weaker, hle, hhas⟩ := h
      have hsubsets := (hclosed.of_has hhas).2 hsome.1 hsome.2
      exact covers_of_mem_tasksForSubsets hsites hfirst hsecond (or_of_le hle) hsubsets hother
  | setWithFragment hnew hgenuine hsets hpairs hlocate hfound hapart =>
      obtain ⟨weaker, hle, hmem⟩ := h
      obtain ⟨⟨selections, hset⟩, -⟩ := htask
      have hsetClosed := (hclosed.sets _ hmem).resolve_left List.not_mem_nil
      obtain ⟨hbetween, hnext⟩ := (hsetClosed _ _ hlocate).resolve_left hapart
      rcases List.mem_append.mp hother with hother | hother
      · exact covers_of_mem_tasksBetween hset hfound hle hbetween hother
      · obtain ⟨name, hname, rfl⟩ := List.mem_map.mp hother
        exact ⟨weaker, hle, hnext name ((hfound.mem_spreads_iff hsites).mp hname)⟩
  | pair hnew hgenuine hsets hpairs hlocateA hlocateB hfirst hsecond hapart =>
      obtain ⟨weaker, hle, hpairClosed⟩ := (hclosed.pairClosed_of_covers h).resolve_left hapart
      obtain ⟨hbetween, hleft, hright⟩ := hpairClosed _ _ _ _ hlocateA hlocateB
      simp only [Opened.into, List.mem_append, List.mem_map] at hother
      rcases hother with (hother | ⟨name, hname, rfl⟩) | ⟨name, hname, rfl⟩
      · exact covers_of_mem_tasksBetween hfirst hsecond hle hbetween hother
      · exact (hleft name ((hsecond.mem_spreads_iff hsites).mp hname)).of_le hle
      · exact (hright name ((hfirst.mem_spreads_iff hsites).mp hname)).of_le hle

end Trace

/-! ## Tasks that a comparison comes to -/

section

variable (schema document) (x y : Entry) (exclusive : Bool)

/-- The set at an address, as a search reads it, selects a field, itself or by way of fragments. -/
def Reads (address : Address) (entry : Entry) : Prop :=
  ∃ type selections, document.setAt? schema address = some (type, selections) ∧
    Selects schema document (typeAt schema document x y address) address selections entry

/-- The comparison of two fields may come to that of two others, one way round or the other. -/
def MeetsEither (assumed : Bool) (a b : Entry) : Prop :=
  Meets schema document x y exclusive assumed a b ∨ Meets schema document x y exclusive assumed b a

/-- The comparison of two fields may come to that of any two fields of one key in two sets. -/
def MeetsAll (assumed : Bool) (here there : Address) : Prop :=
  ∀ a b, Reads schema document x y here a → Reads schema document x y there b → a.key = b.key →
    MeetsEither schema document x y exclusive assumed a b

/-- The comparison of two fields may come to a task. -/
def MeetsTask : Task → Prop
  | .fields _ assumed a b => MeetsEither schema document x y exclusive assumed a b
  | .setWithFragment assumed set name =>
      ∀ target fragment, locate? document name = some (target, fragment) →
        MeetsAll schema document x y exclusive assumed set.address target
  | .fragments assumed a b =>
      ∀ targetA fragmentA targetB fragmentB, locate? document a = some (targetA, fragmentA) →
        locate? document b = some (targetB, fragmentB) →
          MeetsAll schema document x y exclusive assumed targetA targetB

end

variable {x y : Entry} {exclusive : Bool}

theorem MeetsAll.symm {assumed : Bool} {here there : Address}
    (h : MeetsAll schema document x y exclusive assumed here there) :
    MeetsAll schema document x y exclusive assumed there here :=
  fun a b ha hb hkey => (h b a hb ha hkey.symm).symm

theorem MeetsAll.mono {assumed : Bool} {here there here' there' : Address}
    (h : MeetsAll schema document x y exclusive assumed here there)
    (hhere : ∀ entry, Reads schema document x y here' entry → Reads schema document x y here entry)
    (hthere : ∀ entry, Reads schema document x y there' entry →
      Reads schema document x y there entry) :
    MeetsAll schema document x y exclusive assumed here' there' :=
  fun a b ha hb hkey => h a b (hhere a ha) (hthere b hb) hkey

/-- What a fragment shows is read in a set that spreads it. -/
theorem Reads.of_spread {address target : Address} {name : Name} {fragment : Fragment}
    (hspread : (Sites.reading schema document x y).Spreads address name)
    (hlocate : locate? document name = some (target, fragment)) (entry : Entry)
    (h : Reads schema document x y target entry) : Reads schema document x y address entry := by
  obtain ⟨_, selections, ⟨rfl, type, hset⟩, hmem⟩ := hspread
  obtain ⟨other, inner, hinner, path, hpath⟩ := h
  have ⟨htype, _, hstands⟩ := (Sites.reading schema document x y).located hlocate
  rw [hstands] at hinner
  cases hinner
  rw [← htype] at hpath
  exact ⟨type, selections, hset, name :: path, hmem, target, fragment, hlocate, hpath⟩

theorem reads_of_shows {address : Address} {selections : SelectionSet}
    {parent : Option TypeDefinition} {entry : Entry}
    (hset : (Sites.reading schema document x y).Set parent address selections)
    (h : Item.entry entry ∈ itemsOfAll schema parent address 0 selections) :
    Reads schema document x y address entry := by
  obtain ⟨rfl, type, hstands⟩ := hset
  exact ⟨type, selections, hstands, [], h⟩

theorem meetsTask_of_mem_tasksBetween {first second : Gathered} {here there : Address}
    {s t : SelectionSet} (hfirst : first.IsAt (Sites.reading schema document x y) here s)
    (hsecond : second.IsAt (Sites.reading schema document x y) there t) {assumed : Bool}
    (h : MeetsAll schema document x y exclusive assumed here there) {task : Task}
    (htask : task ∈ tasksBetween assumed first.fields second.fields) :
    MeetsTask schema document x y exclusive task := by
  obtain ⟨p, q, a, b, hp, hq, ha, hb, hkey, rfl⟩ := hfirst.exists_fields hsecond htask
  exact h a b (reads_of_shows hp ha) (reads_of_shows hq hb) hkey

theorem meetsTask_of_mem_tasksForSubsets (hxy : Comparable schema document x y)
    {first second : Gathered} {here there : Address} {s t : SelectionSet}
    (hfirst : first.IsAt (Sites.reading schema document x y) here s)
    (hsecond : second.IsAt (Sites.reading schema document x y) there t) {assumed : Bool}
    (h : MeetsAll schema document x y exclusive assumed here there) {task : Task}
    (htask : task ∈ tasksForSubsets assumed first second) :
    MeetsTask schema document x y exclusive task := by
  have hsites := Sites.reading_coherent hxy
  simp only [tasksForSubsets, List.mem_append, List.mem_map, List.mem_flatMap] at htask
  rcases htask with ((hbetween | ⟨name, hname, rfl⟩) | ⟨name, hname, rfl⟩) |
    ⟨name, hname, other, hother, rfl⟩
  · exact meetsTask_of_mem_tasksBetween hfirst hsecond h hbetween
  · intro target fragment hlocate
    have hspread := (hsecond.mem_spreads_iff hsites).mp hname
    rw [hfirst.address_eq]
    exact h.mono (fun _ => id) (Reads.of_spread hspread hlocate)
  · intro target fragment hlocate
    have hspread := (hfirst.mem_spreads_iff hsites).mp hname
    rw [hsecond.address_eq]
    exact h.symm.mono (fun _ => id) (Reads.of_spread hspread hlocate)
  · intro targetA fragmentA targetB fragmentB hlocateA hlocateB
    have hspread := (hfirst.mem_spreads_iff hsites).mp hname
    have hspread' := (hsecond.mem_spreads_iff hsites).mp hother
    exact h.mono (Reads.of_spread hspread hlocateA) (Reads.of_spread hspread' hlocateB)

/-- From the comparison of two fields the search comes to those in their sub-selections. -/
theorem MeetsEither.below {assumed : Bool} {a b : Entry}
    (h : MeetsEither schema document x y exclusive assumed a b)
    (ha : (Sites.reading schema document x y).Field a)
    (hb : (Sites.reading schema document x y).Field b) :
    MeetsAll schema document x y exclusive (assumed || areExclusive a b) a.address b.address := by
  have hselects : ∀ entry inner, (Sites.reading schema document x y).Field entry →
      Reads schema document x y entry.address inner →
      Selects schema document (entry.scopeAfter schema x y) entry.address entry.selections
        inner := by
    rintro entry inner ⟨hscope, type, hstands⟩ ⟨other, selections, hset, hselects⟩
    rw [hstands] at hset
    cases hset
    rw [hscope]
    exact hselects
  intro inA inB hinA hinB hkey
  have hA := hselects a inA ha hinA
  have hB := hselects b inB hb hinB
  rcases h with h | h
  · exact .inl (.subfields h hA hB hkey)
  · rw [areExclusive_comm]
    exact .inr (.subfields h hB hA hkey.symm)

/-- The tasks that a task breaks into are come to with it. -/
theorem Opens.meetsTask (hxy : Comparable schema document x y) {ledger : Ledger} {task : Task}
    {opened : Opened} (hopens : Opens (Sites.reading schema document x y) ledger task opened)
    (htask : task.Genuine (Sites.reading schema document x y))
    (h : MeetsTask schema document x y exclusive task) :
    ∀ other ∈ opened.tasks, MeetsTask schema document x y exclusive other := by
  have hsites := Sites.reading_coherent hxy
  intro other hother
  cases hopens with
  | direct | leaf | setKnown | setAlone | pairKnown | pairMissing => cases hother
  | subfields hreason hgenuine hmatches hfirst hsecond =>
      have hbelow := MeetsEither.below h htask.1 htask.2.1
      exact meetsTask_of_mem_tasksForSubsets hxy hfirst hsecond hbelow hother
  | setWithFragment hnew hgenuine hsets hpairs hlocate hfound =>
      obtain ⟨⟨selections, hset⟩, -⟩ := htask
      rcases List.mem_append.mp hother with hother | hother
      · exact meetsTask_of_mem_tasksBetween hset hfound (h _ _ hlocate) hother
      · obtain ⟨name, hname, rfl⟩ := List.mem_map.mp hother
        intro target fragment hnext
        have hspread := (hfound.mem_spreads_iff hsites).mp hname
        exact (h _ _ hlocate).mono (fun _ => id) (Reads.of_spread hspread hnext)
  | pair hnew hgenuine hsets hpairs hlocateA hlocateB hfirst hsecond =>
      have hall := h _ _ _ _ hlocateA hlocateB
      simp only [Opened.into, List.mem_append, List.mem_map] at hother
      rcases hother with (hother | ⟨name, hname, rfl⟩) | ⟨name, hname, rfl⟩
      · exact meetsTask_of_mem_tasksBetween hfirst hsecond hall hother
      · intro targetA fragmentA targetB fragmentB hnextA hnextB
        rw [hlocateA] at hnextA
        cases hnextA
        have hspread := (hsecond.mem_spreads_iff hsites).mp hname
        exact hall.mono (fun _ => id) (Reads.of_spread hspread hnextB)
      · intro targetA fragmentA targetB fragmentB hnextA hnextB
        rw [hlocateB] at hnextB
        cases hnextB
        have hspread := (hfirst.mem_spreads_iff hsites).mp hname
        exact hall.mono (Reads.of_spread hspread hnextA) fun _ => id

/-! ## The other way round -/

/-- Of the searches through the sub-selections of two fields, one way round and the other, the
second finds nothing if the first finds nothing. -/
theorem doAll_swapped (hxy : Comparable schema document x y)
    (hfree : ∀ assumed a b, Meets schema document x y exclusive assumed a b →
      (assumed || areExclusive a b) = false → a.field.name = b.field.name →
        (ArgumentsDiffer schema a b ↔ ArgumentsDiffer schema b a))
    {first second first' second' : Gathered} {here there : Address} {s t : SelectionSet}
    (hfirst : first.IsAt (Sites.reading schema document x y) here s)
    (hsecond : second.IsAt (Sites.reading schema document x y) there t)
    (hfirst' : first'.IsAt (Sites.reading schema document x y) there t)
    (hsecond' : second'.IsAt (Sites.reading schema document x y) here s) {assumed : Bool}
    (hmeets : MeetsAll schema document x y exclusive assumed here there)
    {start start' after after' : Ledger}
    (hstart : start.Genuine (Sites.reading schema document x y))
    (hstart' : start'.Genuine (Sites.reading schema document x y))
    (hempty : Ledger.empty.Matches start) {depth : Nat} {conflicts : List Conflict}
    (h : doAll (doTask schema document depth) start (tasksForSubsets assumed first second) =
      some (after, []))
    (h' : doAll (doTask schema document depth) start' (tasksForSubsets assumed first' second') =
      some (after', conflicts)) : conflicts = [] := by
  have hsites := Sites.reading_coherent hxy
  obtain ⟨compared, hclosed, hsettled⟩ := Trace.exists_closed_of_doAll hsites
    (Trace.exists_closed_of_doTask hsites)
    (fun task => genuine_of_mem_tasksForSubsets hsites.closed hfirst hsecond) hstart h
  -- The trace of the first search covers what the second one starts with, so by `hopen` it covers
  -- all that the second one calls.
  replace hclosed := Trace.Closed.of_matches hempty hclosed
  have hsubsets := (Trace.subsetsClosed_of_settles hsites hfirst hsecond hsettled).symm
  obtain ⟨calls, hruns⟩ := exists_runs h'
  have hopen : ∀ ledger task, ledger.Genuine (Sites.reading schema document x y) →
      task.Genuine (Sites.reading schema document x y) ∧ Trace.Covers ⟨after, compared⟩ task ∧
        MeetsTask schema document x y exclusive task →
      (openTask schema document ledger task).ledger.Genuine (Sites.reading schema document x y) ∧
        ∀ other ∈ (openTask schema document ledger task).tasks,
          other.Genuine (Sites.reading schema document x y) ∧
            Trace.Covers ⟨after, compared⟩ other ∧
            MeetsTask schema document x y exclusive other := by
    rintro ledger task hledger ⟨htask, hcovers, hmet⟩
    have hopens := opens_openTask hledger htask
    exact ⟨hopens.genuine_ledger hledger, fun other hother =>
      ⟨hopens.genuine_tasks hsites.closed htask other hother,
        hclosed.covers hsites hopens htask hcovers other hother,
        hopens.meetsTask hxy htask hmet other hother⟩⟩
  have hcalls := (hruns.keeps hopen hstart' fun task htask =>
    ⟨genuine_of_mem_tasksForSubsets hsites.closed hfirst' hsecond' htask,
      Trace.covers_of_mem_tasksForSubsets hsites hfirst' hsecond' id hsubsets htask,
      meetsTask_of_mem_tasksForSubsets hxy hfirst' hsecond' hmeets.symm htask⟩).2
  refine hruns.eq_nil_iff.mpr fun call hcall => ?_
  obtain ⟨-, -, hcovers, hmet⟩ := hcalls call hcall
  obtain ⟨ledger, task⟩ := call
  cases task with
  | setWithFragment | fragments => rfl
  | fields key assumed a b =>
      obtain ⟨weaker, hle, hhas⟩ := hcovers
      have harguments : (assumed || areExclusive a b) = false → b.field.name = a.field.name →
          (ArgumentsDiffer schema b a ↔ ArgumentsDiffer schema a b) := by
        intro hfalse hnames
        rcases hmet with hmet | hmet
        · exact (hfree assumed a b hmet hfalse hnames.symm).symm
        · exact hfree assumed b a hmet (areExclusive_comm a b ▸ hfalse) hnames
      rcases (hclosed.of_has hhas).1 with hdirect | hdirect
      · exact directReason?_of_le (or_of_le hle) hdirect
      · exact directReason?_symm harguments (directReason?_of_le (or_of_le hle) hdirect)

/-- The sets of some sites, none of them held. -/
@[reducible] def Sites.unheld (sites : Sites schema document) : Sites schema document where
  Set := sites.Set
  Field _ := False
  Held _ := False
  stands := sites.stands
  located := sites.located
  below := False.elim

theorem Ledger.mem_gather (schema : Schema) (ledger : Ledger) (parent : Option TypeDefinition)
    (address : Address) (selections : SelectionSet) :
    (∃ set, (address, set) ∈ (ledger.gather schema parent address selections).1.gathered) ∧
      ∀ pair ∈ ledger.gathered,
        pair ∈ (ledger.gather schema parent address selections).1.gathered := by
  unfold Ledger.gather
  cases hfound : ledger.gathered? address with
  | some found =>
      obtain ⟨⟨asked, gathered⟩, hpair, -⟩ := Option.map_eq_some_iff.mp hfound
      have haddress := List.find?_some hpair
      simp only [decide_eq_true_eq] at haddress
      subst haddress
      exact ⟨⟨gathered, List.mem_of_find?_eq_some hpair⟩, fun _ => id⟩
  | none => exact ⟨⟨_, List.mem_cons_self⟩, fun _ => List.mem_cons_of_mem _⟩

/-- An empty ledger gathers the sub-selections of two fields, and then it holds them. -/
theorem Ledger.exists_gather_both {sites : Sites schema document} {a b : Entry}
    (ha : sites.Set (a.scope schema) a.address a.selections)
    (hb : sites.Set (b.scope schema) b.address b.selections)
    (hheld : ∀ address, sites.Held address → address = a.address ∨ address = b.address) :
    ∃ middle start first second,
      Ledger.empty.gather schema (a.scope schema) a.address a.selections = (middle, first) ∧
      middle.gather schema (b.scope schema) b.address b.selections = (start, second) ∧
      start.Genuine sites ∧ Ledger.empty.Matches start ∧
      first.IsAt sites a.address a.selections ∧ second.IsAt sites b.address b.selections := by
  have hempty : Ledger.empty.Genuine sites.unheld := Ledger.genuine_empty_of_unheld fun _ => id
  obtain ⟨middle, first, hgather, hmiddle, hmatches, hfirst⟩ := Ledger.gather_set hempty ha
  obtain ⟨start, second, hgather', hstart, hmatches', hsecond⟩ := Ledger.gather_set hmiddle hb
  refine ⟨middle, start, first, second, hgather, hgather', ⟨hstart.gathered, ?_, hstart.pairs⟩,
    ⟨hmatches'.sets.trans hmatches.sets, hmatches'.pairs.trans hmatches.pairs⟩, hfirst, hsecond⟩
  intro address haddress
  have hmem := middle.mem_gather schema (b.scope schema) b.address b.selections
  rw [hgather'] at hmem
  rcases hheld address haddress with rfl | rfl
  · obtain ⟨set, hset⟩ :=
      (Ledger.empty.mem_gather schema (a.scope schema) a.address a.selections).1
    rw [hgather] at hset
    exact ⟨set, hmem.2 _ hset⟩
  · exact hmem.1

theorem doTask_fields_direct {key : Name} {assumed : Bool} {a b : Entry} {reason : MergeReason}
    (hreason : directReason? schema (assumed || areExclusive a b) a b = some reason) (depth : Nat)
    (ledger : Ledger) :
    doTask schema document (depth + 1) ledger (.fields key assumed a b) =
      some (ledger, [Conflict.direct key reason a b]) := by
  simp [doTask, openTask, openFields, hreason, doAll]

theorem doTask_fields_leaf {key : Name} {assumed : Bool} {a b : Entry}
    (hreason : directReason? schema (assumed || areExclusive a b) a b = none)
    (hempty : a.selections = [] ∨ b.selections = []) (depth : Nat) (ledger : Ledger) :
    doTask schema document (depth + 1) ledger (.fields key assumed a b) = some (ledger, []) := by
  have hnone : (a.selections.isEmpty || b.selections.isEmpty) = true := by simpa using hempty
  simp [doTask, openTask, openFields, hreason, hnone, doAll, Opened.nothing]

/-- Where two fields do not conflict by themselves, their comparison on an empty ledger is a search
through the sub-selections of both. -/
theorem exists_doTask_subfields {sites : Sites schema document} (hsites : sites.Closed)
    (key : Name) {assumed : Bool} {a b : Entry}
    (ha : sites.Set (a.scope schema) a.address a.selections)
    (hb : sites.Set (b.scope schema) b.address b.selections)
    (hheld : ∀ address, sites.Held address → address = a.address ∨ address = b.address)
    (hreason : directReason? schema (assumed || areExclusive a b) a b = none)
    (hsome : a.selections ≠ [] ∧ b.selections ≠ []) {depth : Nat}
    (hdepth : depthBound document ≤ depth + 1) :
    ∃ start first second after found, start.Genuine sites ∧ Ledger.empty.Matches start ∧
      first.IsAt sites a.address a.selections ∧ second.IsAt sites b.address b.selections ∧
      doAll (doTask schema document depth) start
        (tasksForSubsets (assumed || areExclusive a b) first second) = some (after, found) ∧
      doTask schema document (depth + 1) .empty (.fields key assumed a b) =
        some (after, Conflict.ofSubfields key a b found) := by
  obtain ⟨middle, start, first, second, hgather, hgather', hstart, hmatches, hfirst, hsecond⟩ :=
    Ledger.exists_gather_both ha hb hheld
  have htasks : ∀ task ∈ tasksForSubsets (assumed || areExclusive a b) first second,
      task.Genuine sites := fun _ => genuine_of_mem_tasksForSubsets hsites hfirst hsecond
  obtain ⟨⟨after, found⟩, hall⟩ := exists_doAll_of_genuine hsites hdepth htasks hstart
  refine ⟨start, first, second, after, found, hstart, hmatches, hfirst, hsecond, hall, ?_⟩
  unfold Entry.scope at hgather hgather'
  have hselections : (a.selections.isEmpty || b.selections.isEmpty) = false := by
    simpa using hsome
  simp [doTask, openTask, openFields, hreason, hselections, hgather, hgather', hall]

/-! ## Fields where the walk finds them -/

theorem placed_of_mem_fieldEntries {entry : Entry} (h : entry ∈ fieldEntries schema document) :
    Placed schema document entry := by
  obtain ⟨address, -, hentry⟩ := List.mem_filterMap.mp h
  cases address with
  | nil => cases hentry
  | cons number above =>
      have hfound := hentry
      obtain ⟨⟨type, siblings⟩, houter, hitem⟩ := Option.bind_eq_some_iff.mp hentry
      simp only at hitem
      split at hitem
      · cases hitem
        rw [Placed, hfound, Entry.plain, (Document.selectable_of_setAt? houter).1]
      · cases hitem

theorem Placed.isIn {entry : Entry} (h : Placed schema document entry) :
    entry.IsIn schema document := by
  unfold Placed at h
  cases haddress : entry.address with
  | nil =>
      rw [haddress] at h
      cases h
  | cons number above =>
      rw [haddress] at h
      obtain ⟨⟨type, siblings⟩, houter, hitem⟩ := Option.bind_eq_some_iff.mp h
      simp only at hitem
      split at hitem
      · rename_i chosen inner hchosen
        have hplain := Option.some.inj hitem
        have hfield := congrArg Entry.field hplain
        have hselections := congrArg Entry.selections hplain
        simp only [Entry.plain] at hfield hselections
        exact ⟨number, above, type, siblings, haddress, houter,
          by rw [hchosen, hfield, hselections]⟩
      · cases hitem

theorem Placed.comparable {a b : Entry} (ha : Placed schema document a)
    (hb : Placed schema document b) : Comparable schema document a b :=
  ⟨ha.isIn, hb.isIn, fun hsame => Entry.definition_eq_of_plain (ha.eq_plain hb hsame)⟩

theorem Placed.scopeAfter_eq {entry : Entry} (h : Placed schema document entry)
    (hx : Placed schema document x) (hy : Placed schema document y) :
    entry.scopeAfter schema x y = entry.scope schema := by
  unfold Entry.scopeAfter
  split
  · rename_i hsame
    exact Entry.scope_eq_of_plain schema (hx.eq_plain h hsame.symm)
  · split
    · rename_i hsame
      exact Entry.scope_eq_of_plain schema (hy.eq_plain h hsame.symm)
    · rfl

theorem Meets.placed (hschema : schema.FieldsOnComposites) (hx : Placed schema document x)
    (hy : Placed schema document y) (hkey : x.key = y.key) {assumed : Bool} {a b : Entry}
    (h : Meets schema document x y exclusive assumed a b) :
    Placed schema document a ∧ Placed schema document b ∧ a.key = b.key := by
  induction h with
  | start => exact ⟨hx, hy, hkey⟩
  | subfields h hfirst hsecond hkeys ih =>
      obtain ⟨ha, hb, -⟩ := ih
      rw [ha.scopeAfter_eq hx hy] at hfirst
      rw [hb.scopeAfter_eq hx hy] at hsecond
      exact ⟨hfirst.placed hschema ha.place, hsecond.placed hschema hb.place, hkeys⟩

/-- In a document in which the order of two fields never matters to their arguments, it does not
where the comparison of two fields comes to two others. -/
theorem OrderFree.of_meets (hschema : schema.FieldsOnComposites)
    (hfree : OrderFree schema document) (hx : Placed schema document x)
    (hy : Placed schema document y) (hkey : x.key = y.key) (assumed : Bool) (a b : Entry)
    (h : Meets schema document x y exclusive assumed a b) (hnames : a.field.name = b.field.name) :
    ArgumentsDiffer schema a b ↔ ArgumentsDiffer schema b a := by
  obtain ⟨ha, hb, hkeys⟩ := h.placed hschema hx hy hkey
  exact ⟨hfree.symm a.plain ha.mem_fieldEntries b.plain hb.mem_fieldEntries hkeys hnames,
    hfree.symm b.plain hb.mem_fieldEntries a.plain ha.mem_fieldEntries hkeys.symm hnames.symm⟩

theorem ofSubfields_eq_nil_iff {key : Name} {a b : Entry} {found : List Conflict} :
    Conflict.ofSubfields key a b found = [] ↔ found = [] := by
  simp [Conflict.ofSubfields]

end

end Merge

open Merge in
/-- Take two fields of a document, on whatever types and with whatever definitions, but with one
definition if they are one field. Suppose that where the comparison of the two comes to fields of
one name that may be both present, it does not matter which of them is asked whether their arguments
differ. Then the comparison of the two on an empty ledger ends, and finds a conflict exactly if the
comparison the other way round does. -/
theorem overlapping_fields_symmetric {schema : Schema} {document : Document} {x y : Entry}
    (hxy : Comparable schema document x y) (key : Name) (exclusive : Bool)
    (hfree : ∀ assumed a b, Meets schema document x y exclusive assumed a b →
      (assumed || areExclusive a b) = false → a.field.name = b.field.name →
        (ArgumentsDiffer schema a b ↔ ArgumentsDiffer schema b a)) :
    ∃ after conflicts after' conflicts',
      doTask schema document (depthBound document) .empty (.fields key exclusive x y) =
        some (after, conflicts) ∧
      doTask schema document (depthBound document) .empty (.fields key exclusive y x) =
        some (after', conflicts') ∧
      (conflicts = [] ↔ conflicts' = []) := by
  obtain ⟨depth, hdepth⟩ : ∃ depth, depthBound document = depth + 1 := ⟨_, rfl⟩
  have hsites := Sites.reading_coherent hxy
  have hcomm : (exclusive || areExclusive y x) = (exclusive || areExclusive x y) := by
    rw [areExclusive_comm]
  have hsymm : directReason? schema (exclusive || areExclusive x y) x y = none ↔
      directReason? schema (exclusive || areExclusive y x) y x = none := by
    rw [hcomm]
    refine ⟨directReason?_symm (hfree exclusive x y .start), directReason?_symm ?_⟩
    exact fun hfalse hnames => (hfree exclusive x y .start hfalse hnames.symm).symm
  rw [hdepth]
  cases hreason : directReason? schema (exclusive || areExclusive x y) x y with
  | some reason =>
      cases hreason' : directReason? schema (exclusive || areExclusive y x) y x with
      | none =>
          rw [hsymm.mpr hreason'] at hreason
          cases hreason
      | some other =>
          exact ⟨_, _, _, _, doTask_fields_direct hreason depth _,
            doTask_fields_direct hreason' depth _, by simp⟩
  | none =>
      have hreason' := hsymm.mp hreason
      by_cases hempty : x.selections = [] ∨ y.selections = []
      · exact ⟨_, _, _, _, doTask_fields_leaf hreason hempty depth _,
          doTask_fields_leaf hreason' hempty.symm depth _, Iff.rfl⟩
      · have hsome := not_or.mp hempty
        -- Either way round both sets are gathered before any other, so both searches read alike.
        have hboth : MeetsEither schema document x y exclusive exclusive x y := .inl .start
        have hmeets := hboth.below hxy.field_first hxy.field_second
        obtain ⟨start, first, second, after, found, hstart, hmatches, hfirst, hsecond, hall,
          hdone⟩ := exists_doTask_subfields hsites.closed key hxy.set_first hxy.set_second
            (fun _ => id) hreason hsome (Nat.le_of_eq hdepth)
        obtain ⟨start', first', second', after', found', hstart', hmatches', hfirst', hsecond',
          hall', hdone'⟩ := exists_doTask_subfields hsites.closed key hxy.set_second hxy.set_first
            (fun _ => Or.symm) hreason' hsome.symm (Nat.le_of_eq hdepth)
        refine ⟨_, _, _, _, hdone, hdone', ?_⟩
        rw [ofSubfields_eq_nil_iff, ofSubfields_eq_nil_iff]
        rw [hcomm] at hall'
        constructor
        · rintro rfl
          exact doAll_swapped hxy hfree hfirst hsecond hfirst' hsecond' hmeets hstart hstart'
            hmatches hall hall'
        · rintro rfl
          exact doAll_swapped hxy hfree hfirst' hsecond' hfirst hsecond hmeets.symm hstart' hstart
            hmatches' hall' hall

open Merge in
/-- Two fields whose sub-selections clash by way of fragments that spread each other; and two fields
that conflict one way round and not the other, since the definition of the first tells how their
arguments are read. -/
theorem overlapping_fields_symmetric_cyclic :
    (∃ (schema : Schema) (document : Document) (x y : Entry) (after after' : Ledger)
      (conflicts conflicts' : List Conflict), Comparable schema document x y ∧
      doTask schema document (depthBound document) .empty (.fields x.key false x y) =
        some (after, conflicts) ∧
      doTask schema document (depthBound document) .empty (.fields x.key false y x) =
        some (after', conflicts') ∧ conflicts ≠ [] ∧ conflicts' ≠ []) ∧
    ∃ (schema : Schema) (document : Document) (x y : Entry) (after after' : Ledger)
      (conflicts : List Conflict), Comparable schema document x y ∧ x.key = y.key ∧
      doTask schema document (depthBound document) .empty (.fields x.key false x y) =
        some (after, []) ∧
      doTask schema document (depthBound document) .empty (.fields x.key false y x) =
        some (after', conflicts) ∧ conflicts ≠ [] := by
  constructor
  · have hpass : Schema.textsPass (fun schema document =>
        decide schema.FieldsOnComposites && decide (OrderFree schema document) &&
          (fieldEntries schema document).any fun x =>
            (fieldEntries schema document).any fun y =>
              decide (x.key = "q") && decide (y.key = "q") && decide (x.address ≠ y.address) &&
                (doTask schema document (depthBound document) .empty
                  (.fields x.key false x y)).any fun result => !result.2.isEmpty)
        "type Query{a(n:Int):Int b:Int q:Query}"
        "{...F q{...G}}
         fragment F on Query{q{x:a(n:1)}...G}
         fragment G on Query{q{...on Query{x:b}...F}...F}" = true := by
      decide +kernel
    obtain ⟨schema, document, -, hcheck⟩ := Schema.exists_of_textsPass hpass
    simp only [Bool.and_eq_true, decide_eq_true_eq, List.any_eq_true, Option.any_eq_true] at hcheck
    obtain ⟨⟨hschema, hfree⟩, x, hx, y, hy, ⟨⟨⟨hkeyX, hkeyY⟩, -⟩, result, hdone, hfound⟩⟩ := hcheck
    have hx := placed_of_mem_fieldEntries hx
    have hy := placed_of_mem_fieldEntries hy
    obtain ⟨after, conflicts, after', conflicts', h, h', hiff⟩ :=
      overlapping_fields_symmetric (hx.comparable hy) x.key false fun assumed a b hmeets _ =>
        hfree.of_meets hschema hx hy (hkeyX.trans hkeyY.symm) assumed a b hmeets
    have hconflicts : conflicts ≠ [] := by
      rw [h, Option.some.injEq] at hdone
      rw [← hdone] at hfound
      simpa using hfound
    exact ⟨schema, document, x, y, after, after', conflicts, conflicts', hx.comparable hy, h, h',
      hconflicts, fun hnone => hconflicts (hiff.mpr hnone)⟩
  · have hpass : Schema.textsPass (fun schema document =>
        (fieldEntries schema document).any fun x =>
          (fieldEntries schema document).any fun y => decide (x.key = y.key) &&
            ((doTask schema document (depthBound document) .empty
              (.fields x.key false x y)).any fun result => result.2.isEmpty) &&
            (doTask schema document (depthBound document) .empty
              (.fields x.key false y x)).any fun result => !result.2.isEmpty)
        "interface I{f(x:Float):Int}
         type A implements I{f(x:Int):Int}
         type Query{q:I}"
        "{q{f(x:1)...on A{f(x:1.0)}}}" = true := by
      decide +kernel
    obtain ⟨schema, document, -, hcheck⟩ := Schema.exists_of_textsPass hpass
    simp only [Bool.and_eq_true, decide_eq_true_eq, List.any_eq_true, Option.any_eq_true,
      List.isEmpty_iff, Bool.not_eq_true', List.isEmpty_eq_false_iff] at hcheck
    obtain ⟨x, hx, y, hy, ⟨hkey, ⟨after, _⟩, hdone, rfl⟩, ⟨after', conflicts⟩, hdone',
      hconflicts⟩ := hcheck
    exact ⟨schema, document, x, y, after, after', conflicts,
      (placed_of_mem_fieldEntries hx).comparable (placed_of_mem_fieldEntries hy), hkey, hdone,
      hdone', hconflicts⟩

end QueryAudit
