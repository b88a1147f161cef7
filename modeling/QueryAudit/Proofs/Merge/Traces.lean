import QueryAudit.Proofs.Merge.Opening

/-!
# Traces of a search

A trace is what a search leaves: its ledger and the comparisons of two fields that it opened. The
trace of a search that finds nothing is closed: with a comparison it has all those that the
comparison breaks into.
-/

namespace QueryAudit.Merge

/-- What a search leaves: its ledger, and the comparisons of two fields that it opened. -/
structure Trace where
  ledger : Ledger
  compared : List (Bool × Entry × Entry)

/-- Two fragments need not be compared: they are one, or they were compared before on an assumption
that is no stronger. -/
def Ledger.Covers (ledger : Ledger) (exclusive : Bool) (a b : Name) : Prop :=
  a = b ∨ ∃ key weaker, (key, weaker) ∈ ledger.fragmentPairs ∧ (key = (a, b) ∨ key = (b, a)) ∧
    (weaker = true → exclusive = true)

theorem Ledger.Covers.symm {ledger : Ledger} {exclusive : Bool} {a b : Name}
    (h : ledger.Covers exclusive a b) : ledger.Covers exclusive b a := by
  rcases h with rfl | ⟨key, weaker, hmem, hkey, hle⟩
  · exact .inl rfl
  · exact .inr ⟨key, weaker, hmem, hkey.symm, hle⟩

theorem Ledger.Covers.mono {ledger later : Ledger} {exclusive : Bool} {a b : Name}
    (h : ledger.Covers exclusive a b) (hgrows : ledger.Grows later) :
    later.Covers exclusive a b := by
  rcases h with rfl | ⟨key, weaker, hmem, hkey, hle⟩
  · exact .inl rfl
  · exact .inr ⟨key, weaker, hgrows.pairs _ hmem, hkey, hle⟩

theorem Ledger.pairKey_cases (a b : Name) : pairKey a b = (a, b) ∨ pairKey a b = (b, a) := by
  unfold pairKey
  split
  · exact .inl rfl
  · exact .inr rfl

theorem Ledger.covers_of_hasPair {ledger : Ledger} {exclusive : Bool} {a b : Name}
    (h : ledger.hasPair exclusive a b = true) : ledger.Covers exclusive a b := by
  unfold hasPair at h
  split at h
  · rename_i key before hfound
    have hkey := List.find?_some hfound
    simp only [decide_eq_true_eq] at hkey
    refine .inr ⟨key, before, List.mem_of_find?_eq_some hfound, ?_, fun hbefore => ?_⟩
    · rw [hkey]
      exact pairKey_cases a b
    · simpa [hbefore] using h
  · cases h

namespace Trace

/-- Two fields were compared, one way round or the other. -/
def Has (trace : Trace) (exclusive : Bool) (a b : Entry) : Prop :=
  (exclusive, a.plain, b.plain) ∈ trace.compared ∨ (exclusive, b.plain, a.plain) ∈ trace.compared

/-- A trace has all that another one has. -/
structure Within (trace later : Trace) : Prop where
  ledger : trace.ledger.Grows later.ledger
  compared : ∀ comparison ∈ trace.compared, comparison ∈ later.compared

theorem Has.symm {trace : Trace} {exclusive : Bool} {a b : Entry} (h : trace.Has exclusive a b) :
    trace.Has exclusive b a := Or.symm h

theorem Has.mono {trace later : Trace} (hwithin : trace.Within later) {exclusive : Bool}
    {a b : Entry} (h : trace.Has exclusive a b) : later.Has exclusive a b :=
  h.imp (hwithin.compared _) (hwithin.compared _)

theorem Has.congr {trace : Trace} {exclusive : Bool} {a a' b b' : Entry} (ha : a.plain = a'.plain)
    (hb : b.plain = b'.plain) (h : trace.Has exclusive a b) : trace.Has exclusive a' b' := by
  unfold Has at h ⊢
  rw [← ha, ← hb]
  exact h

section

variable {schema : Schema} {document : Document} (sites : Sites schema document) (trace : Trace)

/-- The fields of two sets, those in fragments apart, were compared. -/
def HasBetween (exclusive : Bool) (here there : Address) : Prop :=
  ∀ a b, sites.Shows here a → sites.Shows there b → a.key = b.key → trace.Has exclusive a b

/-- The comparison of a set with a fragment is on the trace with all that it breaks into, unless
they are one set. -/
def SetClosed (address : Address) (name : Name) (exclusive : Bool) : Prop :=
  ∀ target fragment, locate? document name = some (target, fragment) → target = address ∨
    trace.HasBetween sites exclusive address target ∧
      ∀ next, sites.Spreads target next →
        (address, next, exclusive) ∈ trace.ledger.setsWithFragments

/-- The comparison of two fragments is on the trace with all that it breaks into. -/
def PairClosed (a b : Name) (exclusive : Bool) : Prop :=
  ∀ targetA fragmentA targetB fragmentB, locate? document a = some (targetA, fragmentA) →
    locate? document b = some (targetB, fragmentB) →
    trace.HasBetween sites exclusive targetA targetB ∧
      (∀ next, sites.Spreads targetB next → trace.ledger.Covers exclusive a next) ∧
      ∀ next, sites.Spreads targetA next → trace.ledger.Covers exclusive next b

/-- All comparisons for the sub-selections of two fields are on the trace. -/
structure SubsetsClosed (exclusive : Bool) (here there : Address) : Prop where
  between : trace.HasBetween sites exclusive here there
  first : ∀ next, sites.Spreads there next →
    (here, next, exclusive) ∈ trace.ledger.setsWithFragments
  second : ∀ next, sites.Spreads here next →
    (there, next, exclusive) ∈ trace.ledger.setsWithFragments
  pairs : ∀ next other, sites.Spreads here next →
    sites.Spreads there other → trace.ledger.Covers exclusive next other

/-- The comparison of two fields found nothing, and all that it breaks into is on the trace. -/
def FieldsClosed (exclusive : Bool) (a b : Entry) : Prop :=
  directReason? schema (exclusive || areExclusive a b) a b = none ∧
    (a.selections ≠ [] → b.selections ≠ [] →
      trace.SubsetsClosed sites (exclusive || areExclusive a b) a.address b.address)

/-- All that a search has added to a trace is closed. -/
structure Closed (before : Ledger) : Prop where
  sets : ∀ entry ∈ trace.ledger.setsWithFragments, entry ∈ before.setsWithFragments ∨
    trace.SetClosed sites entry.1 entry.2.1 entry.2.2
  pairs : ∀ entry ∈ trace.ledger.fragmentPairs, entry ∈ before.fragmentPairs ∨
    trace.PairClosed sites entry.1.1 entry.1.2 entry.2
  fields : ∀ comparison ∈ trace.compared,
    trace.FieldsClosed sites comparison.1 comparison.2.1 comparison.2.2

/-- A task need not be done again. -/
def Settles : Task → Prop
  | .fields _ exclusive a b => (exclusive, a.plain, b.plain) ∈ trace.compared
  | .setWithFragment exclusive set name =>
      (set.address, name, exclusive) ∈ trace.ledger.setsWithFragments
  | .fragments exclusive a b => trace.ledger.Covers exclusive a b

end

/-! ## Traces that grow -/

variable {schema : Schema} {document : Document} {sites : Sites schema document}
  {trace later : Trace}

theorem HasBetween.mono (hwithin : trace.Within later) {exclusive : Bool} {here there : Address}
    (h : trace.HasBetween sites exclusive here there) :
    later.HasBetween sites exclusive here there :=
  fun a b ha hb hkey => (h a b ha hb hkey).mono hwithin

theorem SetClosed.mono (hwithin : trace.Within later) {address : Address} {name : Name}
    {exclusive : Bool} (h : trace.SetClosed sites address name exclusive) :
    later.SetClosed sites address name exclusive := by
  intro target fragment hlocate
  rcases h target fragment hlocate with hsame | ⟨hbetween, hnext⟩
  · exact .inl hsame
  · exact .inr ⟨hbetween.mono hwithin, fun next hspread =>
      hwithin.ledger.sets _ (hnext next hspread)⟩

theorem PairClosed.mono (hwithin : trace.Within later) {a b : Name} {exclusive : Bool}
    (h : trace.PairClosed sites a b exclusive) :
    later.PairClosed sites a b exclusive := by
  intro targetA fragmentA targetB fragmentB hlocateA hlocateB
  obtain ⟨hbetween, hsecond, hfirst⟩ := h _ _ _ _ hlocateA hlocateB
  exact ⟨hbetween.mono hwithin, fun next hspread => (hsecond next hspread).mono hwithin.ledger,
    fun next hspread => (hfirst next hspread).mono hwithin.ledger⟩

theorem PairClosed.symm {a b : Name} {exclusive : Bool}
    (h : trace.PairClosed sites a b exclusive) :
    trace.PairClosed sites b a exclusive := by
  intro targetB fragmentB targetA fragmentA hlocateB hlocateA
  obtain ⟨hbetween, hsecond, hfirst⟩ := h _ _ _ _ hlocateA hlocateB
  exact ⟨fun x y hx hy hkey => (hbetween y x hy hx hkey.symm).symm,
    fun next hspread => (hfirst next hspread).symm, fun next hspread => (hsecond next hspread).symm⟩

theorem SubsetsClosed.mono (hwithin : trace.Within later) {exclusive : Bool}
    {here there : Address} (h : trace.SubsetsClosed sites exclusive here there) :
    later.SubsetsClosed sites exclusive here there where
  between := h.between.mono hwithin
  first next hspread := hwithin.ledger.sets _ (h.first next hspread)
  second next hspread := hwithin.ledger.sets _ (h.second next hspread)
  pairs next other hnext hother := (h.pairs next other hnext hother).mono hwithin.ledger

theorem SubsetsClosed.symm {exclusive : Bool} {here there : Address}
    (h : trace.SubsetsClosed sites exclusive here there) :
    trace.SubsetsClosed sites exclusive there here where
  between a b ha hb hkey := (h.between b a hb ha hkey.symm).symm
  first := h.second
  second := h.first
  pairs next other hnext hother := (h.pairs other next hother hnext).symm

theorem FieldsClosed.mono (hwithin : trace.Within later) {exclusive : Bool} {a b : Entry}
    (h : trace.FieldsClosed sites exclusive a b) :
    later.FieldsClosed sites exclusive a b :=
  ⟨h.1, fun ha hb => (h.2 ha hb).mono hwithin⟩

theorem Settles.mono (hwithin : trace.Within later) {task : Task} (h : trace.Settles task) :
    later.Settles task := by
  cases task with
  | fields key exclusive a b => exact hwithin.compared _ h
  | setWithFragment exclusive set name => exact hwithin.ledger.sets _ h
  | fragments exclusive a b => exact Ledger.Covers.mono h hwithin.ledger

/-- What two searches in a row add to a trace is closed. -/
theorem Closed.trans {before middle after : Ledger} {first second : List (Bool × Entry × Entry)}
    (hfirst : Closed sites ⟨middle, first⟩ before)
    (hsecond : Closed sites ⟨after, second⟩ middle) (hgrows : middle.Grows after) :
    Closed sites ⟨after, first ++ second⟩ before := by
  have hleft : Within ⟨middle, first⟩ ⟨after, first ++ second⟩ :=
    ⟨hgrows, fun _ h => List.mem_append_left _ h⟩
  have hright : Within ⟨after, second⟩ ⟨after, first ++ second⟩ :=
    ⟨.refl after, fun _ h => List.mem_append_right _ h⟩
  refine ⟨fun entry hentry => ?_, fun entry hentry => ?_, fun comparison hcomparison => ?_⟩
  · rcases hsecond.sets entry hentry with hmiddle | hclosed
    · exact (hfirst.sets entry hmiddle).imp id (SetClosed.mono hleft)
    · exact .inr (hclosed.mono hright)
  · rcases hsecond.pairs entry hentry with hmiddle | hclosed
    · exact (hfirst.pairs entry hmiddle).imp id (PairClosed.mono hleft)
    · exact .inr (hclosed.mono hright)
  · rcases List.mem_append.mp hcomparison with hold | hnew
    · exact (hfirst.fields comparison hold).mono hleft
    · exact (hsecond.fields comparison hnew).mono hright

theorem Closed.of_matches {before middle : Ledger} (hmatches : before.Matches middle)
    (h : trace.Closed sites middle) : trace.Closed sites before :=
  ⟨hmatches.sets ▸ h.sets, hmatches.pairs ▸ h.pairs, h.fields⟩

theorem Closed.refl (ledger : Ledger) : Closed sites ⟨ledger, []⟩ ledger :=
  ⟨fun _ h => .inl h, fun _ h => .inl h, fun _ h => absurd h List.not_mem_nil⟩

/-! ## What a closed trace tells -/

/-- What is known of two fields that were compared does not depend on which way round. -/
theorem Closed.of_has {before : Ledger} (h : trace.Closed sites before) {exclusive : Bool}
    {a b : Entry} (hhas : trace.Has exclusive a b) :
    (directReason? schema (exclusive || areExclusive a b) a b = none ∨
        directReason? schema (exclusive || areExclusive a b) b a = none) ∧
      (a.selections ≠ [] → b.selections ≠ [] →
        trace.SubsetsClosed sites (exclusive || areExclusive a b) a.address b.address) := by
  rcases hhas with hmem | hmem
  · obtain ⟨hreason, hsubsets⟩ := h.fields _ hmem
    rw [← areExclusive_eq_plain] at hreason hsubsets
    exact ⟨.inl hreason, hsubsets⟩
  · obtain ⟨hreason, hsubsets⟩ := h.fields _ hmem
    rw [← areExclusive_eq_plain, areExclusive_comm] at hreason hsubsets
    exact ⟨.inr hreason, fun ha hb => (hsubsets hb ha).symm⟩

theorem Closed.pairClosed_of_covers (h : trace.Closed sites .empty) {exclusive : Bool} {a b : Name}
    (hcovers : trace.ledger.Covers exclusive a b) :
    a = b ∨ ∃ weaker, (weaker = true → exclusive = true) ∧ trace.PairClosed sites a b weaker := by
  rcases hcovers with rfl | ⟨key, weaker, hmem, hkey, hle⟩
  · exact .inl rfl
  · have hclosed := (h.pairs _ hmem).resolve_left List.not_mem_nil
    rcases hkey with rfl | rfl
    · exact .inr ⟨weaker, hle, hclosed⟩
    · exact .inr ⟨weaker, hle, hclosed.symm⟩

/-! ## One task -/

theorem hasBetween_of_settles (hsites : sites.Coherent) {first second : Gathered}
    {here there : Address} {s t : SelectionSet} (hfirst : first.IsAt sites here s)
    (hsecond : second.IsAt sites there t) {exclusive : Bool}
    (h : ∀ task ∈ tasksBetween exclusive first.fields second.fields, trace.Settles task) :
    trace.HasBetween sites exclusive here there := by
  intro a b ha hb hkey
  obtain ⟨key, a', b', haplain, hbplain, hmem⟩ :=
    hfirst.exists_mem_tasksBetween hsites hsecond exclusive ha hb hkey
  have hsettled : (exclusive, a'.plain, b'.plain) ∈ trace.compared := h _ hmem
  rw [haplain, hbplain] at hsettled
  exact .inl hsettled

theorem subsetsClosed_of_settles (hsites : sites.Coherent) {first second : Gathered}
    {here there : Address} {s t : SelectionSet} (hfirst : first.IsAt sites here s)
    (hsecond : second.IsAt sites there t) {exclusive : Bool}
    (h : ∀ task ∈ tasksForSubsets exclusive first second, trace.Settles task) :
    trace.SubsetsClosed sites exclusive here there := by
  simp only [tasksForSubsets, List.mem_append, List.mem_map, List.mem_flatMap] at h
  refine ⟨hasBetween_of_settles hsites hfirst hsecond fun task htask =>
    h task (.inl (.inl (.inl htask))), fun next hspread => ?_, fun next hspread => ?_,
    fun next other hnext hother => ?_⟩
  · rw [← hsecond.mem_spreads_iff hsites] at hspread
    have hsettled : (first.address, next, exclusive) ∈ trace.ledger.setsWithFragments :=
      h _ (.inl (.inl (.inr ⟨next, hspread, rfl⟩)))
    rw [← hfirst.address_eq]
    exact hsettled
  · rw [← hfirst.mem_spreads_iff hsites] at hspread
    have hsettled : (second.address, next, exclusive) ∈ trace.ledger.setsWithFragments :=
      h _ (.inl (.inr ⟨next, hspread, rfl⟩))
    rw [← hsecond.address_eq]
    exact hsettled
  · rw [← hfirst.mem_spreads_iff hsites] at hnext
    rw [← hsecond.mem_spreads_iff hsites] at hother
    exact h _ (.inr ⟨next, hnext, other, hother, rfl⟩)

theorem Closed.note_fields {before : Ledger} (h : trace.Closed sites before) {exclusive : Bool}
    {a b : Entry} (hfields : trace.FieldsClosed sites exclusive a b) :
    Closed sites
      ⟨trace.ledger, (exclusive, a.plain, b.plain) :: trace.compared⟩ before := by
  have hwithin : trace.Within
      ⟨trace.ledger, (exclusive, a.plain, b.plain) :: trace.compared⟩ :=
    ⟨.refl _, fun _ hmem => List.mem_cons_of_mem _ hmem⟩
  refine ⟨fun entry hentry => (h.sets entry hentry).imp id (SetClosed.mono hwithin),
    fun entry hentry => (h.pairs entry hentry).imp id (PairClosed.mono hwithin),
    fun comparison hcomparison => ?_⟩
  rcases List.mem_cons.mp hcomparison with rfl | hold
  · have hplain : trace.FieldsClosed sites exclusive a.plain b.plain := by
      unfold FieldsClosed at hfields ⊢
      rw [← areExclusive_eq_plain]
      exact hfields
    exact hplain.mono hwithin
  · exact (h.fields comparison hold).mono hwithin

theorem Closed.note_set {before middle : Ledger} (h : trace.Closed sites middle)
    {address : Address} {name : Name} {exclusive : Bool}
    (hsets : middle.setsWithFragments = (address, name, exclusive) :: before.setsWithFragments)
    (hpairs : middle.fragmentPairs = before.fragmentPairs)
    (hclosed : trace.SetClosed sites address name exclusive) :
    trace.Closed sites before := by
  refine ⟨fun entry hentry => ?_, hpairs ▸ h.pairs, h.fields⟩
  rcases h.sets entry hentry with hmiddle | hentry
  · rw [hsets] at hmiddle
    rcases List.mem_cons.mp hmiddle with rfl | hold
    · exact .inr hclosed
    · exact .inl hold
  · exact .inr hentry

theorem Closed.note_pair {before middle : Ledger} (h : trace.Closed sites middle)
    {a b : Name} {exclusive : Bool}
    (hsets : middle.setsWithFragments = before.setsWithFragments)
    (hpairs : middle.fragmentPairs = (Ledger.pairKey a b, exclusive) :: before.fragmentPairs)
    (hclosed : trace.PairClosed sites a b exclusive) :
    trace.Closed sites before := by
  refine ⟨hsets ▸ h.sets, fun entry hentry => ?_, h.fields⟩
  rcases h.pairs entry hentry with hmiddle | hentry
  · rw [hpairs] at hmiddle
    rcases List.mem_cons.mp hmiddle with rfl | hold
    · rcases Ledger.pairKey_cases a b with hkey | hkey
      · rw [hkey]
        exact .inr hclosed
      · rw [hkey]
        exact .inr hclosed.symm
    · exact .inl hold
  · exact .inr hentry

/-- A task that finds nothing is settled, and if the trace of the tasks that it breaks into is
closed, so is its own. -/
theorem exists_closed_of_opens (hsites : sites.Coherent) {ledger after : Ledger}
    {task : Task} {opened : Opened}
    (hopens : Opens sites ledger task opened)
    (htask : task.Genuine sites) {compared : List (Bool × Entry × Entry)}
    (hclosed : Closed sites ⟨after, compared⟩ opened.ledger)
    (hgrows : opened.ledger.Grows after)
    (hsettled : ∀ other ∈ opened.tasks, Settles ⟨after, compared⟩ other)
    (hnone : opened.conclude [] = []) :
    ∃ compared', Closed sites ⟨after, compared'⟩ ledger ∧
      Settles ⟨after, compared'⟩ task := by
  cases hopens with
  | direct hreason => cases hnone
  | leaf hreason hempty =>
      refine ⟨_, hclosed.note_fields ⟨hreason, fun ha hb => ?_⟩, List.mem_cons_self⟩
      rcases hempty with hempty | hempty
      · exact absurd hempty ha
      · exact absurd hempty hb
  | subfields hreason hgenuine hmatches hfirst hsecond =>
      have hsubsets := subsetsClosed_of_settles hsites hfirst hsecond hsettled
      have hbefore := Closed.of_matches hmatches hclosed
      exact ⟨_, hbefore.note_fields ⟨hreason, fun _ _ => hsubsets⟩, List.mem_cons_self⟩
  | setKnown hknown => exact ⟨compared, hclosed, hgrows.sets _ hknown⟩
  | setAlone hnew hgenuine hsets hpairs halone =>
      refine ⟨compared, hclosed.note_set hsets hpairs ?_, ?_⟩
      · exact fun target fragment hlocate => .inl (halone target fragment hlocate)
      · exact hgrows.sets _ (hsets ▸ List.mem_cons_self)
  | setWithFragment hnew hgenuine hsets hpairs hlocate hfound =>
      obtain ⟨⟨selections, hset⟩, -⟩ := htask
      refine ⟨compared, hclosed.note_set hsets hpairs ?_, ?_⟩
      · intro other fragment hother
        rw [hlocate] at hother
        cases hother
        refine .inr ⟨hasBetween_of_settles hsites hset hfound fun task htask =>
          hsettled task (List.mem_append_left _ htask), fun next hspread => ?_⟩
        rw [← hfound.mem_spreads_iff hsites] at hspread
        exact hsettled _ (List.mem_append_right _ (List.mem_map_of_mem hspread))
      · exact hgrows.sets _ (hsets ▸ List.mem_cons_self)
  | pairKnown hknown =>
      refine ⟨compared, hclosed, ?_⟩
      rcases hknown with rfl | hpair
      · exact .inl rfl
      · exact (Ledger.covers_of_hasPair hpair).mono hgrows
  | pairMissing hnew hgenuine hsets hpairs hmissing =>
      refine ⟨compared, hclosed.note_pair hsets hpairs ?_, ?_⟩
      · intro targetA fragmentA targetB fragmentB hlocateA hlocateB
        rcases hmissing with hmissing | hmissing
        · rw [hmissing] at hlocateA
          cases hlocateA
        · rw [hmissing] at hlocateB
          cases hlocateB
      · exact .inr ⟨_, _, hgrows.pairs _ (hpairs ▸ List.mem_cons_self),
          Ledger.pairKey_cases _ _, id⟩
  | pair hnew hgenuine hsets hpairs hlocateA hlocateB hfirst hsecond =>
      refine ⟨compared, hclosed.note_pair hsets hpairs ?_, ?_⟩
      · intro targetA fragmentA targetB fragmentB hA hB
        rw [hlocateA] at hA
        rw [hlocateB] at hB
        cases hA
        cases hB
        simp only [Opened.into, List.mem_append, List.mem_map] at hsettled
        refine ⟨hasBetween_of_settles hsites hfirst hsecond fun task htask =>
          hsettled task (.inl (.inl htask)), fun next hspread => ?_, fun next hspread => ?_⟩
        · rw [← hsecond.mem_spreads_iff hsites] at hspread
          exact hsettled _ (.inl (.inr ⟨next, hspread, rfl⟩))
        · rw [← hfirst.mem_spreads_iff hsites] at hspread
          exact hsettled _ (.inr ⟨next, hspread, rfl⟩)
      · exact .inr ⟨_, _, hgrows.pairs _ (hpairs ▸ List.mem_cons_self),
          Ledger.pairKey_cases _ _, id⟩

/-! ## Searches that find nothing -/

theorem exists_closed_of_doAll (hsites : sites.Coherent) {depth : Nat}
    (hstep : ∀ {ledger after task}, ledger.Genuine sites →
      task.Genuine sites →
      doTask schema document depth ledger task = some (after, []) →
      ∃ compared, Closed sites ⟨after, compared⟩ ledger ∧
        Settles ⟨after, compared⟩ task)
    {tasks : List Task} (htasks : ∀ task ∈ tasks, task.Genuine sites)
    {ledger after : Ledger} (hledger : ledger.Genuine sites)
    (h : doAll (doTask schema document depth) ledger tasks = some (after, [])) :
    ∃ compared, Closed sites ⟨after, compared⟩ ledger ∧
      ∀ task ∈ tasks, Settles ⟨after, compared⟩ task := by
  induction tasks generalizing ledger with
  | nil =>
      cases h
      exact ⟨[], .refl _, fun _ hmem => absurd hmem List.not_mem_nil⟩
  | cons task rest ih =>
      obtain ⟨middle, found, others, hfirst, hrest, hconflicts⟩ := doAll_cons h
      obtain ⟨rfl, rfl⟩ := List.append_eq_nil_iff.mp hconflicts.symm
      have htask := htasks task List.mem_cons_self
      have hlater : ∀ other ∈ rest, other.Genuine sites :=
        fun other hother => htasks other (List.mem_cons_of_mem _ hother)
      have hmiddle := (doTask_keeps hsites.closed hledger htask hfirst).1
      have hgrows := (doAll_keeps (doTask_keeps hsites.closed) hlater hmiddle hrest).2
      obtain ⟨first, hclosed, hsettled⟩ := hstep hledger htask hfirst
      obtain ⟨second, hclosed', hsettled'⟩ := ih hlater hmiddle hrest
      refine ⟨first ++ second, hclosed.trans hclosed' hgrows, fun other hother => ?_⟩
      rcases List.mem_cons.mp hother with rfl | hother
      · exact hsettled.mono ⟨hgrows, fun _ hmem => List.mem_append_left _ hmem⟩
      · exact (hsettled' other hother).mono
          ⟨.refl after, fun _ hmem => List.mem_append_right _ hmem⟩

/-- Doing a task that finds nothing settles it and leaves a closed trace. -/
theorem exists_closed_of_doTask (hsites : sites.Coherent) {depth : Nat}
    {ledger after : Ledger} {task : Task} (hledger : ledger.Genuine sites)
    (htask : task.Genuine sites)
    (h : doTask schema document depth ledger task = some (after, [])) :
    ∃ compared, Closed sites ⟨after, compared⟩ ledger ∧
      Settles ⟨after, compared⟩ task := by
  induction depth generalizing ledger after task with
  | zero => cases h
  | succ depth ih =>
      obtain ⟨found, hall, hconclude⟩ := doTask_succ h
      have hopens := opens_openTask hledger htask
      obtain ⟨-, rfl⟩ := (conclude_eq_nil_iff ..).mp hconclude.symm
      have htasks := hopens.genuine_tasks hsites.closed htask
      have hopened := hopens.genuine_ledger hledger
      have hgrows := (doAll_keeps (doTask_keeps hsites.closed) htasks hopened hall).2
      obtain ⟨compared, hclosed, hsettled⟩ := exists_closed_of_doAll hsites ih htasks hopened hall
      exact exists_closed_of_opens hsites hopens htask hclosed hgrows hsettled hconclude.symm

/-- All comparisons for the set at an address are on a trace. -/
structure Visited (sites : Sites schema document) (trace : Trace) (address : Address) :
    Prop where
  within : ∀ a b, sites.Shows address a → sites.Shows address b →
    a.address ≠ b.address → a.key = b.key → trace.Has false a b
  sets : ∀ next, sites.Spreads address next →
    (address, next, false) ∈ trace.ledger.setsWithFragments
  pairs : ∀ next other, sites.Spreads address next →
    sites.Spreads address other → trace.ledger.Covers false next other

theorem Visited.mono (hwithin : trace.Within later) {address : Address}
    (h : trace.Visited sites address) : later.Visited sites address where
  within a b ha hb distinct hkey := (h.within a b ha hb distinct hkey).mono hwithin
  sets next hspread := hwithin.ledger.sets _ (h.sets next hspread)
  pairs next other hnext hother := (h.pairs next other hnext hother).mono hwithin.ledger

theorem visited_of_settles (hsites : sites.Coherent) {set : Gathered}
    {address : Address} {selections : SelectionSet}
    (hset : set.IsAt sites address selections)
    (h : ∀ task ∈ tasksForSet set, trace.Settles task) :
    trace.Visited sites address := by
  have hspreads : ∀ next, sites.Spreads address next → next ∈ set.spreads :=
    fun _ => (hset.mem_spreads_iff hsites).mpr
  refine ⟨fun a b ha hb distinct hkey => ?_, fun next hspread => ?_,
    fun next other hnext hother => ?_⟩
  · have ⟨parent, hstands, hgather⟩ := hset
    obtain ⟨a', ha', haplain⟩ := hsites.exists_entry hstands ha
    obtain ⟨b', hb', hbplain⟩ := hsites.exists_entry hstands hb
    have hkeys : a'.key = b'.key := by
      rw [Entry.key_eq_of_plain haplain, hkey, Entry.key_eq_of_plain hbplain]
    have hne : a' ≠ b' := by
      rintro rfl
      rw [← Entry.address_eq_of_plain haplain, ← Entry.address_eq_of_plain hbplain] at distinct
      exact distinct rfl
    have hwithin := (gather_collects schema parent address selections).mem_tasksWithin_of_ne
      ha' hb' hkeys hne
    rw [← hgather] at hwithin
    have hhas : trace.Has false a' b' :=
      hwithin.imp (fun hmem => h (.fields a'.key false a' b') (List.mem_append_left _ hmem))
        fun hmem => h (.fields a'.key false b' a') (List.mem_append_left _ hmem)
    exact hhas.congr haplain hbplain
  · have hmem := setWithFragment_mem_tasksForSpreads set (hspreads next hspread)
    have hsettled : (set.address, next, false) ∈ trace.ledger.setsWithFragments :=
      h _ (List.mem_append_right _ hmem)
    rw [← hset.address_eq]
    exact hsettled
  · by_cases hsame : next = other
    · exact .inl hsame
    · rcases fragments_mem_tasksForSpreads set (hspreads next hnext) (hspreads other hother)
        hsame with hmem | hmem
      · exact h _ (List.mem_append_right _ hmem)
      · have hcovers : trace.ledger.Covers false other next := h _ (List.mem_append_right _ hmem)
        exact hcovers.symm

/-- A search through a set that finds nothing leaves a closed trace with all comparisons for the
set. -/
theorem exists_closed_of_conflictsIn (hsites : sites.Coherent) {ledger after : Ledger}
    (hledger : ledger.Genuine sites) {parent : Option TypeDefinition}
    {address : Address} {selections : SelectionSet}
    (hset : sites.Set parent address selections)
    (h : conflictsIn schema document ledger parent address selections = some (after, [])) :
    ∃ compared, Closed sites ⟨after, compared⟩ ledger ∧
      Visited sites ⟨after, compared⟩ address := by
  obtain ⟨middle, set, hgather, hmiddle, hmatches, hfound⟩ := Ledger.gather_set hledger hset
  simp only [conflictsIn, hgather] at h
  have htasks : ∀ task ∈ tasksForSet set, task.Genuine sites := fun _ =>
    genuine_of_mem_tasksForSet hsites.closed hfound.self
  obtain ⟨compared, hclosed, hsettled⟩ :=
    exists_closed_of_doAll hsites (exists_closed_of_doTask hsites) htasks hmiddle h
  exact ⟨compared, .of_matches hmatches hclosed, visited_of_settles hsites hfound hsettled⟩

end Trace

end QueryAudit.Merge
