import QueryAudit.Proofs.Merge.Termination

/-!
# Runs of the search

A run does tasks with no bound on how deep they nest. It is told by its calls: the tasks that it
takes up, in order, each with the ledger of that moment. The search with a bound makes a run, so a
search that ends is a run.

What a run leaves on the ledger is what its calls enter there. A comparison is entered if it is new
to the ledger; only then does the search look at the fields of a fragment.
-/

namespace QueryAudit.Merge

/-- A task taken up, with the ledger at that moment. -/
abbrev Call : Type := Ledger × Task

/-- Doing tasks one after the other: the calls, the ledger afterwards and the conflicts. -/
inductive Runs (schema : Schema) (document : Document) :
    Ledger → List Task → List Call → Ledger → List Conflict → Prop
  | done (ledger : Ledger) : Runs schema document ledger [] [] ledger []
  | next {ledger middle after : Ledger} {task : Task} {rest : List Task} {inner later : List Call}
      {found others : List Conflict}
      (hinner : Runs schema document (openTask schema document ledger task).ledger
        (openTask schema document ledger task).tasks inner middle found)
      (hlater : Runs schema document middle rest later after others) :
      Runs schema document ledger (task :: rest) ((ledger, task) :: (inner ++ later)) after
        ((openTask schema document ledger task).conclude found ++ others)

/-- Keys of comparisons of sets with fragments are told apart by equality. -/
instance : LawfulBEq (Address × Name × Bool) := inferInstance

def Call.set? (call : Call) : Option (Address × Name × Bool) :=
  match call.2 with
  | .setWithFragment exclusive set name =>
      if (set.address, name, exclusive) ∈ call.1.setsWithFragments then none
      else some (set.address, name, exclusive)
  | _ => none

def Call.pair? (call : Call) : Option ((Name × Name) × Bool) :=
  match call.2 with
  | .fragments exclusive a b =>
      if a = b || call.1.hasPair exclusive a b then none else some ((a, b), exclusive)
  | _ => none

/-- How the ledger keeps a comparison of two fragments. -/
def Ledger.noted (comparison : (Name × Name) × Bool) : (Name × Name) × Bool :=
  (pairKey comparison.1.1 comparison.1.2, comparison.2)

theorem Call.not_mem_of_set? {call : Call} {key : Address × Name × Bool}
    (h : call.set? = some key) : key ∉ call.1.setsWithFragments := by
  obtain ⟨ledger, task⟩ := call
  cases task with
  | setWithFragment exclusive set name =>
      simp only [Call.set?] at h
      split at h
      · cases h
      · rename_i hnew
        cases h
        exact hnew
  | fields | fragments => cases h

theorem Call.hasPair_of_pair? {call : Call} {comparison : (Name × Name) × Bool}
    (h : call.pair? = some comparison) :
    comparison.1.1 ≠ comparison.1.2 ∧
      call.1.hasPair comparison.2 comparison.1.1 comparison.1.2 = false := by
  obtain ⟨ledger, task⟩ := call
  cases task with
  | fragments exclusive a b =>
      simp only [Call.pair?] at h
      split at h
      · cases h
      · rename_i hnew
        cases h
        simpa using hnew
  | fields | setWithFragment => cases h

/-- A comparison with a fragment that is not entered comes to nothing. -/
theorem Call.openTask_eq_nothing (schema : Schema) (document : Document) {call : Call}
    (hset : call.set? = none) (hpair : call.pair? = none)
    (htask : ∀ key exclusive a b, call.2 ≠ .fields key exclusive a b) :
    openTask schema document call.1 call.2 = .nothing call.1 := by
  obtain ⟨ledger, task⟩ := call
  cases task with
  | fields key exclusive a b => exact absurd rfl (htask key exclusive a b)
  | setWithFragment exclusive set name =>
      simp only [Call.set?] at hset
      split at hset
      · rename_i hknown
        simp only [openTask, openSetWithFragment, if_pos hknown]
      · cases hset
  | fragments exclusive a b =>
      simp only [Call.pair?] at hpair
      split at hpair
      · rename_i hknown
        simp only [openTask, openFragments, if_pos hknown]
      · cases hpair

section

variable {schema : Schema} {document : Document} {ledger after : Ledger} {tasks : List Task}
  {calls : List Call} {conflicts : List Conflict}

/-! ## A search makes a run -/

theorem exists_runs {depth : Nat}
    (h : doAll (doTask schema document depth) ledger tasks = some (after, conflicts)) :
    ∃ calls, Runs schema document ledger tasks calls after conflicts := by
  -- On the depth, for the tasks that a task breaks into; within it on the list, for those after it.
  induction depth generalizing tasks ledger after conflicts with
  | zero =>
      cases tasks with
      | nil =>
          cases h
          exact ⟨[], .done _⟩
      | cons task rest => cases h
  | succ depth deeper =>
      induction tasks generalizing ledger conflicts with
      | nil =>
          cases h
          exact ⟨[], .done _⟩
      | cons task rest ih =>
          obtain ⟨middle, found, others, hfirst, hrest, rfl⟩ := doAll_cons h
          obtain ⟨below, hbelow, rfl⟩ := doTask_succ hfirst
          obtain ⟨inner, hinner⟩ := deeper hbelow
          obtain ⟨later, hlater⟩ := ih hrest
          exact ⟨_, .next hinner hlater⟩

/-! ## Calls -/

/-- What opening a task keeps, a run keeps, and it holds at each call. -/
theorem Runs.keeps {inv : Ledger → Prop} {good : Task → Prop}
    (hopen : ∀ ledger task, inv ledger → good task →
      inv (openTask schema document ledger task).ledger ∧
        ∀ other ∈ (openTask schema document ledger task).tasks, good other)
    (h : Runs schema document ledger tasks calls after conflicts) (hledger : inv ledger)
    (htasks : ∀ task ∈ tasks, good task) :
    inv after ∧ ∀ call ∈ calls, inv call.1 ∧ good call.2 := by
  induction h with
  | done ledger => exact ⟨hledger, fun call hcall => absurd hcall List.not_mem_nil⟩
  | next hinner hlater ih ih' =>
      have htask := htasks _ List.mem_cons_self
      have hrest := fun other hother => htasks other (List.mem_cons_of_mem _ hother)
      obtain ⟨hopened, hbelow⟩ := hopen _ _ hledger htask
      obtain ⟨hmiddle, hcalls⟩ := ih hopened hbelow
      obtain ⟨hafter, hcalls'⟩ := ih' hmiddle hrest
      refine ⟨hafter, fun call hcall => ?_⟩
      rcases List.mem_cons.mp hcall with rfl | hcall
      · exact ⟨hledger, htask⟩
      · exact (List.mem_append.mp hcall).elim (hcalls call) (hcalls' call)

/-! ## Conflicts -/

/-- A run finds nothing exactly if no fields that it compares conflict by themselves. -/
theorem Runs.eq_nil_iff (h : Runs schema document ledger tasks calls after conflicts) :
    conflicts = [] ↔ ∀ call ∈ calls, call.2.reason? schema = none := by
  induction h with
  | done ledger => simp
  | next hinner hlater ih ih' =>
      rw [List.append_eq_nil_iff, conclude_eq_nil_iff, ih, ih']
      simp only [List.mem_cons, List.mem_append, or_imp, forall_and, forall_eq, and_assoc]

/-! ## What is entered on the ledger -/

theorem Ledger.gather_matches (schema : Schema) (ledger : Ledger) (parent : Option TypeDefinition)
    (address : Address) (selections : SelectionSet) :
    ledger.Matches (ledger.gather schema parent address selections).1 := by
  unfold Ledger.gather
  split <;> exact ⟨rfl, rfl⟩

/-- Opening a task enters on the ledger what its call enters and nothing else. -/
theorem openTask_entered (schema : Schema) (document : Document) (ledger : Ledger) (task : Task) :
    (openTask schema document ledger task).ledger.setsWithFragments =
        (Call.set? (ledger, task)).toList ++ ledger.setsWithFragments ∧
      (openTask schema document ledger task).ledger.fragmentPairs =
        (Call.pair? (ledger, task)).toList.map Ledger.noted ++ ledger.fragmentPairs := by
  cases task with
  | fields key exclusive a b =>
      simp only [openTask, openFields, Call.set?, Call.pair?]
      split
      · exact ⟨rfl, rfl⟩
      · split
        · exact ⟨rfl, rfl⟩
        · have hfirst := ledger.gather_matches schema
            (a.definition.bind fun d => schema.concreteType? d.type) a.address a.selections
          have hsecond := (ledger.gather schema
            (a.definition.bind fun d => schema.concreteType? d.type) a.address
              a.selections).1.gather_matches schema
            (b.definition.bind fun d => schema.concreteType? d.type) b.address b.selections
          exact ⟨hsecond.sets.trans hfirst.sets, hsecond.pairs.trans hfirst.pairs⟩
  | setWithFragment exclusive set name =>
      simp only [openTask, openSetWithFragment, Call.set?, Call.pair?]
      split
      · exact ⟨rfl, rfl⟩
      · split
        · exact ⟨rfl, rfl⟩
        · rename_i target fragment hlocate
          have hmatches := Ledger.gather_matches schema { ledger with
              setsWithFragments := (set.address, name, exclusive) :: ledger.setsWithFragments }
            (schema.type? fragment.condition) target fragment.selections
          split
          · exact ⟨hmatches.sets, hmatches.pairs⟩
          · exact ⟨hmatches.sets, hmatches.pairs⟩
  | fragments exclusive a b =>
      simp only [openTask, openFragments, Call.set?, Call.pair?]
      split
      · exact ⟨rfl, rfl⟩
      · split
        · rename_i targetA fragmentA targetB fragmentB hlocateA hlocateB
          have hfirst := Ledger.gather_matches schema { ledger with
              fragmentPairs := (Ledger.pairKey a b, exclusive) :: ledger.fragmentPairs }
            (schema.type? fragmentA.condition) targetA fragmentA.selections
          have hsecond := (Ledger.gather schema { ledger with
              fragmentPairs := (Ledger.pairKey a b, exclusive) :: ledger.fragmentPairs }
            (schema.type? fragmentA.condition) targetA fragmentA.selections).1.gather_matches schema
              (schema.type? fragmentB.condition) targetB fragmentB.selections
          exact ⟨hsecond.sets.trans hfirst.sets, hsecond.pairs.trans hfirst.pairs⟩
        · exact ⟨rfl, rfl⟩

/-- A run enters on the ledger what its calls enter, in their order. -/
theorem Runs.entered (h : Runs schema document ledger tasks calls after conflicts) :
    after.setsWithFragments = (calls.filterMap Call.set?).reverse ++ ledger.setsWithFragments ∧
      after.fragmentPairs =
        ((calls.filterMap Call.pair?).map Ledger.noted).reverse ++ ledger.fragmentPairs := by
  induction h with
  | done ledger => exact ⟨rfl, rfl⟩
  | @next ledger middle after task rest inner later found others hinner hlater ih ih' =>
      obtain ⟨hsets, hpairs⟩ := openTask_entered schema document ledger task
      rw [ih'.1, ih'.2, ih.1, ih.2, hsets, hpairs, List.filterMap_cons, List.filterMap_cons]
      constructor
      · cases (Call.set? (ledger, task)) <;> simp
      · cases (Call.pair? (ledger, task)) <;> simp

end

end QueryAudit.Merge
