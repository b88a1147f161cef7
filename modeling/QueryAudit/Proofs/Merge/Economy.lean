import QueryAudit.Proofs.Merge.Runs
import QueryAudit.Proofs.Merge.Verdict

/-!
# The search ends and repeats nothing

Over one whole walk the search through all sets of a document ends, whatever the schema and however
the fragments spread each other. A set is compared with a fragment at most once on each assumption
about exclusiveness. Two fragments are compared at most once as exclusive and once as not, and never
again after the latter.

The types on which sets are gathered do not matter to this, so it is shown for all of them.
-/

namespace QueryAudit

namespace Merge

/-- The sets and the fields of a document, on whatever types. -/
@[reducible] def Sites.standing (schema : Schema) (document : Document) :
    Sites schema document where
  Set _ address selections := ∃ type, document.setAt? schema address = some (type, selections)
  Field entry := ∃ type, document.setAt? schema entry.address = some (type, entry.selections)
  Held _ := False
  stands hset := hset
  located hlocate := ⟨_, (place_of_locate? hlocate).set⟩
  below hentry := ⟨⟨none, hentry⟩, .inr hentry⟩

theorem Sites.standing_closed {schema : Schema} {document : Document} :
    (Sites.standing schema document).Closed := by
  have hinline : ReachesInline schema (Sites.standing schema document).Set := by
    rintro parent address all number head inner ⟨type, hset⟩ hitem
    exact ⟨_, Document.setAt?_item hset hitem rfl⟩
  intro parent address selections entry hset hentry
  obtain ⟨type, above, siblings, position, ⟨outer, houter⟩, hfield, heq⟩ :=
    hinline.exists_field hset hentry
  rw [heq]
  exact ⟨_, Document.setAt?_item houter hfield rfl⟩

/-- The search along a walk: the tasks for each set that is entered are done, one set after the
other. -/
inductive Searches (schema : Schema) (document : Document) :
    Ledger → List Step → List Call → Ledger → List Conflict → Prop
  | done (ledger : Ledger) : Searches schema document ledger [] [] ledger []
  | set {ledger middle after : Ledger} {step : Step} {rest : List Step} {address : Address}
      {selections : SelectionSet} {inner later : List Call} {found others : List Conflict}
      (hevent : step.event = .enter (.selectionSet address selections))
      (hset : Runs schema document
        (ledger.gather schema step.types.parent? address selections).1
        (tasksForSet (ledger.gather schema step.types.parent? address selections).2)
        inner middle found)
      (hrest : Searches schema document middle rest later after others) :
      Searches schema document ledger (step :: rest) (inner ++ later) after (found ++ others)
  | other {ledger after : Ledger} {step : Step} {rest : List Step} {calls : List Call}
      {conflicts : List Conflict}
      (hevent : ∀ address selections, step.event ≠ .enter (.selectionSet address selections))
      (hrest : Searches schema document ledger rest calls after conflicts) :
      Searches schema document ledger (step :: rest) calls after conflicts

section

variable {schema : Schema} {document : Document}

/-! ## The whole search ends -/

theorem exists_searches (supplied : Variables) {steps : List Step}
    (hsteps : ∀ step ∈ steps, step.EntersPlaced schema document) {ledger : Ledger}
    (hledger : ledger.Genuine (Sites.standing schema document)) :
    ∃ calls after conflicts, Searches schema document ledger steps calls after conflicts ∧
      Checker.overlappingFieldsCanBeMerged.reports schema document supplied ledger steps =
        conflicts.map Conflict.diagnostic := by
  induction steps generalizing ledger with
  | nil => exact ⟨[], ledger, [], .done ledger, rfl⟩
  | cons step rest ih =>
      have hrest : ∀ other ∈ rest, other.EntersPlaced schema document := fun other hother =>
        hsteps other (List.mem_cons_of_mem _ hother)
      rcases overlappingFields_step supplied Sites.standing_closed hledger
        (fun address selections hevent =>
          ⟨_, hsteps step List.mem_cons_self address selections hevent⟩) with
        ⟨address, selections, middle, found, hevent, hset, hconflicts, hstep⟩ | ⟨hevent, hstep⟩
      · obtain ⟨inner, hinner⟩ := exists_runs hconflicts
        have hmiddle := (conflictsIn_keeps Sites.standing_closed hledger hset hconflicts).1
        obtain ⟨later, after, others, hlater, hreports⟩ := ih hrest hmiddle
        refine ⟨_, after, _, .set hevent hinner hlater, ?_⟩
        simp only [Checker.reports, hstep, hreports, List.map_append]
      · obtain ⟨calls, after, conflicts, hlater, hreports⟩ := ih hrest hledger
        refine ⟨calls, after, conflicts, .other hevent hlater, ?_⟩
        simp only [Checker.reports, hstep, hreports, List.nil_append]

/-! ## What the whole search enters -/

theorem Searches.entered {ledger after : Ledger} {steps : List Step} {calls : List Call}
    {conflicts : List Conflict}
    (h : Searches schema document ledger steps calls after conflicts) :
    after.setsWithFragments = (calls.filterMap Call.set?).reverse ++ ledger.setsWithFragments ∧
      after.fragmentPairs =
        ((calls.filterMap Call.pair?).map Ledger.noted).reverse ++ ledger.fragmentPairs := by
  induction h with
  | done ledger => exact ⟨rfl, rfl⟩
  | @set ledger _ _ step _ address selections _ _ _ _ hevent hset hrest ih =>
      have hmatches := ledger.gather_matches schema step.types.parent? address selections
      obtain ⟨hsets, hpairs⟩ := hset.entered
      rw [ih.1, ih.2, hsets, hpairs, hmatches.sets, hmatches.pairs]
      simp
  | other hevent hrest ih => exact ih

/-! ## Comparisons made at most once -/

/-- On which assumptions the fragments of a key were compared, last one first. -/
def assumptions (pairs : List ((Name × Name) × Bool)) (key : Name × Name) : List Bool :=
  (pairs.filter fun entry => entry.1 = key).map Prod.snd

/-- No comparison stands on a ledger twice, and none of two fragments after one that did not assume
exclusiveness. -/
structure Ledger.Thrifty (ledger : Ledger) : Prop where
  sets : ledger.setsWithFragments.Nodup
  pairs : ∀ key, assumptions ledger.fragmentPairs key ∈ [[], [true], [false], [false, true]]

theorem Ledger.Matches.thrifty {before after : Ledger} (hmatches : before.Matches after)
    (h : before.Thrifty) : after.Thrifty :=
  ⟨hmatches.sets ▸ h.sets, hmatches.pairs ▸ h.pairs⟩

theorem Ledger.hasPair_eq (ledger : Ledger) (exclusive : Bool) (a b : Name) :
    ledger.hasPair exclusive a b =
      match (assumptions ledger.fragmentPairs (pairKey a b)).head? with
      | some before => exclusive || !before
      | none => false := by
  rw [assumptions, List.head?_map, List.head?_filter, hasPair]
  cases ledger.fragmentPairs.find? fun entry => entry.1 = pairKey a b with
  | none => rfl
  | some found => rfl

/-- Fragments that have to be compared were compared at most once, and then as exclusive. -/
theorem Ledger.Thrifty.of_hasPair {ledger : Ledger} (h : ledger.Thrifty) {exclusive : Bool}
    {a b : Name} (hnew : ledger.hasPair exclusive a b = false) :
    exclusive :: assumptions ledger.fragmentPairs (pairKey a b) ∈
      [[], [true], [false], [false, true]] := by
  have hold := h.pairs (pairKey a b)
  rw [hasPair_eq] at hnew
  simp only [List.mem_cons, List.not_mem_nil, or_false] at hold
  -- Only two histories leave room for one more: none, and a single comparison as exclusive.
  rcases hold with hold | hold | hold | hold
  · cases exclusive <;> simp [hold]
  · rw [hold] at hnew ⊢
    cases exclusive with
    | false => simp
    | true => cases hnew
  · simp [hold] at hnew
  · simp [hold] at hnew

/-- Opening a task makes no comparison that was made before. -/
theorem Ledger.Thrifty.openTask {ledger : Ledger} (h : ledger.Thrifty) (task : Task) :
    (openTask schema document ledger task).ledger.Thrifty := by
  obtain ⟨hsets, hpairs⟩ := openTask_entered schema document ledger task
  refine ⟨?_, fun key => ?_⟩
  · rw [hsets]
    cases hset : Call.set? (ledger, task) with
    | none => exact h.sets
    | some entered => exact List.nodup_cons.mpr ⟨Call.not_mem_of_set? hset, h.sets⟩
  · rw [hpairs]
    cases hpair : Call.pair? (ledger, task) with
    | none => exact h.pairs key
    | some comparison =>
        have hnew := (Call.hasPair_of_pair? hpair).2
        by_cases hkey : pairKey comparison.1.1 comparison.1.2 = key
        · subst hkey
          simpa [assumptions, noted] using h.of_hasPair hnew
        · simpa [assumptions, noted, hkey] using h.pairs key

theorem Searches.thrifty {ledger after : Ledger} {steps : List Step} {calls : List Call}
    {conflicts : List Conflict}
    (h : Searches schema document ledger steps calls after conflicts)
    (hledger : ledger.Thrifty) : after.Thrifty := by
  induction h with
  | done ledger => exact hledger
  | @set ledger _ _ step _ address selections _ _ _ _ hevent hset hrest ih =>
      have hmatches := ledger.gather_matches schema step.types.parent? address selections
      have hopen : ∀ start task, start.Thrifty → True →
          (Merge.openTask schema document start task).ledger.Thrifty ∧
            ∀ other ∈ (Merge.openTask schema document start task).tasks, True :=
        fun start task hstart _ => ⟨hstart.openTask task, fun _ _ => trivial⟩
      exact ih (hset.keeps hopen (hmatches.thrifty hledger) fun _ _ => trivial).1
  | other hevent hrest ih => exact ih hledger

theorem Ledger.pairKey_eq_iff {a b c d : Name} :
    pairKey a b = pairKey c d ↔ (a, b) = (c, d) ∨ (a, b) = (d, c) := by
  have hcomm : pairKey d c = pairKey c d := by
    unfold pairKey
    by_cases hlt : c < d
    · simp [hlt, String.lt_asymm hlt]
    · by_cases hgt : d < c
      · simp [hlt, hgt]
      · simp [String.le_antisymm hgt hlt]
  constructor
  · intro h
    rcases pairKey_cases a b with hab | hab <;> rcases pairKey_cases c d with hcd | hcd <;>
      rw [hab, hcd] at h <;> simp_all
  · rintro (h | h)
    · cases h
      rfl
    · cases h
      exact hcomm

omit schema document in
/-- The assumptions on which two fragments were compared, from the comparisons in order. -/
theorem assumptions_noted (comparisons : List ((Name × Name) × Bool)) (a b : Name) :
    assumptions (comparisons.map Ledger.noted).reverse (Ledger.pairKey a b) =
      ((comparisons.filter fun comparison => comparison.1 = (a, b) ∨ comparison.1 = (b, a)).map
        Prod.snd).reverse := by
  have hkey : ((fun entry => decide (entry.1 = Ledger.pairKey a b)) ∘ Ledger.noted) =
      fun comparison => decide (comparison.1 = (a, b) ∨ comparison.1 = (b, a)) := by
    funext comparison
    exact decide_eq_decide.mpr Ledger.pairKey_eq_iff
  rw [assumptions, List.filter_reverse, List.filter_map, hkey, List.map_reverse, List.map_map]
  rfl

end

end Merge

open Merge in
/-- The search for overlapping fields ends on every document, and what it finds is what is reported.
In a whole search a set is compared with a fragment at most once on each assumption about
exclusiveness. Two fragments of different names are compared at most once as exclusive, at most once
as not exclusive, and no more after that; fragments of one name are not compared. A comparison that
is made again comes to nothing. -/
theorem overlapping_fields_search_economical (schema : Schema) (document : Document)
    (supplied : Variables) :
    (∃ calls after conflicts,
      Searches schema document .empty (document.tree.steps schema) calls after conflicts ∧
      document.diagnostics schema [.overlappingFieldsCanBeMerged] supplied =
        conflicts.map Conflict.diagnostic) ∧
    ∀ calls after conflicts,
      Searches schema document .empty (document.tree.steps schema) calls after conflicts →
        (calls.filterMap Call.set?).Nodup ∧
        (∀ a b, ((calls.filterMap Call.pair?).filter
          fun comparison => comparison.1 = (a, b) ∨ comparison.1 = (b, a)).map Prod.snd ∈
            [[], [true], [false], [true, false]]) ∧
        (∀ comparison ∈ calls.filterMap Call.pair?, comparison.1.1 ≠ comparison.1.2) ∧
        ∀ call ∈ calls, (∀ key exclusive a b, call.2 ≠ .fields key exclusive a b) →
          call.set? = none → call.pair? = none →
            openTask schema document call.1 call.2 = .nothing call.1 := by
  constructor
  · rw [diagnostics_overlappingFields]
    exact exists_searches supplied (fun _ => entersPlaced_of_mem_steps)
      (Ledger.genuine_empty_of_unheld fun _ => id)
  · intro calls after conflicts h
    have hempty : Ledger.empty.Thrifty :=
      ⟨List.nodup_nil, fun _ => by simp [Ledger.empty, assumptions]⟩
    have hthrifty := h.thrifty hempty
    obtain ⟨hsets, hpairs⟩ := h.entered
    rw [Ledger.empty, List.append_nil] at hsets hpairs
    refine ⟨?_, fun a b => ?_, fun comparison hmem => ?_, fun call _ htask hset hpair => ?_⟩
    · have hnodup := hthrifty.sets
      rw [hsets] at hnodup
      exact (List.reverse_perm _).nodup_iff.mp hnodup
    · have hkey := hthrifty.pairs (Ledger.pairKey a b)
      rw [hpairs, assumptions_noted] at hkey
      simpa [List.reverse_eq_iff] using hkey
    · obtain ⟨call, -, hcall⟩ := List.mem_filterMap.mp hmem
      exact (Call.hasPair_of_pair? hcall).1
    · exact Call.openTask_eq_nothing schema document hset hpair htask

end QueryAudit
