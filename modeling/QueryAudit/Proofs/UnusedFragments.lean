import QueryAudit.Proofs.Codes
import QueryAudit.Proofs.Measures
import QueryAudit.Proofs.Merge.Sets
import QueryAudit.Proofs.Reachability

/-!
# Fragments that no operation reaches

Which fragments a selection set reaches is found by a search and kept for the next time that it is
asked. Whatever was asked before, of this selection set or of others, the answer is the same. So the
rule on unused fragments reports each fragment whose name no operation reaches.
-/

namespace QueryAudit

/-! ## Answers for every selection set -/

namespace Memory

/-- A memory that questions about a document leave behind, in whatever order they are asked. -/
inductive Arises (schema : Schema) (document : Document) : Memory → Prop
  | empty : Arises schema document empty
  | reachedFrom {memory : Memory} {address : Address} {type : Option TypeDefinition}
      {selections : SelectionSet} (h : Arises schema document memory)
      (hset : document.setAt? schema address = some (type, selections)) :
      Arises schema document (memory.reachedFrom document address selections).1
  | usesOf {memory : Memory} {number : Nat} {operation : Operation}
      (h : Arises schema document memory)
      (hnumber : document.definitions[number]? = some (.operation operation)) :
      Arises schema document (memory.usesOf schema document number operation).1

def KeepsReached (schema : Schema) (document : Document) (memory : Memory) : Prop :=
  ∀ address type selections, document.setAt? schema address = some (type, selections) →
    ∀ found, memory.reached.lookup address = some found → found = document.reachable selections

variable {schema : Schema} {document : Document} {memory : Memory}

theorem KeepsReached.answer (h : memory.KeepsReached schema document) {address : Address}
    {type : Option TypeDefinition} {selections : SelectionSet}
    (hset : document.setAt? schema address = some (type, selections)) :
    (memory.reachedFrom document address selections).2 = document.reachable selections := by
  unfold Memory.reachedFrom
  cases hkept : memory.reached.lookup address with
  | some found => exact h _ _ _ hset _ hkept
  | none => rfl

theorem KeepsReached.reachedFrom (h : memory.KeepsReached schema document) {address : Address}
    {type : Option TypeDefinition} {selections : SelectionSet}
    (hset : document.setAt? schema address = some (type, selections)) :
    (memory.reachedFrom document address selections).1.KeepsReached schema document := by
  unfold Memory.reachedFrom
  cases memory.reached.lookup address with
  | some found => exact h
  | none =>
      intro asked type' selections' hasked found hfound
      rcases lookup_cons_cases hfound with ⟨rfl, rfl⟩ | hold
      · cases hset.symm.trans hasked
        rfl
      · exact h _ _ _ hasked _ hold

@[simp] theorem reached_usesIn (memory : Memory) (owner : UseOwner) (definition : Definition) :
    (memory.usesIn schema owner definition).1.reached = memory.reached := by
  unfold Memory.usesIn
  cases memory.uses.lookup owner <;> rfl

@[simp] theorem reached_usesInEach (memory : Memory) (fragments : List Fragment) :
    (memory.usesInEach schema fragments).1.reached = memory.reached := by
  induction fragments generalizing memory with
  | nil => rfl
  | cons fragment rest ih =>
      have hrest := ih (memory.usesIn schema (.fragment fragment.name) (.fragment fragment)).1
      rwa [reached_usesIn] at hrest

/-- To find the uses of variables, what the operation itself reaches is asked, and nothing else. -/
theorem KeepsReached.usesOf (h : memory.KeepsReached schema document) {number : Nat}
    {operation : Operation}
    (hnumber : document.definitions[number]? = some (.operation operation)) :
    (memory.usesOf schema document number operation).1.KeepsReached schema document := by
  unfold Memory.usesOf
  cases memory.allUses.lookup number with
  | some found => exact h
  | none =>
      have hown : (memory.usesIn schema (.operation number) (.operation operation)).1.KeepsReached
          schema document := by
        unfold KeepsReached
        rwa [reached_usesIn]
      have hasked := hown.reachedFrom (Document.setAt?_definition hnumber)
      unfold KeepsReached at hasked ⊢
      simpa only [reached_usesInEach, Definition.selections] using hasked

theorem Arises.keepsReached (h : memory.Arises schema document) :
    memory.KeepsReached schema document := by
  induction h with
  | empty =>
      intro address type selections _ found hfound
      cases hfound
  | reachedFrom _ hset ih => exact ih.reachedFrom hset
  | usesOf _ hnumber ih => exact ih.usesOf hnumber

end Memory

/-! ## The memory of an audit -/

theorem Inquiry.AsksAt.settle_arises {α : Type} {schema : Schema} {document : Document}
    {number : Nat} {inquiry : Inquiry α} (h : inquiry.AsksAt document number) {memory : Memory}
    (hmemory : memory.Arises schema document) :
    (inquiry.settle schema document number memory).1.Arises schema document := by
  induction inquiry generalizing memory with
  | settled result => exact hmemory
  | uses operation next ih => exact ih _ (h.2 _) (hmemory.usesOf h.1)
  | reached asked operation next ih =>
      exact ih _ (h.2 _) (hmemory.reachedFrom (Document.setAt?_definition h.1))

namespace Running

/-- One event leaves such a memory behind, the same count of definitions and the same checkers. -/
theorem stepAll_arises (scene : Scene) (event : Event) {shared : Shared} {running : List Running}
    (hasks : ∀ one ∈ running, one.checker.AsksInPlace)
    (hmemory : shared.memory.Arises scene.schema scene.document)
    (hevent : ∀ operation, event = .leave (.operation operation) →
      scene.document.definitions[shared.left]? = some (.operation operation)) :
    (stepAll scene event shared running).1.memory.Arises scene.schema scene.document ∧
      (stepAll scene event shared running).1.left = shared.left ∧
      ∀ one ∈ (stepAll scene event shared running).2.1, one.checker.AsksInPlace := by
  induction running generalizing shared with
  | nil => exact ⟨hmemory, rfl, fun _ hone => absurd hone List.not_mem_nil⟩
  | cons first rest ih =>
      obtain ⟨hfirst, hrest⟩ := List.forall_mem_cons.mp hasks
      have hstep : (first.step scene event shared).1.memory.Arises scene.schema scene.document :=
        (hfirst scene first.state event shared.left hevent).settle_arises hmemory
      obtain ⟨harises, hleft, hothers⟩ := @ih (first.step scene event shared).1 hrest hstep hevent
      exact ⟨harises, hleft, List.forall_mem_cons.mpr ⟨hfirst, hothers⟩⟩

theorem follow_arises (schema : Schema) (document : Document) (supplied : Variables)
    {shared : Shared} {running : List Running} {steps : List Step}
    (hasks : ∀ one ∈ running, one.checker.AsksInPlace)
    (hmemory : shared.memory.Arises schema document)
    (hnumbers : document.Numbers shared.left steps) :
    (follow schema document supplied shared running steps).1.memory.Arises schema document := by
  induction steps generalizing shared running with
  | nil => exact hmemory
  | cons step rest ih =>
      obtain ⟨hhere, hlater⟩ := hnumbers
      obtain ⟨harises, hleft, hothers⟩ :=
        stepAll_arises ⟨schema, document, supplied, step.types⟩ step.event hasks hmemory hhere
      refine ih hothers (by rwa [Shared.past_memory]) ?_
      rwa [Shared.past_left, hleft]

end Running

/-- At every point of the walk of an audit, the memory that its checkers share arose from questions
about the document. -/
theorem Document.arises_pass (schema : Schema) (rules : List Rule) (document : Document)
    (supplied : Variables) (count : Nat) :
    (Running.follow schema document supplied Shared.empty (Document.starters rules)
      ((document.tree.steps schema).take count)).1.memory.Arises schema document := by
  have hnumbers := document.numbers_steps schema
  rw [← List.take_append_drop count (document.tree.steps schema),
    Document.numbers_append] at hnumbers
  exact Running.follow_arises schema document supplied (Document.asksInPlace_starters rules) .empty
    hnumbers.1

/-! ## The rule -/

/-- A rule that is silent until the document is left reports what it reports there. -/
theorem Checker.reports_atEnd {inquiry : Scene → Event → Inquiry (List Diagnostic)}
    {schema : Schema} {document : Document} {supplied : Variables}
    (hsilent : ∀ types event, event ≠ .leave .document →
      (inquiry ⟨schema, document, supplied, types⟩ event).answer schema document = []) :
    (asking inquiry).reports schema document supplied () (document.tree.steps schema) =
      (inquiry ⟨schema, document, supplied, Tracker.empty⟩ (.leave .document)).answer schema
        document := by
  have hinside : (document.definitionSteps schema).flatMap (fun step =>
      (inquiry ⟨schema, document, supplied, step.types⟩ step.event).answer schema document) = [] :=
    List.flatMap_eq_nil_iff.mpr fun step hstep =>
      hsilent _ _ (Document.not_leave_of_mem_definitionSteps hstep)
  have hstart := hsilent Tracker.empty (.enter .document) nofun
  rw [reports_asking, Document.steps_eq, List.flatMap_cons, List.flatMap_append, hinside,
    List.flatMap_singleton, hstart]
  rfl

namespace Document

def unusedFragments (document : Document) : List Fragment :=
  document.fragments.filter fun fragment =>
    ∀ operation ∈ document.operations, ¬ document.ReachesName operation.selections fragment.name

theorem name_mem_reachable_iff {document : Document} {fragment : Fragment}
    (hfragment : fragment ∈ document.fragments) (selections : SelectionSet) :
    fragment.name ∈ (document.reachable selections).map Fragment.name ↔
      document.ReachesName selections fragment.name := by
  constructor
  · intro h
    obtain ⟨first, hfirst, hname⟩ := List.mem_map.mp h
    rw [← hname]
    exact ((mem_reachable_iff_reachesName ..).mp hfirst).2
  · intro h
    have hdefined : (document.fragment? fragment.name).isSome := by
      rw [fragment?, List.find?_isSome]
      exact ⟨fragment, hfragment, by simp⟩
    obtain ⟨first, hfirst⟩ := Option.isSome_iff_exists.mp hdefined
    have hname : first.name = fragment.name := name_of_fragment? hfirst
    rw [← hname]
    exact List.mem_map_of_mem ((mem_reachable_iff ..).mpr (h.reaches hfirst))

theorem reportsOf_noUnusedFragments (schema : Schema) (document : Document)
    (supplied : Variables) :
    document.reportsOf schema .noUnusedFragments supplied =
      document.unusedFragments.map fun fragment =>
        ⟨.unusedFragment fragment.name, [fragment.position]⟩ := by
  refine (Checker.reports_atEnd ?_).trans ?_
  · intro types event hevent
    cases event with
    | enter node => rfl
    | leave node => cases node <;> first | rfl | exact absurd rfl hevent
  · rw [Inquiry.answer_map, Inquiry.answer_reachedByAll]
    refine congrArg (List.map _) (List.filter_congr ?_)
    intro fragment hfragment
    rw [decide_eq_decide, ← numberedOperations_map_snd]
    simp only [List.map_flatMap, List.mem_flatMap, name_mem_reachable_iff hfragment,
      List.forall_mem_map, not_exists, not_and]

end Document

/-- The search for what a selection set reaches ends, and it can end in one way only. It finds,
once each, the first fragments of the names to which one spread or more lead, at any depth of fields
and inline fragments, and nothing else; so does any memory, whatever was asked of it before, and the
memory of an audit is always such a one. Whatever the other rules of an audit are, the rule on
unused fragments reports each fragment whose name no operation reaches, in order. -/
theorem fragments_closed (schema : Schema) (document : Document) (supplied : Variables)
    (set : RuleSet) :
    (∀ selections,
      (∀ found, document.Closes [selections] [] found ↔ found = document.reachable selections) ∧
      ((document.reachable selections).map Fragment.name).Nodup ∧
      ∀ fragment, fragment ∈ document.reachable selections ↔
        document.fragment? fragment.name = some fragment ∧
          document.ReachesName selections fragment.name) ∧
    (∀ memory : Memory, memory.Arises schema document →
      ∀ address type selections, document.setAt? schema address = some (type, selections) →
        (memory.reachedFrom document address selections).2 = document.reachable selections) ∧
    (∀ count, (Running.follow schema document supplied Shared.empty (Document.starters set.rules)
      ((document.tree.steps schema).take count)).1.memory.Arises schema document) ∧
    (document.audit schema set supplied).diagnostics.filter (·.problem.code = .fragmentsUsed) =
      if Rule.noUnusedFragments ∈ set.rules then
        document.unusedFragments.map fun fragment =>
          ⟨.unusedFragment fragment.name, [fragment.position]⟩
      else [] := by
  refine ⟨fun selections => ⟨fun found => ?_, document.nodup_reachable selections,
    document.mem_reachable_iff_reachesName selections⟩, ?_,
    document.arises_pass schema set.rules supplied, ?_⟩
  · have hcloses := document.closes_reachable selections
    constructor
    · exact fun h => h.unique hcloses
    · rintro rfl
      exact hcloses
  · intro memory hmemory address type selections hset
    exact hmemory.keepsReached.answer hset
  · have hfilter := document.filter_diagnostics schema set supplied
      (rfl : Rule.noUnusedFragments.codes = [Rule.noUnusedFragments.code])
    rwa [Document.reportsOf_noUnusedFragments] at hfilter

end QueryAudit
