import QueryAudit.Proofs.Walk
import QueryAudit.Rule.Checker

/-!
# Answers that are kept, and answers found afresh

The checkers of one walk share what they ask about the document. A memory is sound if whatever it
keeps is what would be found afresh. Every question keeps a memory sound, whoever asks it, and so a
checker cannot tell a memory that others have filled from an empty one.
-/

namespace QueryAudit

namespace Document

/-- What is found by following spreads is a fragment of the document, the first of its name. -/
theorem fragment?_of_mem_discover {document : Document} {seen : List Name}
    {spreads : List Spread} {fragment : Fragment}
    (h : fragment ∈ (document.discover seen spreads).2) :
    document.fragment? fragment.name = some fragment := by
  induction spreads generalizing seen with
  | nil => cases h
  | cons spread rest ih =>
      unfold discover at h
      split at h
      · exact ih h
      · cases hfound : document.fragment? spread.name with
        | none =>
            simp only [hfound] at h
            exact ih h
        | some found =>
            simp only [hfound, List.mem_cons] at h
            rcases h with rfl | h
            · have hname : fragment.name = spread.name := by
                simpa using List.find?_some hfound
              rw [hname]
              exact hfound
            · exact ih h

theorem fragment?_of_mem_reachable {document : Document} {selections : SelectionSet}
    {fragment : Fragment} (h : fragment ∈ document.reachable selections) :
    document.fragment? fragment.name = some fragment := by
  have hreach : ∀ (rounds : Nat) (waiting : List SelectionSet) (seen : List Name),
      fragment ∈ document.reach rounds waiting seen →
      document.fragment? fragment.name = some fragment := by
    intro rounds
    induction rounds with
    | zero => intro waiting seen hmem; cases hmem
    | succ rounds ih =>
        intro waiting seen hmem
        cases waiting with
        | nil => cases hmem
        | cons set others =>
            simp only [reach, List.mem_append] at hmem
            rcases hmem with hfound | hlater
            · exact fragment?_of_mem_discover hfound
            · exact ih _ _ hlater
  exact hreach _ _ _ h

theorem definitions_of_mem_numberedOperations {document : Document} {number : Nat}
    {operation : Operation} (h : (number, operation) ∈ document.numberedOperations) :
    document.definitions[number]? = some (.operation operation) := by
  obtain ⟨⟨definition, found⟩, hmem, hmap⟩ := List.mem_filterMap.mp h
  obtain ⟨_, hoperation, hpair⟩ := Option.map_eq_some_iff.mp hmap
  obtain ⟨rfl, rfl⟩ := Prod.mk.inj hpair
  have hdefinition : document.definitions[found]? = some definition :=
    List.mem_zipIdx_iff_getElem?.mp hmem
  cases definition with
  | operation o =>
      cases hoperation
      exact hdefinition
  | fragment f => cases hoperation

theorem numberedOperations_map_snd (document : Document) :
    document.numberedOperations.map Prod.snd = document.operations := by
  have hall : ∀ (definitions : List Definition) (number : Nat),
      ((definitions.zipIdx number).filterMap fun numbered =>
        numbered.1.operation?.map fun operation => (numbered.2, operation)).map Prod.snd =
      definitions.filterMap Definition.operation? := by
    intro definitions
    induction definitions with
    | nil => intro number; rfl
    | cons definition rest ih =>
        intro number
        cases definition with
        | operation o => exact congrArg (o :: ·) (ih (number + 1))
        | fragment f => exact ih (number + 1)
  exact hall document.definitions 0

end Document

/-- An owner stands for a definition of the document. -/
def UseOwner.StandsFor (document : Document) : UseOwner → Definition → Prop
  | .operation number, definition => document.definitions[number]? = some definition
  | .fragment name, definition =>
      ∃ fragment, document.fragment? name = some fragment ∧ definition = .fragment fragment

theorem UseOwner.StandsFor.unique {document : Document} {owner : UseOwner}
    {first second : Definition} (hfirst : owner.StandsFor document first)
    (hsecond : owner.StandsFor document second) : first = second := by
  cases owner with
  | operation number => exact Option.some.inj (hfirst.symm.trans hsecond)
  | fragment name =>
      obtain ⟨one, hone, rfl⟩ := hfirst
      obtain ⟨other, hother, rfl⟩ := hsecond
      rw [Option.some.inj (hone.symm.trans hother)]

namespace Memory

/-- After one more answer, what is kept under a key is that answer or was kept before. -/
theorem lookup_cons_cases {κ α : Type} [BEq κ] [LawfulBEq κ] {key asked : κ}
    {answer found : α} {kept : List (κ × α)}
    (h : ((key, answer) :: kept).lookup asked = some found) :
    asked = key ∧ found = answer ∨ kept.lookup asked = some found := by
  by_cases hsame : asked = key
  · rw [hsame, List.lookup_cons_self, Option.some.injEq] at h
    exact .inl ⟨hsame, h.symm⟩
  · have hother : (asked == key) = false := by simp [hsame]
    simp only [List.lookup_cons, hother] at h
    exact .inr h

/-- Whatever is kept is what would be found afresh. -/
structure Sound (schema : Schema) (document : Document) (memory : Memory) : Prop where
  reached : ∀ {number definition found}, document.definitions[number]? = some definition →
    memory.reached.lookup [number] = some found →
    found = document.reachable definition.selections
  uses : ∀ {owner definition found}, owner.StandsFor document definition →
    memory.uses.lookup owner = some found →
    found = VariableUse.inTree schema (Definition.tree 0 definition)
  allUses : ∀ {number operation found},
    document.definitions[number]? = some (.operation operation) →
    memory.allUses.lookup number = some found →
    found = VariableUse.ofOperation schema document operation

variable {schema : Schema} {document : Document} {memory : Memory}

theorem empty_sound : empty.Sound schema document where
  reached _ h := by simp [empty] at h
  uses _ h := by simp [empty] at h
  allUses _ h := by simp [empty] at h

/-- A question is answered as it would be afresh, and the memory is sound after it. -/
def Answers (schema : Schema) (document : Document) {α : Type} (outcome : Memory × α) (answer : α) :
    Prop :=
  outcome.2 = answer ∧ outcome.1.Sound schema document

theorem Sound.reachedFrom (h : memory.Sound schema document) {number : Nat}
    {definition : Definition} (hnumber : document.definitions[number]? = some definition) :
    Answers schema document (memory.reachedFrom document [number] definition.selections)
      (document.reachable definition.selections) := by
  unfold Memory.reachedFrom
  cases hkept : memory.reached.lookup [number] with
  | some found => exact ⟨h.reached hnumber hkept, h⟩
  | none =>
      refine ⟨rfl, ?_, h.uses, h.allUses⟩
      intro asked definition' found hasked hfound
      rcases lookup_cons_cases hfound with ⟨hsame, rfl⟩ | hold
      · cases hsame
        rw [Option.some.inj (hnumber.symm.trans hasked)]
      · exact h.reached hasked hold

theorem Sound.usesIn (h : memory.Sound schema document) {owner : UseOwner}
    {definition : Definition} (howner : owner.StandsFor document definition) :
    Answers schema document (memory.usesIn schema owner definition)
      (VariableUse.inTree schema (Definition.tree 0 definition)) := by
  unfold Memory.usesIn
  cases hkept : memory.uses.lookup owner with
  | some found => exact ⟨h.uses howner hkept, h⟩
  | none =>
      refine ⟨rfl, h.reached, ?_, h.allUses⟩
      intro asked definition' found hasked hfound
      rcases lookup_cons_cases hfound with ⟨rfl, rfl⟩ | hold
      · rw [howner.unique hasked]
      · exact h.uses hasked hold

theorem Sound.usesInEach (h : memory.Sound schema document) {fragments : List Fragment}
    (hfragments : ∀ fragment ∈ fragments, document.fragment? fragment.name = some fragment) :
    Answers schema document (memory.usesInEach schema fragments)
      (fragments.flatMap fun fragment =>
        VariableUse.inTree schema (Definition.tree 0 (.fragment fragment))) := by
  induction fragments generalizing memory with
  | nil => exact ⟨rfl, h⟩
  | cons fragment rest ih =>
      have howner : (UseOwner.fragment fragment.name).StandsFor document (.fragment fragment) :=
        ⟨fragment, hfragments fragment List.mem_cons_self, rfl⟩
      obtain ⟨hown, hsound⟩ := h.usesIn howner
      obtain ⟨hothers, hend⟩ :=
        ih hsound fun other hother => hfragments other (List.mem_cons_of_mem _ hother)
      refine ⟨?_, hend⟩
      simp only [Memory.usesInEach, List.flatMap_cons, hown, hothers]

theorem Sound.usesOf (h : memory.Sound schema document) {number : Nat} {operation : Operation}
    (hnumber : document.definitions[number]? = some (.operation operation)) :
    Answers schema document (memory.usesOf schema document number operation)
      (VariableUse.ofOperation schema document operation) := by
  unfold Memory.usesOf
  cases hkept : memory.allUses.lookup number with
  | some found => exact ⟨h.allUses hnumber hkept, h⟩
  | none =>
      have howner : (UseOwner.operation number).StandsFor document (.operation operation) := hnumber
      obtain ⟨hown, hsound⟩ := h.usesIn howner
      obtain ⟨hreached, hsound⟩ := hsound.reachedFrom hnumber
      have hfirst : ∀ fragment ∈ document.reachable operation.selections,
          document.fragment? fragment.name = some fragment :=
        fun _ hfragment => Document.fragment?_of_mem_reachable hfragment
      obtain ⟨hothers, hsound⟩ := hsound.usesInEach hfirst
      simp only [Definition.selections] at hreached hothers hsound
      simp only [hown, hreached, hothers]
      refine ⟨rfl, hsound.reached, hsound.uses, ?_⟩
      intro asked operation' found hasked hfound
      rcases lookup_cons_cases hfound with ⟨rfl, rfl⟩ | hold
      · cases hnumber.symm.trans hasked
        rfl
      · exact hsound.allUses hasked hold

end Memory

namespace Inquiry

variable {α β : Type}

/-- The result if each question is answered afresh. -/
def answer (schema : Schema) (document : Document) : Inquiry α → α
  | .settled result => result
  | .uses operation next =>
      answer schema document (next (VariableUse.ofOperation schema document operation))
  | .reached _ operation next =>
      answer schema document (next (document.reachable operation.selections))

@[simp] theorem answer_settled (schema : Schema) (document : Document) (result : α) :
    (settled result).answer schema document = result := rfl

@[simp] theorem answer_uses (schema : Schema) (document : Document) (operation : Operation)
    (next : List VariableUse → Inquiry α) :
    (uses operation next).answer schema document =
      (next (VariableUse.ofOperation schema document operation)).answer schema document := rfl

@[simp] theorem answer_map (schema : Schema) (document : Document) (change : α → β)
    (inquiry : Inquiry α) :
    (inquiry.map change).answer schema document = change (inquiry.answer schema document) := by
  induction inquiry with
  | settled result => rfl
  | uses operation next ih => exact ih _
  | reached number operation next ih => exact ih _

@[simp] theorem answer_reachedByAll (schema : Schema) (document : Document)
    (operations : List (Nat × Operation)) :
    (reachedByAll operations).answer schema document =
      operations.flatMap fun numbered => document.reachable numbered.2.selections := by
  induction operations with
  | nil => rfl
  | cons numbered rest ih => simp only [reachedByAll, answer, answer_map, ih, List.flatMap_cons]

/-- Each question is about a definition of the document: what is used, in the one of a number; what
is reached, in the one whose number is given. -/
def AsksAt (document : Document) (number : Nat) : Inquiry α → Prop
  | .settled _ => True
  | .uses operation next =>
      document.definitions[number]? = some (.operation operation) ∧
        ∀ found, AsksAt document number (next found)
  | .reached asked operation next =>
      document.definitions[asked]? = some (.operation operation) ∧
        ∀ found, AsksAt document number (next found)

theorem AsksAt.map {document : Document} {number : Nat} (change : α → β) {inquiry : Inquiry α}
    (h : inquiry.AsksAt document number) : (inquiry.map change).AsksAt document number := by
  induction inquiry with
  | settled result => trivial
  | uses operation next ih => exact ⟨h.1, fun found => ih found (h.2 found)⟩
  | reached asked operation next ih => exact ⟨h.1, fun found => ih found (h.2 found)⟩

theorem reachedByAll_asksAt {document : Document} (number : Nat)
    {operations : List (Nat × Operation)}
    (h : ∀ numbered ∈ operations,
      document.definitions[numbered.1]? = some (.operation numbered.2)) :
    (reachedByAll operations).AsksAt document number := by
  induction operations with
  | nil => trivial
  | cons numbered rest ih =>
      exact ⟨h numbered List.mem_cons_self,
        fun found => (ih fun other hother => h other (List.mem_cons_of_mem _ hother)).map _⟩

/-- With a sound memory an inquiry ends as it would afresh. -/
theorem AsksAt.settle {schema : Schema} {document : Document} {memory : Memory} {number : Nat}
    {inquiry : Inquiry α} (h : inquiry.AsksAt document number)
    (hsound : memory.Sound schema document) :
    Memory.Answers schema document (inquiry.settle schema document number memory)
      (inquiry.answer schema document) := by
  induction inquiry generalizing memory with
  | settled result => exact ⟨rfl, hsound⟩
  | uses operation next ih =>
      obtain ⟨hfound, hafter⟩ := hsound.usesOf h.1
      simp only [Inquiry.settle, answer, hfound]
      exact ih _ (h.2 _) hafter
  | reached asked operation next ih =>
      obtain ⟨hfound, hafter⟩ := hsound.reachedFrom h.1
      simp only [Definition.selections] at hfound hafter
      simp only [Inquiry.settle, answer, hfound]
      exact ih _ (h.2 _) hafter

end Inquiry

end QueryAudit
