import QueryAudit.Problem
import QueryAudit.Walk

/-!
# Checkers

A checker follows a walk through a document: at each event it sees the scene, may ask for what is
reached and used in the document, may change its own state, and reports diagnostics. Several
checkers follow one walk side by side. They share the answers to what they ask, and the measures
that some of them take; their states are their own.
-/

namespace QueryAudit

/-- What a checker sees: the schema, the whole document, the supplied variables, and the types
tracked at the current event. -/
structure Scene where
  schema : Schema
  document : Document
  supplied : Variables
  types : Tracker

/-- A result, perhaps after some questions about the document. -/
inductive Inquiry (α : Type) where
  | settled (result : α)
  /-- Ask for the uses of variables in the operation that the walk is in, and in the fragments that
  it reaches. -/
  | uses (operation : Operation) (next : List VariableUse → Inquiry α)
  /-- Ask for the fragments that the operation of a number reaches. -/
  | reached (number : Nat) (operation : Operation) (next : List Fragment → Inquiry α)

namespace Inquiry

variable {α β : Type}

def map (change : α → β) : Inquiry α → Inquiry β
  | .settled result => .settled (change result)
  | .uses operation next => .uses operation fun found => (next found).map change
  | .reached number operation next => .reached number operation fun found => (next found).map change

def reachedByAll : List (Nat × Operation) → Inquiry (List Fragment)
  | [] => .settled []
  | (number, operation) :: rest =>
      .reached number operation fun found => (reachedByAll rest).map fun others => found ++ others

def settle (schema : Schema) (document : Document) (number : Nat) :
    Memory → Inquiry α → Memory × α
  | memory, .settled result => (memory, result)
  | memory, .uses operation next =>
      let (memory, found) := memory.usesOf schema document number operation
      settle schema document number memory (next found)
  | memory, .reached asked operation next =>
      let (memory, found) := memory.reachedFrom document [asked] operation.selections
      settle schema document number memory (next found)

end Inquiry

structure Checker where
  State : Type
  start : State
  act : Scene → State → Event → Inquiry (State × List Diagnostic)
  /-- The measures that are taken at an event, from the state after it. -/
  measures : State → Event → NameTable Nat := fun _ _ => []

structure Running where
  checker : Checker
  state : checker.State

structure Shared where
  memory : Memory
  /-- How many definitions the walk has left: the number of the one that it is in. -/
  left : Nat
  measures : NameTable Nat

namespace Event

def leavesDefinition : Event → Bool
  | .leave (.operation _) | .leave (.fragment _) => true
  | _ => false

end Event

namespace Shared

def empty : Shared := ⟨Memory.empty, 0, []⟩

/-- What is shared once an event is over. -/
def past (shared : Shared) (event : Event) : Shared :=
  if event.leavesDefinition then { shared with left := shared.left + 1 } else shared

end Shared

namespace Checker

def ofStep (State : Type) (start : State)
    (step : Scene → State → Event → State × List Diagnostic) : Checker where
  State := State
  start := start
  act scene state event := .settled (step scene state event)

def asking (inquiry : Scene → Event → Inquiry (List Diagnostic)) : Checker where
  State := Unit
  start := ()
  act scene _ event := (inquiry scene event).map fun diagnostics => ((), diagnostics)

def stateless (report : Scene → Event → List Diagnostic) : Checker :=
  asking fun scene event => .settled (report scene event)

def gauge (State : Type) (start : State) (step : Scene → State → Event → State)
    (measures : State → Event → NameTable Nat) : Checker where
  State := State
  start := start
  act scene state event := .settled (step scene state event, [])
  measures := measures

def running (checker : Checker) : Running := ⟨checker, checker.start⟩

end Checker

namespace Running

def step (scene : Scene) (event : Event) (shared : Shared) (running : Running) :
    Shared × Running × List Diagnostic :=
  let inquiry := running.checker.act scene running.state event
  let (memory, state, diagnostics) :=
    inquiry.settle scene.schema scene.document shared.left shared.memory
  let measures := NameTable.merge shared.measures (running.checker.measures state event)
  ({ shared with memory, measures }, ⟨running.checker, state⟩, diagnostics)

def stepAll (scene : Scene) (event : Event) :
    Shared → List Running → Shared × List Running × List Diagnostic
  | shared, [] => (shared, [], [])
  | shared, running :: rest =>
      let (shared, after, diagnostics) := running.step scene event shared
      let (shared, others, more) := stepAll scene event shared rest
      (shared, after :: others, diagnostics ++ more)

/-- Checkers follow the steps of a walk: what they share in the end, and what is reported at each
event. -/
def follow (schema : Schema) (document : Document) (supplied : Variables) :
    Shared → List Running → List Step → Shared × List (List Diagnostic)
  | shared, _, [] => (shared, [])
  | shared, running, step :: rest =>
      let scene : Scene := ⟨schema, document, supplied, step.types⟩
      let (shared, after, diagnostics) := stepAll scene step.event shared running
      let (shared, later) := follow schema document supplied (shared.past step.event) after rest
      (shared, diagnostics :: later)

end Running

def Problem.at (problem : Problem) (position : Position) : Diagnostic := ⟨problem, [position]⟩

/-- What has been named so far, with the place of the first one. -/
abbrev FirstPlaces := NameTable Position

/-- Note a name. A name that was there before is reported, with its first place and this one. -/
def FirstPlaces.note (places : FirstPlaces) (name : Name) (position : Position)
    (problem : Problem) : FirstPlaces × List Diagnostic :=
  match places.find? name with
  | some first => (places, [⟨problem, [first, position]⟩])
  | none => (places.insert name position, [])

end QueryAudit
