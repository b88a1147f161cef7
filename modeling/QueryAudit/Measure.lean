import QueryAudit.Document
import QueryAudit.Rule.Checker

/-!
# Measures of a document

How many aliases a document has and how deep its fields are nested, found from the document at once
or along a walk.
-/

/-! ## Counting aliases -/

namespace QueryAudit

mutual

def Selection.aliasCount : Selection → Nat
  | .field chosen inner =>
      (if chosen.aliasName.isSome then 1 else 0) + SelectionSet.aliasCount inner
  | .spread _ => 0
  | .inline _ inner => SelectionSet.aliasCount inner

def SelectionSet.aliasCount : List Selection → Nat
  | [] => 0
  | selection :: rest => Selection.aliasCount selection + SelectionSet.aliasCount rest

end

namespace Definition

def aliasCount : Definition → Nat
  | .operation it => SelectionSet.aliasCount it.selections
  | .fragment it => SelectionSet.aliasCount it.selections

end Definition

/-- The number of fields with an alias in a document, each counted where it is written. -/
def Document.aliasCount (document : Document) : Nat :=
  document.definitions.foldl (fun total definition => total + definition.aliasCount) 0

end QueryAudit

/-!
## Depth of nested fields

The depth of an operation counts fields inside fields, with spreads opened. The depth of a fragment
is found once and kept for the whole document. A fragment that is met again while its own depth is
being found counts as nothing there; so does one that is not defined.
-/

namespace QueryAudit.Depth

inductive Known where
  /-- Being found. -/
  | open
  | found (depth : Nat)
deriving DecidableEq, Repr

abbrev Memo := NameTable Known

mutual

/-- The depth of an item of a selection set. `spread` gives the depth of a fragment. -/
def ofSelection (spread : Memo → Name → Memo × Nat) (memo : Memo) : Selection → Memo × Nat
  | .field _ inner =>
      let (memo, depth) := ofSelections spread memo inner
      (memo, 1 + depth)
  | .inline _ inner => ofSelections spread memo inner
  | .spread chosen => spread memo chosen.name

def ofSelections (spread : Memo → Name → Memo × Nat) (memo : Memo) : List Selection → Memo × Nat
  | [] => (memo, 0)
  | selection :: rest =>
      let (memo, depth) := ofSelection spread memo selection
      let (memo, others) := ofSelections spread memo rest
      (memo, max depth others)

end

/-- The depth of a fragment, with fragments opened inside each other to a given number. -/
def ofFragment (document : Document) : Nat → Memo → Name → Memo × Nat
  | 0, memo, _ => (memo, 0)
  | rounds + 1, memo, name =>
      match memo.find? name with
      | some (.found depth) => (memo, depth)
      | some .open => (memo, 0)
      | none =>
          match document.fragment? name with
          | some fragment =>
              let (memo, depth) := ofSelections (ofFragment document rounds)
                (memo.insert name .open) fragment.selections
              (memo.insert name (.found depth), depth)
          | none => (memo, 0)

/-- The greatest depth of some operations. Fragments open inside each other have different names, so
one more round than there are fragments is enough. -/
def ofOperations (document : Document) : Memo → List Operation → Nat
  | _, [] => 0
  | memo, operation :: rest =>
      let (memo, depth) := ofSelections (ofFragment document (document.fragments.length + 1)) memo
        operation.selections
      max depth (ofOperations document memo rest)

end QueryAudit.Depth

namespace QueryAudit

def Document.depth (document : Document) : Nat :=
  Depth.ofOperations document [] document.operations

end QueryAudit

/-!
## Measures taken along a walk

The depth of a document and the number of its aliases are found along the walk, and taken where it
leaves the document.
-/

namespace QueryAudit.Checker

/-- The greatest depth of the operations met so far, with what is known of the fragments. -/
structure DepthState where
  deepest : Nat
  memo : Depth.Memo

/-- The depth past an event: an operation is measured where it is entered. -/
def DepthState.past (document : Document) (state : DepthState) : Event → DepthState
  | .enter (.operation operation) =>
      let ofFragment := Depth.ofFragment document (document.fragments.length + 1)
      let (memo, depth) := Depth.ofSelections ofFragment state.memo operation.selections
      ⟨max state.deepest depth, memo⟩
  | _ => state

def depthGauge : Checker :=
  gauge DepthState ⟨0, []⟩ (fun scene => DepthState.past scene.document) fun state event =>
    match event with
    | .leave .document => [("depth", state.deepest)]
    | _ => []

def aliasesPast (count : Nat) : Event → Nat
  | .enter (.field field _) => if field.aliasName.isSome then count + 1 else count
  | _ => count

def aliasGauge : Checker :=
  gauge Nat 0 (fun _ => aliasesPast) fun count event =>
    match event with
    | .leave .document => [("aliasCount", count)]
    | _ => []

end QueryAudit.Checker
