import QueryAudit.Rule.Checker

/-!
# Rules on fragments

Each fragment by itself, where it is spread, and whether it comes back to itself.
-/

/-!
## Fragments and their spreads

Fragments have different names and known composite types, are used, do not spread themselves, and
are spread only where some object can be of their type.
-/

namespace QueryAudit.Checker

def uniqueFragmentNames : Checker := ofStep FirstPlaces [] fun _ places event =>
  match event with
  | .enter (.fragment fragment) =>
      places.note fragment.name fragment.position (.duplicateFragment fragment.name)
  | _ => (places, [])

def unknownTypeAt (schema : Schema) (name : Name) (position : Position) : List Diagnostic :=
  match schema.type? name with
  | some _ => []
  | none =>
      let known := schema.types.entries.filter fun type => !type.isIntrospection
      let near := Suggestion.nearest name (known.map TypeDefinition.name)
      [(Problem.unknownType name near).at position]

/-- The types that conditions and variables name exist. -/
def knownTypeNames : Checker := stateless fun scene event =>
  match event with
  | .enter (.fragment fragment) =>
      unknownTypeAt scene.schema fragment.condition fragment.position
  | .enter (.variableDefinition definition) =>
      unknownTypeAt scene.schema definition.type.concreteName definition.position
  | .enter (.inline fragment) =>
      match fragment.condition with
      | some condition => unknownTypeAt scene.schema condition fragment.position
      | none => []
  | _ => []

/-- The report on a condition whose type, the current one, has no fields. -/
def nonCompositeCondition (types : Tracker) (fragment : Option Name) (condition : Name)
    (position : Position) : List Diagnostic :=
  match types.type? with
  | some type =>
      if type.isComposite then []
      else [(Problem.fragmentOnNonComposite fragment condition).at position]
  | none => []

def fragmentsOnCompositeTypes : Checker := stateless fun scene event =>
  match event with
  | .enter (.fragment fragment) =>
      nonCompositeCondition scene.types (some fragment.name) fragment.condition fragment.position
  | .enter (.inline fragment) =>
      match fragment.condition with
      | some condition => nonCompositeCondition scene.types none condition fragment.position
      | none => []
  | _ => []

def noUnusedFragments : Checker := asking fun scene event =>
  match event with
  | .leave .document =>
      (Inquiry.reachedByAll scene.document.numberedOperations).map fun reached =>
        let used := reached.map Fragment.name
        let unused := scene.document.fragments.filter fun fragment => fragment.name ∉ used
        unused.map fun fragment => (Problem.unusedFragment fragment.name).at fragment.position
  | _ => .settled []

def knownFragmentNames : Checker := stateless fun scene event =>
  match event with
  | .enter (.spread spread) =>
      match scene.document.fragment? spread.name with
      | some _ => []
      | none =>
          let near := Suggestion.nearest spread.name (scene.document.fragments.map Fragment.name)
          [(Problem.unknownFragment spread.name near).at spread.position]
  | _ => []

/-- The report on a fragment of a composite type that no object of the parent type can be of. -/
def impossibleSpread (fragment : Option Name) (type parent : Option TypeDefinition)
    (position : Position) : List Diagnostic :=
  match type, parent with
  | some type, some parent =>
      if type.isComposite && !type.overlaps parent then
        [(Problem.impossibleSpread fragment parent.name type.name).at position]
      else []
  | _, _ => []

/-- Fragments are spread only where some object can be of their type. -/
def possibleFragmentSpreads : Checker := stateless fun scene event =>
  match event with
  | .enter (.spread spread) =>
      let type := (scene.document.fragment? spread.name).bind fun fragment =>
        scene.schema.type? fragment.condition
      impossibleSpread (some spread.name) type scene.types.parent? spread.position
  | .enter (.inline fragment) =>
      if fragment.condition.isSome then
        impossibleSpread none scene.types.type? scene.types.parent? fragment.position
      else []
  | _ => []

end QueryAudit.Checker

/-!
## Fragments that spread themselves

A search along spreads, depth first. It keeps the path of the spreads that it has taken and not come
back from, and where on the path each fragment starts that it is inside of. Every spread that leads
back into such a fragment is reported with the part of the path that starts there. A fragment whose
spreads have all been followed is cleared and not searched again.
-/

namespace QueryAudit.Cycle

structure Search where
  /-- The fragments whose spreads have all been followed. -/
  cleared : List Name
  /-- The spreads taken and not come back from. -/
  path : List Spread
  /-- The fragments that the search is inside of, each with the number of spreads on the path before
  its own. -/
  starts : NameTable Nat

namespace Search

def empty : Search := ⟨[], [], []⟩

def take (search : Search) (spread : Spread) : Search :=
  { search with path := search.path ++ [spread] }

def comeBack (search : Search) : Search := { search with path := search.path.dropLast }

def goInto (search : Search) (name : Name) : Search :=
  { search with starts := search.starts.insert name search.path.length }

/-- Note that all spreads of a fragment have been followed. -/
def clear (search : Search) (name : Name) : Search :=
  { search with cleared := name :: search.cleared }

/-- Leave a fragment, all of whose spreads have been followed. -/
def leave (search : Search) (name : Name) : Search :=
  { search with starts := search.starts.remove name }.clear name

end Search

/-- The report on the spreads of a cycle, the last of which leads to the given fragment. -/
def diagnostic (target : Name) (cycle : List Spread) : Diagnostic where
  problem := .fragmentCycle target (cycle.dropLast.map Spread.name)
  positions := cycle.map Spread.position

/-- Follow a spread of the fragment that the search went into last. `visit` searches a fragment that
the search is not inside of. -/
def followSpread (document : Document) (visit : Search → Fragment → Search × List Diagnostic)
    (search : Search) (spread : Spread) : Search × List Diagnostic :=
  let taken := search.take spread
  match search.starts.find? spread.name with
  | some start => (taken, [diagnostic spread.name (taken.path.drop start)])
  | none =>
      match document.fragment? spread.name with
      | some fragment => visit taken fragment
      | none => (taken, [])

/-- Follow spreads in order, coming back from each. -/
def followSpreads (document : Document) (visit : Search → Fragment → Search × List Diagnostic) :
    Search → List Spread → Search × List Diagnostic
  | search, [] => (search, [])
  | search, spread :: rest =>
      let (after, found) := followSpread document visit search spread
      let (last, others) := followSpreads document visit after.comeBack rest
      (last, found ++ others)

/-- Search a fragment that the search is not inside of, going into a number of fragments inside each
other at most. -/
def searchFragment (document : Document) :
    Nat → Search → Fragment → Search × List Diagnostic
  | 0, search, _ => (search, [])
  | depth + 1, search, fragment =>
      if fragment.name ∈ search.cleared then (search, [])
      else
        match SelectionSet.spreads fragment.selections with
        | [] => (search.clear fragment.name, [])
        | spreads =>
            let (after, found) := followSpreads document (searchFragment document depth)
              (search.goInto fragment.name) spreads
            (after.leave fragment.name, found)

end QueryAudit.Cycle

namespace QueryAudit.Checker

/-- Fragments do not spread themselves, directly or through others. The fragments that a search is
inside of have different names, so there are at most as many as the document defines. -/
def noFragmentCycles : Checker :=
  ofStep Cycle.Search Cycle.Search.empty fun scene search event =>
    match event with
    | .enter (.fragment fragment) =>
        Cycle.searchFragment scene.document scene.document.fragments.length search fragment
    | _ => (search, [])

end QueryAudit.Checker
