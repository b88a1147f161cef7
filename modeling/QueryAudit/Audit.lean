import QueryAudit.Measure
import QueryAudit.Rule.Basic
import QueryAudit.Rule.Fields
import QueryAudit.Rule.Fragments
import QueryAudit.Rule.Operations

/-!
# Auditing documents

Every rule has a checker. An audit runs those of the chosen rules along one walk.
-/

/-! ## The checker of each rule -/

namespace QueryAudit.Rule

def checker : Rule → Checker
  | .uniqueOperationNames => .uniqueOperationNames
  | .loneAnonymousOperation => .loneAnonymousOperation
  | .singleFieldSubscriptions => .singleFieldSubscriptions
  | .fieldsOnCorrectType => .fieldsOnCorrectType
  | .overlappingFieldsCanBeMerged => .overlappingFieldsCanBeMerged
  | .scalarLeafs => .scalarLeafs
  | .knownArgumentNames => .knownArgumentNames
  | .uniqueArgumentNames => .uniqueArgumentNames
  | .providedNonNullArguments => .providedNonNullArguments
  | .uniqueFragmentNames => .uniqueFragmentNames
  | .knownTypeNames => .knownTypeNames
  | .fragmentsOnCompositeTypes => .fragmentsOnCompositeTypes
  | .noUnusedFragments => .noUnusedFragments
  | .knownFragmentNames => .knownFragmentNames
  | .noFragmentCycles => .noFragmentCycles
  | .possibleFragmentSpreads => .possibleFragmentSpreads
  | .argumentsOfCorrectType => .argumentsOfCorrectType
  | .defaultValuesOfCorrectType => .defaultValuesOfCorrectType
  | .knownDirectives => .knownDirectives
  | .directivesInValidLocations => .directivesInValidLocations
  | .uniqueDirectivesPerLocation => .uniqueDirectivesPerLocation
  | .uniqueVariableNames => .uniqueVariableNames
  | .variablesAreInputTypes => .variablesAreInputTypes
  | .noUndefinedVariables => .noUndefinedVariables
  | .noUnusedVariables => .noUnusedVariables
  | .variablesInAllowedPosition => .variablesInAllowedPosition

end QueryAudit.Rule

/-!
## One pass

An audit walks a document once, with the checkers of all chosen rules side by side, and after them
the two that measure it.
-/

namespace QueryAudit

structure Report where
  diagnostics : List Diagnostic
  aliasCount : Nat
  depth : Nat

namespace Report

def isValid (report : Report) : Bool := report.diagnostics.isEmpty

end Report

namespace Document

/-- The one pass of an audit: what the checkers share in the end, and what rules report, event by
event; at one event, rule by rule. -/
def pass (schema : Schema) (rules : List Rule) (document : Document) (supplied : Variables) :
    Shared × List (List Diagnostic) :=
  let checkers := rules.map Rule.checker ++ [Checker.depthGauge, Checker.aliasGauge]
  Running.follow schema document supplied Shared.empty (checkers.map Checker.running)
    (document.tree.steps schema)

def diagnostics (schema : Schema) (rules : List Rule) (document : Document)
    (supplied : Variables) : List Diagnostic :=
  (document.pass schema rules supplied).2.flatten

/-- Check a document against a schema by a set of rules, with the values supplied for its
variables. -/
def audit (schema : Schema) (rules : RuleSet) (document : Document) (supplied : Variables) :
    Report :=
  let (shared, reports) := document.pass schema rules.rules supplied
  { diagnostics := reports.flatten
    aliasCount := (shared.measures.find? "aliasCount").getD 0
    depth := (shared.measures.find? "depth").getD 0 }

end Document

end QueryAudit
