import QueryAudit.Problem

/-!
# Rules and sets of rules

The rules that documents are checked against, in the order in which they report. A set of rules
keeps the order in which its members were put in; whether two sets are the same does not depend on
that order.
-/

namespace QueryAudit

inductive Rule where
  | uniqueOperationNames
  | loneAnonymousOperation
  | singleFieldSubscriptions
  | fieldsOnCorrectType
  | overlappingFieldsCanBeMerged
  | scalarLeafs
  | knownArgumentNames
  | uniqueArgumentNames
  | providedNonNullArguments
  | uniqueFragmentNames
  | knownTypeNames
  | fragmentsOnCompositeTypes
  | noUnusedFragments
  | knownFragmentNames
  | noFragmentCycles
  | possibleFragmentSpreads
  | argumentsOfCorrectType
  | defaultValuesOfCorrectType
  | knownDirectives
  | directivesInValidLocations
  | uniqueDirectivesPerLocation
  | uniqueVariableNames
  | variablesAreInputTypes
  | noUndefinedVariables
  | noUnusedVariables
  | variablesInAllowedPosition
deriving DecidableEq, Repr

namespace Rule

def all : List Rule :=
  [.uniqueOperationNames, .loneAnonymousOperation, .singleFieldSubscriptions,
    .fieldsOnCorrectType, .overlappingFieldsCanBeMerged, .scalarLeafs, .knownArgumentNames,
    .uniqueArgumentNames, .providedNonNullArguments, .uniqueFragmentNames, .knownTypeNames,
    .fragmentsOnCompositeTypes, .noUnusedFragments, .knownFragmentNames, .noFragmentCycles,
    .possibleFragmentSpreads, .argumentsOfCorrectType, .defaultValuesOfCorrectType,
    .knownDirectives, .directivesInValidLocations, .uniqueDirectivesPerLocation,
    .uniqueVariableNames, .variablesAreInputTypes, .noUndefinedVariables, .noUnusedVariables,
    .variablesInAllowedPosition]

def name : Rule → String
  | .uniqueOperationNames => "unique-operation-names"
  | .loneAnonymousOperation => "lone-anonymous-operation"
  | .singleFieldSubscriptions => "single-field-subscriptions"
  | .fieldsOnCorrectType => "fields-on-correct-type"
  | .overlappingFieldsCanBeMerged => "overlapping-fields-can-be-merged"
  | .scalarLeafs => "scalar-leafs"
  | .knownArgumentNames => "known-argument-names"
  | .uniqueArgumentNames => "unique-argument-names"
  | .providedNonNullArguments => "provided-non-null-arguments"
  | .uniqueFragmentNames => "unique-fragment-names"
  | .knownTypeNames => "known-type-names"
  | .fragmentsOnCompositeTypes => "fragments-on-composite-types"
  | .noUnusedFragments => "no-unused-fragments"
  | .knownFragmentNames => "known-fragment-names"
  | .noFragmentCycles => "no-fragment-cycles"
  | .possibleFragmentSpreads => "possible-fragment-spreads"
  | .argumentsOfCorrectType => "arguments-of-correct-type"
  | .defaultValuesOfCorrectType => "default-values-of-correct-type"
  | .knownDirectives => "known-directives"
  | .directivesInValidLocations => "directives-in-valid-locations"
  | .uniqueDirectivesPerLocation => "unique-directives-per-location"
  | .uniqueVariableNames => "unique-variable-names"
  | .variablesAreInputTypes => "variables-are-input-types"
  | .noUndefinedVariables => "no-undefined-variables"
  | .noUnusedVariables => "no-unused-variables"
  | .variablesInAllowedPosition => "variables-in-allowed-position"

def code : Rule → Code
  | .uniqueOperationNames => .operationNames
  | .loneAnonymousOperation => .loneAnonymousOperation
  | .singleFieldSubscriptions => .singleRootField
  | .fieldsOnCorrectType => .fieldSelections
  | .overlappingFieldsCanBeMerged => .fieldMerging
  | .scalarLeafs => .leafSelections
  | .knownArgumentNames => .argumentNames
  | .uniqueArgumentNames => .argumentUniqueness
  | .providedNonNullArguments => .requiredArguments
  | .uniqueFragmentNames => .fragmentNames
  | .knownTypeNames => .typeExistence
  | .fragmentsOnCompositeTypes => .fragmentsOnComposites
  | .noUnusedFragments => .fragmentsUsed
  | .knownFragmentNames => .spreadTargets
  | .noFragmentCycles => .fragmentCycles
  | .possibleFragmentSpreads => .possibleSpreads
  | .argumentsOfCorrectType | .defaultValuesOfCorrectType => .valueTypes
  | .knownDirectives => .directivesDefined
  | .directivesInValidLocations => .directiveLocations
  | .uniqueDirectivesPerLocation => .directiveUniqueness
  | .uniqueVariableNames => .variableUniqueness
  | .variablesAreInputTypes => .variableTypes
  | .noUndefinedVariables => .variablesDefined
  | .noUnusedVariables => .variablesUsed
  | .variablesInAllowedPosition => .variableUsages

def ofName? (name : String) : Option Rule := all.find? fun rule => rule.name = name

theorem mem_all (rule : Rule) : rule ∈ all := by cases rule <;> decide

theorem nodup_all : all.Nodup := by decide

end Rule

/-- A set of rules, in the order in which they were put in. -/
structure RuleSet where
  rules : List Rule
  nodup : rules.Nodup

namespace RuleSet

def empty : RuleSet := ⟨[], List.nodup_nil⟩

def all : RuleSet := ⟨Rule.all, Rule.nodup_all⟩

def contains (set : RuleSet) (rule : Rule) : Bool := set.rules.contains rule

def size (set : RuleSet) : Nat := set.rules.length

def insert (set : RuleSet) (rule : Rule) : RuleSet :=
  if h : rule ∈ set.rules then set
  else
    ⟨set.rules ++ [rule], by
      rw [List.nodup_append]
      refine ⟨set.nodup, by simp, ?_⟩
      intro a ha b hb heq
      simp only [List.mem_singleton] at hb
      subst hb heq
      exact h ha⟩

def erase (set : RuleSet) (rule : Rule) : RuleSet :=
  ⟨set.rules.filter fun other => other ≠ rule, set.nodup.filter _⟩

/-- The rules of a list, each in the place where it comes first. -/
def ofList (rules : List Rule) : RuleSet := rules.foldl insert empty

/-- Whether two sets have the same rules, in any order. -/
def same (a b : RuleSet) : Bool := a.rules.all b.contains && b.rules.all a.contains

end RuleSet

end QueryAudit
