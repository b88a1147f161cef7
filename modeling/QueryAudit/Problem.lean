import QueryAudit.Schema.Basic
import QueryAudit.Suggestion
import QueryAudit.Value.Check

/-!
# Problems

What can be wrong with a document. A problem is a cause with the names it is about; its code and its
wording are functions of it. A diagnostic puts a problem at positions.
-/

namespace QueryAudit

inductive Code where
  | operationNames
  | loneAnonymousOperation
  | singleRootField
  | fieldSelections
  | fieldMerging
  | leafSelections
  | argumentNames
  | argumentUniqueness
  | requiredArguments
  | fragmentNames
  | typeExistence
  | fragmentsOnComposites
  | fragmentsUsed
  | spreadTargets
  | fragmentCycles
  | possibleSpreads
  | valueTypes
  | inputFieldNames
  | requiredInputFields
  | directivesDefined
  | directiveLocations
  | directiveUniqueness
  | variableUniqueness
  | variableTypes
  | variablesDefined
  | variablesUsed
  | variableUsages
deriving DecidableEq, Repr

/-- Why two fields of one response key cannot be merged. -/
inductive MergeReason where
  | differentFields (first second : Name)
  | differingArguments
  | conflictingTypes (first second : TypeRef)
  /-- Fields below them cannot be merged, each under its response key. -/
  | subfields (conflicts : List (Name × MergeReason))

inductive FieldHint where
  /-- The object types that have the field. -/
  | onTypes (types : List Name)
  /-- Fields of a near name. -/
  | near (fields : List Name)
deriving DecidableEq, Repr

inductive ArgumentOwner where
  | field (name type : Name)
  | directive (name : Name)
deriving DecidableEq, Repr

inductive ArgumentTaker where
  | field (name : Name)
  | directive (name : Name)
deriving DecidableEq, Repr

inductive Problem where
  | duplicateOperation (name : Name)
  | anonymousNotAlone
  | severalRootFields (subscription : Option Name)
  | introspectionRootField (subscription : Option Name)
  | unknownField (name type : Name) (hint : FieldHint)
  | unmergeable (key : Name) (reason : MergeReason)
  | leafWithSelection (name : Name) (type : TypeRef)
  | compositeWithoutSelection (name : Name) (type : TypeRef)
  | unknownArgument (name : Name) (owner : ArgumentOwner) (near : List Name)
  | duplicateArgument (name : Name)
  | missingArgument (taker : ArgumentTaker) (name : Name) (type : TypeRef)
  | duplicateFragment (name : Name)
  | unknownType (name : Name) (near : List Name)
  | fragmentOnNonComposite (fragment : Option Name) (condition : Name)
  | unusedFragment (name : Name)
  | unknownFragment (name : Name) (near : List Name)
  | fragmentCycle (name : Name) (via : List Name)
  | impossibleSpread (fragment : Option Name) (parent type : Name)
  | badArgument (fault : ValueFault)
  | badDefault (fault : ValueFault)
  | unknownDirective (name : Name) (near : List Name)
  | misplacedDirective (name : Name) (location : DirectiveLocation)
  | duplicateDirective (name : Name)
  | duplicateVariable (name : Name)
  | nonInputVariable (name : Name) (type : TypeRef)
  | undefinedVariable (name : Name) (operation : Option Name)
  | unusedVariable (name : Name) (operation : Option Name)
  | variableMisfit (name : Name) (declared expected : TypeRef)

structure Diagnostic where
  problem : Problem
  positions : List Position

namespace Code

def text : Code → String
  | .operationNames => "R5211"
  | .loneAnonymousOperation => "R5221"
  | .singleRootField => "R5231"
  | .fieldSelections => "R531"
  | .fieldMerging => "R532"
  | .leafSelections => "R533"
  | .argumentNames => "R541"
  | .argumentUniqueness => "R542"
  | .requiredArguments => "R5421"
  | .fragmentNames => "R5511"
  | .typeExistence => "R5512"
  | .fragmentsOnComposites => "R5513"
  | .fragmentsUsed => "R5514"
  | .spreadTargets => "R5521"
  | .fragmentCycles => "R5522"
  | .possibleSpreads => "R5523"
  | .valueTypes => "R561"
  | .inputFieldNames => "R562"
  | .requiredInputFields => "R564"
  | .directivesDefined => "R571"
  | .directiveLocations => "R572"
  | .directiveUniqueness => "R573"
  | .variableUniqueness => "R581"
  | .variableTypes => "R582"
  | .variablesDefined => "R583"
  | .variablesUsed => "R584"
  | .variableUsages => "R585"

end Code

namespace ValueFlaw

def code : ValueFlaw → Code
  | .missingField _ _ => .requiredInputFields
  | .unknownField _ _ => .inputFieldNames
  | _ => .valueTypes

end ValueFlaw

def quoted (name : Name) : String := "\"" ++ name ++ "\""

mutual

/-- What is said about why two fields cannot be merged. -/
def MergeReason.message : MergeReason → String
  | .differentFields first second =>
      quoted first ++ " and " ++ quoted second ++ " are different fields"
  | .differingArguments => "they have differing arguments"
  | .conflictingTypes first second =>
      "they return conflicting types " ++ quoted first.text ++ " and " ++ quoted second.text
  | .subfields conflicts => " and ".intercalate (MergeReason.subfieldMessages conflicts)

/-- What is said about the fields below two fields that cannot be merged. -/
def MergeReason.subfieldMessages : List (Name × MergeReason) → List String
  | [] => []
  | (key, reason) :: rest =>
      ("subfields " ++ quoted key ++ " conflict because " ++ MergeReason.message reason) ::
        MergeReason.subfieldMessages rest

end

namespace FieldHint

/-- Types in quotes: commas between them, and `or` before the last. -/
def alternatives : List Name → String
  | [] => ""
  | [last] => quoted last
  | [first, last] => quoted first ++ " or " ++ quoted last
  | first :: rest => quoted first ++ ", " ++ alternatives rest

def question : FieldHint → String
  | .onTypes types => " Did you mean to use an inline fragment on " ++ alternatives types ++ "?"
  | .near fields => Suggestion.question fields

end FieldHint

namespace ArgumentOwner

def text : ArgumentOwner → String
  | .field name type => "field " ++ quoted name ++ " of type " ++ quoted type
  | .directive name => "directive " ++ quoted ("@" ++ name)

end ArgumentOwner

namespace ArgumentTaker

def text : ArgumentTaker → String
  | .field name => "Field " ++ quoted name
  | .directive name => "Directive " ++ quoted ("@" ++ name)

end ArgumentTaker

namespace Problem

def code : Problem → Code
  | .duplicateOperation _ => .operationNames
  | .anonymousNotAlone => .loneAnonymousOperation
  | .severalRootFields _ | .introspectionRootField _ => .singleRootField
  | .unknownField _ _ _ => .fieldSelections
  | .unmergeable _ _ => .fieldMerging
  | .leafWithSelection _ _ | .compositeWithoutSelection _ _ => .leafSelections
  | .unknownArgument _ _ _ => .argumentNames
  | .duplicateArgument _ => .argumentUniqueness
  | .missingArgument _ _ _ => .requiredArguments
  | .duplicateFragment _ => .fragmentNames
  | .unknownType _ _ => .typeExistence
  | .fragmentOnNonComposite _ _ => .fragmentsOnComposites
  | .unusedFragment _ => .fragmentsUsed
  | .unknownFragment _ _ => .spreadTargets
  | .fragmentCycle _ _ => .fragmentCycles
  | .impossibleSpread _ _ _ => .possibleSpreads
  | .badArgument fault | .badDefault fault => fault.flaw.code
  | .unknownDirective _ _ => .directivesDefined
  | .misplacedDirective _ _ => .directiveLocations
  | .duplicateDirective _ => .directiveUniqueness
  | .duplicateVariable _ => .variableUniqueness
  | .nonInputVariable _ _ => .variableTypes
  | .undefinedVariable _ _ => .variablesDefined
  | .unusedVariable _ _ => .variablesUsed
  | .variableMisfit _ _ _ => .variableUsages

def subscriptionText : Option Name → String
  | some name => "Subscription " ++ quoted name
  | none => "Anonymous Subscription"

def fragmentText : Option Name → String
  | some name => "Fragment " ++ quoted name
  | none => "Fragment"

def message : Problem → String
  | .duplicateOperation name => "There can be only one operation named " ++ quoted name ++ "."
  | .anonymousNotAlone => "This anonymous operation must be the only defined operation."
  | .severalRootFields subscription =>
      subscriptionText subscription ++ " must select only one top level field."
  | .introspectionRootField subscription =>
      subscriptionText subscription ++ " must not select an introspection top level field."
  | .unknownField name type hint =>
      "Unknown field " ++ quoted name ++ " on type " ++ quoted type ++ "." ++ hint.question
  | .unmergeable key reason =>
      "Fields " ++ quoted key ++ " conflict because " ++ reason.message ++
        ". Use different aliases on the fields to fetch both if this was intentional."
  | .leafWithSelection name type =>
      "Field " ++ quoted name ++ " must not have a selection since type " ++ quoted type.text ++
        " has no subfields."
  | .compositeWithoutSelection name type =>
      "Field " ++ quoted name ++ " of type " ++ quoted type.text ++
        " must have a selection of subfields. Did you mean \"" ++ name ++ " \x7b ... \x7d\"?"
  | .unknownArgument name owner near =>
      "Unknown argument " ++ quoted name ++ " on " ++ owner.text ++ "." ++ Suggestion.question near
  | .duplicateArgument name => "There can be only one argument named " ++ quoted name ++ "."
  | .missingArgument taker name type =>
      taker.text ++ " argument " ++ quoted name ++ " of type " ++ quoted type.text ++
        " is required, but it was not provided."
  | .duplicateFragment name => "There can be only one fragment named " ++ quoted name ++ "."
  | .unknownType name near => "Unknown type " ++ quoted name ++ "." ++ Suggestion.question near
  | .fragmentOnNonComposite fragment condition =>
      fragmentText fragment ++ " cannot condition on non composite type " ++ quoted condition ++ "."
  | .unusedFragment name => "Fragment " ++ quoted name ++ " is never used."
  | .unknownFragment name near =>
      "Unknown fragment " ++ quoted name ++ "." ++ Suggestion.question near
  | .fragmentCycle name via =>
      "Cannot spread fragment " ++ quoted name ++ " within itself" ++
        (if via.isEmpty then "" else " via " ++ ", ".intercalate (via.map quoted)) ++ "."
  | .impossibleSpread fragment parent type =>
      fragmentText fragment ++ " cannot be spread here as objects of type " ++ quoted parent ++
        " can never be of type " ++ quoted type ++ "."
  | .badArgument fault => "Invalid value for argument " ++ fault.message
  | .badDefault fault => "Invalid default value for variable " ++ fault.message
  | .unknownDirective name near =>
      "Unknown directive " ++ quoted ("@" ++ name) ++ "." ++ Suggestion.question near
  | .misplacedDirective name location =>
      "Directive " ++ quoted ("@" ++ name) ++ " may not be used on " ++ location.keyword ++ "."
  | .duplicateDirective name =>
      "The directive " ++ quoted ("@" ++ name) ++ " can only be used once at this location."
  | .duplicateVariable name =>
      "There can be only one variable named " ++ quoted ("$" ++ name) ++ "."
  | .nonInputVariable name type =>
      "Variable " ++ quoted ("$" ++ name) ++ " cannot be non-input type " ++ quoted type.text ++ "."
  | .undefinedVariable name operation =>
      "Variable " ++ quoted ("$" ++ name) ++ " is not defined" ++
        (match operation with
          | some operation => " by operation " ++ quoted operation
          | none => "") ++ "."
  | .unusedVariable name operation =>
      "Variable " ++ quoted ("$" ++ name) ++ " is never used" ++
        (match operation with
          | some operation => " in operation " ++ quoted operation
          | none => "") ++ "."
  | .variableMisfit name declared expected =>
      "Variable " ++ quoted ("$" ++ name) ++ " of type " ++ quoted declared.text ++
        " used in position expecting type " ++ quoted expected.text ++ "."

end Problem

namespace Diagnostic

/-- The line shown for a diagnostic: its first place, its code and its message. -/
def text (diagnostic : Diagnostic) : String :=
  let place := match diagnostic.positions with
    | position :: _ => s!"[{position.line}:{position.column}] "
    | [] => ""
  place ++ diagnostic.problem.code.text ++ ": " ++ diagnostic.problem.message

end Diagnostic

end QueryAudit
