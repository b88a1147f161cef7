import QueryAudit.Proofs.Arguments

/-!
# Which reports a directive gets

A directive stands in the list of its owner: an operation, a variable definition, a fragment, a
field, a spread or an inline fragment. The rule on locations keeps a stack of the locations that the
walk is inside of. It is the same again after each piece, so that at a directive its top is the
location of the owner, whatever was walked in between. Inside a directive that the schema does not
know, the rules on arguments find no definition and are silent.
-/

namespace QueryAudit

/-! ## Directives as parts -/

namespace Piece

end Piece

/-! ## Where a walk is -/

namespace Walks

end Walks

namespace Checker

variable {schema : Schema} {document : Document} {supplied : Variables}

end Checker

/-! ## Reports -/

namespace Document

variable {schema : Schema} {document : Document} {supplied : Variables}

variable {index : Nat} {step : Step}

/-- A step is at a directive that is not known, at an argument of it for which nothing is tracked,
or at a value. -/
structure Unknowing (schema : Schema) (step : Step) : Prop where
  part : step.event.node.isPart = true
  directive : ∀ directive, step.event.node = .directive directive →
    schema.directive? directive.name = none
  argument : ∀ argument, step.event = .enter (.argument argument) →
    Checker.argumentOwner? step.types = none ∧ step.types.argument = none

theorem Unknowing.declared? (h : Unknowing schema step) :
    step.event.node.declared? schema step.types = none := by
  have hpart := h.part
  cases hnode : step.event.node with
  | directive directive => rw [Node.declared?, h.directive directive hnode, Option.map_none]
  | field chosen inner =>
      rw [hnode] at hpart
      cases hpart
  | _ => rfl

end Document

end QueryAudit
