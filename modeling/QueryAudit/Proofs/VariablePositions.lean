import QueryAudit.Proofs.Tracking
import QueryAudit.Proofs.VariableOccurrences

/-!
# Variables where they are used

The rule on the positions of variables judges the uses of an operation, which are found by walking
its definition and those of the fragments that it reaches by themselves. They are the uses that the
walk of the whole document shows there, one for each occurrence of a variable. Each use is judged by
itself, against the first declaration of its variable.
-/

namespace QueryAudit

/-! ## Uses along the walk of the document -/

def usesShown (walk : List (Way × Step)) (number : Nat) : List VariableUse :=
  (walk.filter fun entry => entry.1.head? = some number).filterMap fun entry =>
    VariableUse.ofStep? entry.2

namespace Document

def fragmentNumber? (document : Document) (name : Name) : Option Nat :=
  document.definitions.findIdx? fun definition =>
    definition.fragment?.any fun fragment => fragment.name = name

theorem exists_fragmentNumber? {document : Document} {name : Name} {fragment : Fragment}
    (h : document.fragment? name = some fragment) :
    ∃ number, document.fragmentNumber? name = some number ∧
      document.definitions[number]? = some (.fragment fragment) := by
  rw [fragment?, fragments, List.find?_filterMap, List.find?_eq_bind_findIdx?_getElem?] at h
  obtain ⟨definition, hfound, hfragment⟩ := Option.bind_eq_some_iff.mp h
  obtain ⟨number, hnumber, hdefinition⟩ := Option.bind_eq_some_iff.mp hfound
  refine ⟨number, hnumber, ?_⟩
  cases definition with
  | operation o => cases hfragment
  | fragment f =>
      cases hfragment
      exact hdefinition

def numbersReached (document : Document) (number : Nat) (operation : Operation) : List Nat :=
  number :: (document.reachable operation.selections).filterMap fun fragment =>
    document.fragmentNumber? fragment.name

theorem definitions_numbersReached {document : Document} {number : Nat} {operation : Operation}
    (hnumber : document.definitions[number]? = some (.operation operation)) :
    (document.numbersReached number operation).map (document.definitions[·]?) =
      (.operation operation :: (document.reachable operation.selections).map .fragment).map
        some := by
  rw [numbersReached, List.map_cons, List.map_cons, hnumber, List.map_filterMap, List.map_map,
    ← List.filterMap_eq_map]
  refine congrArg (_ :: ·) (List.filterMap_congr fun fragment hfragment => ?_)
  obtain ⟨place, hplace, hdefinition⟩ :=
    exists_fragmentNumber? (fragment?_of_mem_reachable hfragment)
  rw [hplace, Option.map_some, hdefinition]
  rfl

/-- The uses that are found for an operation are those that a walk of the document shows in it and
in the fragments that it reaches. -/
theorem IsWalk.usesShown_reached {schema : Schema} {document : Document}
    {walk : List (Way × Step)} (h : document.IsWalk schema walk) {number : Nat}
    {operation : Operation}
    (hnumber : document.definitions[number]? = some (.operation operation)) :
    (document.numbersReached number operation).flatMap (usesShown walk) =
      VariableUse.ofOperation schema document operation := by
  have hown : usesShown walk number = _ := h.uses_eq hnumber
  rw [numbersReached, List.flatMap_cons, hown, List.filterMap_eq_flatMap_toList, List.flatMap_assoc]
  refine congrArg (_ ++ ·) (List.flatMap_congr fun fragment hfragment => ?_)
  obtain ⟨place, hplace, hdefinition⟩ :=
    exists_fragmentNumber? (fragment?_of_mem_reachable hfragment)
  rw [hplace, Option.toList_some, List.flatMap_singleton]
  exact h.uses_eq hdefinition

end Document

/-! ## One use -/

theorem Checker.declaration?_eq_some_iff {operation : Operation} {name : Name}
    {declared : VariableDefinition} :
    Checker.declaration? operation name = some declared ↔
      declared.name = name ∧
        ∃ before after, operation.variableDefinitions = before ++ declared :: after ∧
          ∀ other ∈ before, other.name ≠ name := by
  rw [Checker.declaration?, List.find?_eq_some_iff_append]
  simp

theorem Schema.isInputType_iff {schema : Schema} {type : TypeRef} :
    schema.isInputType type = true ↔
      ∃ known, schema.type? type.concreteName = some known ∧
        (known.kind = .scalar ∨ known.kind = .enum ∨ known.kind = .inputObject) := by
  unfold Schema.isInputType Schema.concreteType?
  cases schema.type? type.concreteName with
  | none => simp
  | some known =>
      simp only [Option.some.injEq, exists_eq_left', TypeDefinition.isInput]
      cases known.kind <;> simp

namespace VariableUse

/-- A use does not fit the first declaration of its variable: that has a known input type, and a
variable of this type with this default is not allowed where another type is expected. -/
structure Misfits (schema : Schema) (operation : Operation) (use : VariableUse)
    (declared : VariableDefinition) (expected : TypeRef) : Prop where
  declares : declared.name = use.name
  first : ∃ before after, operation.variableDefinitions = before ++ declared :: after ∧
    ∀ other ∈ before, other.name ≠ use.name
  input : ∃ type, schema.type? declared.type.concreteName = some type ∧
    (type.kind = .scalar ∨ type.kind = .enum ∨ type.kind = .inputObject)
  expects : use.type = some expected
  refused : schema.allowsVariable declared.type (declared.default.map Default.value) expected
    use.default.isSome = false

/-- The declaration that a use does not fit, with the type expected there. -/
def misfit? (schema : Schema) (operation : Operation) (use : VariableUse) :
    Option (VariableDefinition × TypeRef) :=
  (Checker.declaration? operation use.name).bind fun declared =>
    use.type.bind fun expected =>
      if schema.isInputType declared.type &&
          !schema.allowsVariable declared.type (declared.default.map Default.value) expected
            use.default.isSome then
        some (declared, expected)
      else none

theorem misfit?_eq_some_iff {schema : Schema} {operation : Operation} {use : VariableUse}
    {declared : VariableDefinition} {expected : TypeRef} :
    use.misfit? schema operation = some (declared, expected) ↔
      use.Misfits schema operation declared expected := by
  constructor
  · intro h
    obtain ⟨found, hfound, h⟩ := Option.bind_eq_some_iff.mp h
    obtain ⟨type, htype, h⟩ := Option.bind_eq_some_iff.mp h
    obtain ⟨hjudged, hpair⟩ := Option.ite_none_right_eq_some.mp h
    cases hpair
    obtain ⟨hdeclares, hfirst⟩ := Checker.declaration?_eq_some_iff.mp hfound
    rw [Bool.and_eq_true, Bool.not_eq_true'] at hjudged
    exact ⟨hdeclares, hfirst, Schema.isInputType_iff.mp hjudged.1, htype, hjudged.2⟩
  · intro h
    have hfound := Checker.declaration?_eq_some_iff.mpr ⟨h.declares, h.first⟩
    have hinput := Schema.isInputType_iff.mpr h.input
    simp [misfit?, hfound, h.expects, hinput, h.refused]

def report (use : VariableUse) (misfit : VariableDefinition × TypeRef) : Diagnostic :=
  ⟨.variableMisfit use.name misfit.1.type misfit.2, [misfit.1.position, use.position]⟩

theorem variableMisfit_eq (schema : Schema) (operation : Operation) (use : VariableUse) :
    Checker.variableMisfit schema operation use =
      ((use.misfit? schema operation).map use.report).toList := by
  unfold Checker.variableMisfit misfit?
  cases Checker.declaration? operation use.name with
  | none => rfl
  | some declared =>
      cases use.type with
      | none => rfl
      | some expected =>
          simp only [Option.bind_some]
          split <;> rfl

end VariableUse

/-! ## The rule -/

theorem Document.reportsOf_variablesInAllowedPosition (schema : Schema) (document : Document)
    (supplied : Variables) :
    document.reportsOf schema .variablesInAllowedPosition supplied =
      document.operations.flatMap fun operation =>
        (VariableUse.ofOperation schema document operation).filterMap fun use =>
          (use.misfit? schema operation).map use.report := by
  refine Checker.reports_atOperations ?_ ?_ Rule.variablesInAllowedPosition.checker.start
  · intro types state operation
    refine Prod.ext rfl ?_
    show (VariableUse.ofOperation schema document operation).flatMap
      (Checker.variableMisfit schema operation) = _
    rw [List.filterMap_eq_flatMap_toList]
    exact congrArg (List.flatMap · _) (funext fun use => use.variableMisfit_eq schema operation)
  · intro types state event hevent
    refine Prod.ext rfl ?_
    cases event with
    | enter node => rfl
    | leave node =>
        cases node <;> first | rfl | exact absurd rfl (hevent _)

/-- Whatever the other rules of an audit are, the rule on the positions of variables judges, for each
operation, the uses that the walk of the document shows in it and in the fragments that it reaches:
one for each occurrence of a variable, in order, with what is tracked there. It reports those that
do not fit, at the first declaration of the variable and at the use. -/
theorem every_use_judged (schema : Schema) (document : Document) (supplied : Variables)
    (set : RuleSet) :
    ∃ walk, walk.map Prod.snd = document.tree.steps schema ∧ document.IsWalk schema walk ∧
      (document.audit schema set supplied).diagnostics.filter
          (·.problem.code = .variableUsages) =
        (if Rule.variablesInAllowedPosition ∈ set.rules then
          document.numberedOperations.flatMap fun (number, operation) =>
            ((document.numbersReached number operation).flatMap (usesShown walk)).filterMap
              fun use => (use.misfit? schema operation).map fun (declared, expected) =>
                ⟨.variableMisfit use.name declared.type expected,
                  [declared.position, use.position]⟩
          else []) ∧
      (∀ operation (use : VariableUse) declared expected,
        use.misfit? schema operation = some (declared, expected) ↔
          use.Misfits schema operation declared expected) ∧
      ∀ number operation, document.definitions[number]? = some (.operation operation) →
        (document.numbersReached number operation).map (document.definitions[·]?) =
          (.operation operation :: (document.reachable operation.selections).map .fragment).map
            some ∧
        ((document.numbersReached number operation).flatMap (usesShown walk)).map
            VariableUse.occurrence = document.occurrences operation ∧
        ((document.reachable operation.selections).map Fragment.name).Nodup ∧
        ∀ fragment, fragment ∈ document.reachable operation.selections ↔
          document.Reaches operation.selections fragment := by
  obtain ⟨walk, hwalk, hsteps⟩ := document.exists_isWalk schema
  have hfilter := document.filter_diagnostics schema set supplied
    (rfl : Rule.variablesInAllowedPosition.codes = [Rule.variablesInAllowedPosition.code])
  have huses : document.reportsOf schema .variablesInAllowedPosition supplied =
      document.numberedOperations.flatMap fun numbered =>
        ((document.numbersReached numbered.1 numbered.2).flatMap (usesShown walk)).filterMap
          fun use => (use.misfit? schema numbered.2).map use.report := by
    rw [document.reportsOf_variablesInAllowedPosition, ← document.numberedOperations_map_snd,
      List.flatMap_map]
    refine List.flatMap_congr fun numbered hnumbered => ?_
    have hnumber := Document.definitions_of_mem_numberedOperations hnumbered
    rw [hwalk.usesShown_reached hnumber]
  rw [huses] at hfilter
  refine ⟨walk, hsteps, hwalk, hfilter, fun _ _ _ _ => VariableUse.misfit?_eq_some_iff, ?_⟩
  intro number operation hnumber
  rw [hwalk.usesShown_reached hnumber]
  exact ⟨Document.definitions_numbersReached hnumber,
    VariableUse.ofOperation_occurrences schema document operation,
    document.nodup_reachable operation.selections,
    document.mem_reachable_iff operation.selections⟩

end QueryAudit
