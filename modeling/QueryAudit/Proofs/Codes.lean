import QueryAudit.Proofs.Independence

/-!
# Which rule reports what

Every rule reports under codes of its own; only the two rules on values share theirs. So the
diagnostics of an audit that have the code of a rule are what that rule reports by itself, in its
own order.
-/

namespace QueryAudit

def Rule.codes : Rule → List Code
  | .argumentsOfCorrectType | .defaultValuesOfCorrectType =>
      [.valueTypes, .inputFieldNames, .requiredInputFields]
  | rule => [rule.code]

/-- All of some diagnostics have one of some codes. -/
def Within (codes : List Code) (diagnostics : List Diagnostic) : Prop :=
  ∀ diagnostic ∈ diagnostics, diagnostic.problem.code ∈ codes

@[simp] theorem within_nil (codes : List Code) : Within codes [] := by simp [Within]

@[simp] theorem within_singleton (codes : List Code) (diagnostic : Diagnostic) :
    Within codes [diagnostic] ↔ diagnostic.problem.code ∈ codes := by
  simp [Within]

@[simp] theorem within_append (codes : List Code) (first second : List Diagnostic) :
    Within codes (first ++ second) ↔ Within codes first ∧ Within codes second := by
  simp only [Within, List.mem_append, or_imp, forall_and]

theorem within_map {α : Type} {codes : List Code} {diagnostic : α → Diagnostic}
    (h : ∀ item, (diagnostic item).problem.code ∈ codes) (items : List α) :
    Within codes (items.map diagnostic) := by
  simpa [Within] using fun item _ => h item

@[simp] theorem Problem.problem_at (problem : Problem) (position : Position) :
    (problem.at position).problem = problem := rfl

theorem FirstPlaces.note_within {codes : List Code} {problem : Problem}
    (h : problem.code ∈ codes) (places : FirstPlaces) (name : Name) (position : Position) :
    Within codes (places.note name position problem).2 := by
  unfold FirstPlaces.note
  split <;> simp [h]

theorem ValueFlaw.code_mem (flaw : ValueFlaw) :
    flaw.code ∈ [Code.valueTypes, .inputFieldNames, .requiredInputFields] := by
  cases flaw <;> simp [ValueFlaw.code]

/-! ## The searches that report -/

namespace Cycle

theorem followSpreads_within {document : Document}
    {visit : Search → Fragment → Search × List Diagnostic}
    (hvisit : ∀ search fragment, Within [.fragmentCycles] (visit search fragment).2)
    (search : Search) (spreads : List Spread) :
    Within [.fragmentCycles] (followSpreads document visit search spreads).2 := by
  induction spreads generalizing search with
  | nil => exact within_nil _
  | cons spread rest ih =>
      have hfirst : Within [.fragmentCycles] (followSpread document visit search spread).2 := by
        unfold followSpread
        split
        · simp [diagnostic, Problem.code]
        · split
          · exact hvisit _ _
          · exact within_nil _
      exact (within_append _ _ _).mpr ⟨hfirst, ih _⟩

theorem searchFragment_within (document : Document) (depth : Nat) (search : Search)
    (fragment : Fragment) :
    Within [.fragmentCycles] (searchFragment document depth search fragment).2 := by
  induction depth generalizing search fragment with
  | zero => exact within_nil _
  | succ depth ih =>
      unfold searchFragment
      split
      · exact within_nil _
      · split
        · exact within_nil _
        · exact followSpreads_within ih _ _

end Cycle

namespace Checker

theorem repeatedDirectives_within (places : FirstPlaces) (directives : List Directive) :
    Within [.directiveUniqueness] (repeatedDirectives places directives) := by
  induction directives generalizing places with
  | nil => exact within_nil _
  | cons directive rest ih =>
      have hcode : (Problem.duplicateDirective directive.name).code ∈
          [Code.directiveUniqueness] := by simp [Problem.code]
      have hfirst := FirstPlaces.note_within hcode places directive.name directive.position
      exact (within_append _ _ _).mpr ⟨hfirst, ih _⟩

theorem rootFieldDiagnostics_within (name : Option Name) (fields : List Field) :
    Within [.singleRootField] (rootFieldDiagnostics name fields) := by
  refine (within_append _ _ _).mpr ⟨?_, within_map (by simp [Problem.code]) _⟩
  split <;> simp [Problem.code]

theorem impossibleSpread_within (fragment : Option Name) (type parent : Option TypeDefinition)
    (position : Position) :
    Within [.possibleSpreads] (impossibleSpread fragment type parent position) := by
  unfold impossibleSpread
  repeat' split
  all_goals simp [Problem.code]

theorem variableMisfit_within (schema : Schema) (operation : Operation) (uses : List VariableUse) :
    Within [.variableUsages] (uses.flatMap (variableMisfit schema operation)) := by
  intro diagnostic hmem
  obtain ⟨use, -, huse⟩ := List.mem_flatMap.mp hmem
  have hone : Within [.variableUsages] (variableMisfit schema operation use) := by
    unfold variableMisfit
    split
    · dsimp only
      split <;> simp [Problem.code]
    · exact within_nil _
  exact hone diagnostic huse

/-! ## Checkers keep to their codes -/

/-- Whatever a checker reports has one of some codes. -/
def Speaks (codes : List Code) (checker : Checker) : Prop :=
  ∀ scene state event, Within codes (checker.step scene state event).2

theorem speaks_asking {codes : List Code} {inquiry : Scene → Event → Inquiry (List Diagnostic)}
    (h : ∀ scene event,
      Within codes ((inquiry scene event).answer scene.schema scene.document)) :
    (asking inquiry).Speaks codes := by
  intro scene state event
  have hstep : ((asking inquiry).step scene state event).2 =
      (inquiry scene event).answer scene.schema scene.document :=
    congrArg Prod.snd (Inquiry.answer_map scene.schema scene.document _ _)
  rw [hstep]
  exact h scene event

theorem speaks_stateless {codes : List Code} {report : Scene → Event → List Diagnostic}
    (h : ∀ scene event, Within codes (report scene event)) : (stateless report).Speaks codes :=
  speaks_asking h

theorem speaks_ofStep {codes : List Code} {State : Type} {start : State}
    {act : Scene → State → Event → State × List Diagnostic}
    (h : ∀ scene state event, Within codes (act scene state event).2) :
    (ofStep State start act).Speaks codes :=
  h

theorem Speaks.reports {codes : List Code} {checker : Checker} (h : checker.Speaks codes)
    (schema : Schema) (document : Document) (supplied : Variables) (state : checker.State)
    (steps : List Step) : Within codes (checker.reports schema document supplied state steps) := by
  induction steps generalizing state with
  | nil => exact within_nil _
  | cons step rest ih => exact (within_append _ _ _).mpr ⟨h _ _ _, ih _⟩

end Checker

/-! ## Rules keep to their codes -/

open Checker in
theorem Rule.speaks (rule : Rule) : rule.checker.Speaks rule.codes := by
  cases rule with
  | loneAnonymousOperation | fieldsOnCorrectType | scalarLeafs | knownArgumentNames
  | providedNonNullArguments | knownFragmentNames | knownDirectives | variablesAreInputTypes =>
      refine speaks_stateless fun scene event => ?_
      repeat' split
      all_goals simp [codes, code, Problem.code]
  | uniqueOperationNames | uniqueArgumentNames | uniqueFragmentNames | uniqueVariableNames =>
      refine speaks_ofStep fun scene places event => ?_
      unfold FirstPlaces.note
      repeat' split
      all_goals simp [codes, code, Problem.code]
  | knownTypeNames =>
      refine speaks_stateless fun scene event => ?_
      unfold unknownTypeAt
      repeat' split
      all_goals simp [codes, code, Problem.code]
  | fragmentsOnCompositeTypes =>
      refine speaks_stateless fun scene event => ?_
      unfold nonCompositeCondition
      repeat' split
      all_goals simp [codes, code, Problem.code]
  | possibleFragmentSpreads =>
      refine speaks_stateless fun scene event => ?_
      split
      · exact impossibleSpread_within _ _ _ _
      · split
        · exact impossibleSpread_within _ _ _ _
        · exact within_nil _
      · exact within_nil _
  | argumentsOfCorrectType | defaultValuesOfCorrectType =>
      refine speaks_stateless fun scene event => ?_
      repeat' split
      all_goals simp only [within_nil, within_singleton, Problem.problem_at]
      exact ValueFlaw.code_mem _
  | singleFieldSubscriptions =>
      refine speaks_stateless fun scene event => ?_
      split
      · split
        · exact rootFieldDiagnostics_within _ _
        · exact within_nil _
      · exact within_nil _
  | uniqueDirectivesPerLocation =>
      refine speaks_stateless fun scene event => ?_
      split
      · exact repeatedDirectives_within _ _
      · exact within_nil _
  | overlappingFieldsCanBeMerged =>
      refine speaks_ofStep fun scene ledger event => ?_
      split
      · split
        · refine within_map (fun conflict => ?_) _
          simp [codes, code, Merge.Conflict.diagnostic, Problem.code]
        · exact within_nil _
      · exact within_nil _
  | noFragmentCycles =>
      refine speaks_ofStep fun scene search event => ?_
      split
      · exact Cycle.searchFragment_within _ _ _ _
      · exact within_nil _
  | directivesInValidLocations =>
      refine speaks_ofStep fun scene locations event => ?_
      unfold misplacedDirective
      repeat' split
      all_goals simp [codes, code, Problem.code]
  | noUnusedFragments =>
      refine speaks_asking fun scene event => ?_
      split
      · rw [Inquiry.answer_map]
        exact within_map (by simp [codes, code, Problem.code]) _
      · exact within_nil _
  | noUndefinedVariables =>
      refine speaks_asking fun scene event => ?_
      split
      · exact within_map (by simp [codes, code, Problem.code]) _
      · exact within_nil _
  | noUnusedVariables =>
      refine speaks_asking fun scene event => ?_
      split
      · exact within_map (by simp [codes, code, Problem.code]) _
      · exact within_nil _
  | variablesInAllowedPosition =>
      refine speaks_asking fun scene event => ?_
      split
      · exact variableMisfit_within _ _ _
      · exact within_nil _

/-- No other rule has the code of a rule that has one code only. -/
theorem Rule.eq_of_code_mem {rule other : Rule} (hrule : rule.codes = [rule.code])
    (h : rule.code ∈ other.codes) : other = rule := by
  have hall : ∀ rule ∈ Rule.all, ∀ other ∈ Rule.all, rule.codes = [rule.code] →
      rule.code ∈ other.codes → other = rule := by decide
  exact hall rule rule.mem_all other other.mem_all hrule h

namespace Document

theorem reportsAt_within (schema : Schema) (rule : Rule) (document : Document)
    (supplied : Variables) (index : Nat) :
    Within rule.codes (document.reportsAt schema (.only rule) supplied index) := by
  rw [reportsAt_only, List.getD_eq_getElem?_getD]
  cases hget : (document.reportsEachOf schema rule supplied)[index]? with
  | none => exact within_nil _
  | some reports =>
      intro diagnostic hmem
      have hall := rule.speaks.reports schema document supplied rule.checker.start
        (document.tree.steps schema)
      rw [← Checker.flatten_reportsEach] at hall
      exact hall diagnostic (List.mem_flatten.mpr ⟨reports, List.mem_of_getElem? hget, hmem⟩)

/-- What an audit reports at an event, with only what one rule reports there kept. -/
theorem filter_reportsAt_of_rule {schema : Schema} (set : RuleSet) {document : Document}
    {supplied : Variables} {rule : Rule} {index : Nat} {keep : Diagnostic → Bool}
    (hrule : ∀ diagnostic ∈ document.reportsAt schema (.only rule) supplied index,
      keep diagnostic = true)
    (hothers : ∀ other, other ≠ rule →
      ∀ diagnostic ∈ document.reportsAt schema (.only other) supplied index,
        keep diagnostic = false) :
    (document.reportsAt schema set supplied index).filter keep =
      if rule ∈ set.rules then document.reportsAt schema (.only rule) supplied index else [] := by
  have hone : ∀ other : Rule,
      (document.reportsAt schema (.only other) supplied index).filter keep =
        if other = rule then document.reportsAt schema (.only rule) supplied index else [] := by
    intro other
    by_cases hother : other = rule
    · subst hother
      rw [if_pos rfl, List.filter_eq_self]
      exact hrule
    · rw [if_neg hother, List.filter_eq_nil_iff]
      intro diagnostic hmem hkeep
      rw [hothers other hother diagnostic hmem] at hkeep
      cases hkeep
  have hnodup := set.nodup
  rw [reportsAt_eq, List.filter_flatMap]
  simp only [hone]
  generalize set.rules = rules at hnodup ⊢
  induction rules with
  | nil => rfl
  | cons first rest ih =>
      obtain ⟨hfirst, hrest⟩ := List.nodup_cons.mp hnodup
      rw [List.flatMap_cons, ih hrest]
      by_cases heq : first = rule
      · subst heq
        simp [hfirst]
      · simp [heq, Ne.symm heq]

theorem filter_reportsAt (schema : Schema) (set : RuleSet) (document : Document)
    (supplied : Variables) {rule : Rule} (hrule : rule.codes = [rule.code]) (index : Nat) :
    (document.reportsAt schema set supplied index).filter (·.problem.code = rule.code) =
      if rule ∈ set.rules then document.reportsAt schema (.only rule) supplied index else [] := by
  apply filter_reportsAt_of_rule
  · intro diagnostic hmem
    have hcode := document.reportsAt_within schema rule supplied index diagnostic hmem
    rw [hrule, List.mem_singleton] at hcode
    exact decide_eq_true hcode
  · intro other hother diagnostic hmem
    have hcode := document.reportsAt_within schema other supplied index diagnostic hmem
    refine decide_eq_false fun heq => hother (Rule.eq_of_code_mem hrule ?_)
    rwa [heq] at hcode

/-- The diagnostics of an audit under the code of a rule are what the rule reports. -/
theorem filter_diagnostics (schema : Schema) (set : RuleSet) (document : Document)
    (supplied : Variables) {rule : Rule} (hrule : rule.codes = [rule.code]) :
    (document.audit schema set supplied).diagnostics.filter (·.problem.code = rule.code) =
      if rule ∈ set.rules then document.reportsOf schema rule supplied else [] := by
  rw [diagnostics_eq_flatMap, List.filter_flatMap]
  simp only [document.filter_reportsAt schema set supplied hrule]
  by_cases hmem : rule ∈ set.rules
  · simp only [if_pos hmem]
    rw [← diagnostics_eq_flatMap]
    exact document.diagnostics_singleton schema rule supplied
  · simp [hmem]

theorem mem_reportsOf_of_code {schema : Schema} {set : RuleSet} {document : Document}
    {supplied : Variables} {rule : Rule} (hrule : rule.codes = [rule.code])
    {diagnostic : Diagnostic} (hmem : diagnostic ∈ (document.audit schema set supplied).diagnostics)
    (hcode : diagnostic.problem.code = rule.code) :
    diagnostic ∈ document.reportsOf schema rule supplied := by
  have hfilter : diagnostic ∈ (document.audit schema set supplied).diagnostics.filter
      (·.problem.code = rule.code) := List.mem_filter.mpr ⟨hmem, decide_eq_true hcode⟩
  rw [filter_diagnostics schema set document supplied hrule] at hfilter
  split at hfilter
  · exact hfilter
  · cases hfilter

end Document

end QueryAudit
