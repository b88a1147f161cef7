import Mathlib.Data.List.Flatten
import QueryAudit.Proofs.Measures

/-!
# Rules are independent

The checkers of an audit take each event of one walk in turn and share the answers to what they ask.
Still no rule makes a difference to another: what an audit reports at an event is what each of its
rules reports there on its own.
-/

namespace QueryAudit

def RuleSet.only (rule : Rule) : RuleSet := ⟨[rule], by simp⟩

namespace Document

def reportsAt (schema : Schema) (set : RuleSet) (document : Document) (supplied : Variables)
    (index : Nat) : List Diagnostic :=
  (document.pass schema set.rules supplied).2.getD index []

def eventCount (document : Document) : Nat := document.tree.events.length

theorem length_steps (schema : Schema) (document : Document) :
    (document.tree.steps schema).length = document.eventCount := by
  have hevents := congrArg List.length (map_event_steps schema Tracker.empty document.tree.events)
  rwa [List.length_map] at hevents

theorem reportsAt_only (schema : Schema) (rule : Rule) (document : Document)
    (supplied : Variables) (index : Nat) :
    document.reportsAt schema (.only rule) supplied index =
      (document.reportsEachOf schema rule supplied).getD index [] := by
  unfold reportsAt RuleSet.only
  rw [reports_pass_singleton]

theorem reportsAt_stateless {rule : Rule} {report : Scene → Event → List Diagnostic}
    (hrule : rule.checker = Checker.stateless report) (schema : Schema) (document : Document)
    (supplied : Variables) (index : Nat) :
    document.reportsAt schema (.only rule) supplied index =
      ((document.tree.steps schema)[index]?.map fun step =>
        report ⟨schema, document, supplied, step.types⟩ step.event).getD [] := by
  rw [reportsAt_only, reportsEachOf, hrule, List.getD_eq_getElem?_getD,
    ← List.getElem?_map]
  exact congrArg (fun reports => Option.getD reports[index]? [])
    (Checker.reportsEach_stateless report schema document supplied (document.tree.steps schema))

theorem reportsAt_eq (schema : Schema) (set : RuleSet) (document : Document)
    (supplied : Variables) (index : Nat) :
    document.reportsAt schema set supplied index =
      set.rules.flatMap fun rule => document.reportsAt schema (.only rule) supplied index := by
  simp only [reportsAt_only]
  unfold reportsAt
  rw [reports_pass]
  by_cases hindex : index < (document.tree.steps schema).length
  · simp [hindex]
  · have hnone : ∀ rule, (document.reportsEachOf schema rule supplied)[index]? = none := by
      intro rule
      rw [List.getElem?_eq_none_iff, length_reportsEachOf]
      omega
    simp [hindex, hnone]

theorem diagnostics_eq_flatMap (schema : Schema) (set : RuleSet) (document : Document)
    (supplied : Variables) :
    (document.audit schema set supplied).diagnostics =
      (List.range document.eventCount).flatMap (document.reportsAt schema set supplied) := by
  have hlength : (document.pass schema set.rules supplied).2.length = document.eventCount := by
    rw [reports_pass, List.length_map, List.length_range, length_steps]
  have hreports : (document.pass schema set.rules supplied).2 =
      (List.range document.eventCount).map (document.reportsAt schema set supplied) := by
    apply List.ext_getElem?
    intro index
    by_cases hindex : index < document.eventCount
    · simp [reportsAt, hlength, hindex]
    · simp [hlength, hindex]
  show (document.pass schema set.rules supplied).2.flatten = _
  rw [hreports, List.flatMap_def]

theorem sublist_diagnostics (schema : Schema) {set : RuleSet} {rule : Rule}
    (hrule : rule ∈ set.rules) (document : Document) (supplied : Variables) :
    (document.audit schema (.only rule) supplied).diagnostics.Sublist
      (document.audit schema set supplied).diagnostics := by
  rw [diagnostics_eq_flatMap, diagnostics_eq_flatMap]
  apply List.Sublist.flatMap_right
  intro index _
  rw [reportsAt_eq schema set]
  exact List.sublist_flatten_of_mem (List.mem_map_of_mem hrule)

end Document

/-- Take any set of rules, in any order. An audit reports event by event; at each event it reports
what each of its rules reports there when it is the only one, in the order of the rules. So the
diagnostics of each rule stand among those of the audit in their own order, and nothing else stands
there. The measures are those of the document, whatever the rules are. -/
theorem rules_independent (schema : Schema) (document : Document) (supplied : Variables)
    (set : RuleSet) :
    (∀ other : RuleSet, (document.audit schema other supplied).diagnostics =
        (List.range document.eventCount).flatMap (document.reportsAt schema other supplied)) ∧
      (∀ index, document.reportsAt schema set supplied index =
        set.rules.flatMap fun rule => document.reportsAt schema (.only rule) supplied index) ∧
      (∀ rule ∈ set.rules, (document.audit schema (.only rule) supplied).diagnostics.Sublist
        (document.audit schema set supplied).diagnostics) ∧
      (document.audit schema set supplied).diagnostics.Perm
        (set.rules.flatMap fun rule =>
          (document.audit schema (.only rule) supplied).diagnostics) ∧
      (document.audit schema set supplied).depth = document.depth ∧
      (document.audit schema set supplied).aliasCount = document.aliasCount := by
  refine ⟨fun other => document.diagnostics_eq_flatMap schema other supplied,
    document.reportsAt_eq schema set supplied,
    fun rule hrule => document.sublist_diagnostics schema hrule supplied, ?_,
    document.audit_depth schema set supplied, document.audit_aliasCount schema set supplied⟩
  have hperm := document.diagnostics_perm schema set.rules supplied
  simp only [← Document.diagnostics_singleton] at hperm
  exact hperm

end QueryAudit
