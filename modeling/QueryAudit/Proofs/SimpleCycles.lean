import QueryAudit.Proofs.Codes
import QueryAudit.Proofs.FragmentCycles
import QueryAudit.Proofs.Schemas

/-!
# Reported cycles are simple cycles

The spreads behind a reported cycle lead from a fragment back to it, each in the first definition of
the fragment that the one before leads to, through different fragments. The search comes back from
every spread that it takes, so between two fragments of the walk it has no path.
-/

namespace QueryAudit.Cycle

/-- Spreads that lead from a fragment back to it, through different fragments. -/
structure SimpleCycle (document : Document) (name : Name) (cycle : List Spread) : Prop where
  first : ∃ spread, cycle.head? = some spread ∧ spread ∈ spreadsIn document name
  next : cycle.IsChain fun spread after => after ∈ spreadsIn document spread.name
  last : ∃ spread, cycle.getLast? = some spread ∧ spread.name = name
  distinct : (cycle.map Spread.name).Nodup

/-- Every leg but the first starts where the one before leads to. -/
theorem Trail.targets_eq {document : Document} {trail : List Leg} {source target : Name}
    (h : Trail document trail source target) :
    source :: trail.map (fun leg => leg.spread.name) = trailNames trail ++ [target] := by
  induction h with
  | nil name => rfl
  | cons own _ ih =>
      simp only [List.map_cons, trailNames, List.cons_append]
      rw [ih]
      rfl

theorem Trail.isChain {document : Document} {trail : List Leg} {source target : Name}
    (h : Trail document trail source target) :
    (trail.map Leg.spread).IsChain fun spread after => after ∈ spreadsIn document spread.name := by
  induction trail generalizing source with
  | nil => exact .nil
  | cons leg rest ih =>
      obtain ⟨rfl, -, hnext⟩ := h.cons_inv
      have hrest := ih hnext
      cases rest with
      | nil => exact .singleton _
      | cons second others =>
          obtain ⟨hname, hown, -⟩ := hnext.cons_inv
          refine .cons_cons ?_ hrest
          rwa [hname]

/-- A closed trail through different fragments is a simple cycle. -/
theorem Trail.simpleCycle {document : Document} {trail : List Leg} {name : Name}
    (h : Trail document trail name name) (hne : trail ≠ []) (hnodup : (trailNames trail).Nodup) :
    SimpleCycle document name (trail.map Leg.spread) := by
  have htargets := h.targets_eq
  refine ⟨?_, h.isChain, ?_, ?_⟩
  · cases trail with
    | nil => exact absurd rfl hne
    | cons leg rest =>
        obtain ⟨rfl, hown, -⟩ := h.cons_inv
        exact ⟨leg.spread, rfl, hown⟩
  · obtain ⟨before, leg, rfl⟩ := List.eq_nil_or_concat trail |>.resolve_left hne
    refine ⟨leg.spread, by simp, ?_⟩
    have hlast := congrArg List.getLast? htargets
    rw [List.concat_eq_append, List.map_append, List.map_singleton, ← List.cons_append,
      List.getLast?_concat, List.getLast?_concat] at hlast
    exact Option.some.inj hlast
  · -- the targets are the fragments of the trail, the first of them moved to the end
    have hperm : (trail.map fun leg => leg.spread.name).Perm (trailNames trail) := by
      have hrotated : (name :: trail.map fun leg => leg.spread.name).Perm
          (name :: trailNames trail) := by
        rw [htargets]
        exact List.perm_append_singleton name (trailNames trail)
      exact hrotated.cons_inv
    rw [List.map_map]
    exact hperm.nodup_iff.mpr hnodup

/-- Between the fragments of a walk the search has no path and is inside of no fragment. -/
theorem stateAfter_outside (schema : Schema) (document : Document) (supplied : Variables)
    (cleared : List Name) (steps : List Step) :
    ∃ after, Checker.noFragmentCycles.stateAfter schema document supplied
      (⟨cleared, [], []⟩ : Search) steps = (⟨after, [], []⟩ : Search) := by
  induction steps generalizing cleared with
  | nil => exact ⟨cleared, rfl⟩
  | cons step rest ih =>
      have hstep : ∃ after, (Checker.noFragmentCycles.step
          ⟨schema, document, supplied, step.types⟩ (⟨cleared, [], []⟩ : Search) step.event).1 =
          (⟨after, [], []⟩ : Search) := by
        simp only [Checker.noFragmentCycles, Checker.step_ofStep]
        split
        · rw [searchFragment_outside]
          exact ⟨_, rfl⟩
        · exact ⟨cleared, rfl⟩
      obtain ⟨after, hafter⟩ := hstep
      obtain ⟨last, hlast⟩ := ih after
      refine ⟨last, ?_⟩
      rw [← hlast, ← hafter]
      rfl

theorem message_fragmentCycle (name : Name) (via : List Name) :
    (Problem.fragmentCycle name via).message = "Cannot spread fragment " ++ quoted name ++
      " within itself" ++
      (if via.isEmpty then "" else " via " ++ ", ".intercalate (via.map quoted)) ++ "." :=
  rfl

theorem message_diagnostic (name : Name) {cycle : List Spread} (hne : cycle ≠ []) :
    (diagnostic name cycle).problem.message = "Cannot spread fragment " ++ quoted name ++
      " within itself" ++ (if cycle.length = 1 then "" else
        " via " ++ ", ".intercalate (cycle.dropLast.map fun spread => quoted spread.name)) ++
      "." := by
  have hshort : (cycle.dropLast.map Spread.name).isEmpty = decide (cycle.length = 1) := by
    have hlength : 0 < cycle.length := List.length_pos_of_ne_nil hne
    rw [Bool.eq_iff_iff, List.isEmpty_iff_length_eq_zero, List.length_map, List.length_dropLast,
      decide_eq_true_iff]
    omega
  have hvia : (cycle.dropLast.map Spread.name).map quoted =
      cycle.dropLast.map fun spread => quoted spread.name := List.map_map
  have hmessage : (diagnostic name cycle).problem.message = _ := message_fragmentCycle name _
  rw [hmessage, hvia, hshort]
  by_cases hlength : cycle.length = 1
  · simp only [hlength, decide_true, if_true]
  · simp only [hlength, decide_false, if_false, Bool.false_eq_true]

/-- What the rule on fragment cycles reports is a simple cycle: its places are those of the spreads
of the cycle, it names the fragment that the last of them leads to, and it tells the fragments that
the others lead to, in order. After any steps, so at the end of the walk, the path is empty and no
fragment is noted as one that the search is inside of. -/
theorem reported_cycles_simple (schema : Schema) (document : Document) (supplied : Variables)
    (set : RuleSet) :
    (∀ diagnostic ∈ (document.audit schema set supplied).diagnostics,
      diagnostic.problem.code = .fragmentCycles →
        ∃ name cycle, SimpleCycle document name cycle ∧
          diagnostic.positions = cycle.map Spread.position ∧
          diagnostic.problem = .fragmentCycle name (cycle.dropLast.map Spread.name) ∧
          diagnostic.problem.message = "Cannot spread fragment " ++ quoted name ++
            " within itself" ++ (if cycle.length = 1 then "" else
              " via " ++ ", ".intercalate (cycle.dropLast.map fun spread => quoted spread.name)) ++
            ".") ∧
      ∀ steps, ∃ cleared,
        Checker.noFragmentCycles.stateAfter schema document supplied Search.empty steps =
          { cleared := cleared, path := [], starts := [] } := by
  refine ⟨fun diagnostic hmem hcode => ?_, stateAfter_outside schema document supplied []⟩
  have hreported : diagnostic ∈ document.reportsOf schema .noFragmentCycles supplied :=
    Document.mem_reportsOf_of_code rfl hmem hcode
  rw [← Document.diagnostics_singleton, diagnostics_noFragmentCycles] at hreported
  obtain ⟨one, hone, hreport⟩ := List.mem_filterMap.mp hreported
  obtain ⟨hcloses, rfl⟩ : one.closes = true ∧ report one.spread.name one.cycle = diagnostic := by
    simpa [Followed.report?] using hreport
  obtain ⟨order, -, -, hsound⟩ := followed_sound document
  have hne : one.cycle ≠ [] := by simpa [Followed.closes] using hcloses
  obtain ⟨-, htrail, -, -⟩ := (hsound one hone).closing hne
  have hsimple := htrail.simpleCycle hne (hsound one hone).distinct
  refine ⟨one.spread.name, one.cycle.map Leg.spread, hsimple, ?_⟩
  rw [report_eq_diagnostic]
  have hcycle : one.cycle.map Leg.spread ≠ [] := by simpa using hne
  exact ⟨rfl, rfl, message_diagnostic one.spread.name hcycle⟩

/-- Two fragments that spread each other. -/
theorem reported_cycles_simple_mutual :
    ∃ (schema : Schema) (document : Document),
      ∃ diagnostic ∈ (document.audit schema .all []).diagnostics,
        diagnostic.problem.code = .fragmentCycles ∧
        ∃ name cycle, SimpleCycle document name cycle ∧ cycle.length = 2 ∧
          diagnostic.positions = cycle.map Spread.position := by
  have hpass : Schema.textsPass (fun schema document =>
      (document.audit schema .all []).diagnostics.any fun diagnostic =>
        decide (diagnostic.problem.code = .fragmentCycles ∧ diagnostic.positions.length = 2))
      "type Query{a:Int}"
      "{...A} fragment A on Query{...B} fragment B on Query{a ...A}" = true := by
    decide +kernel
  obtain ⟨schema, document, -, hcheck⟩ := Schema.exists_of_textsPass hpass
  obtain ⟨diagnostic, hmem, hfound⟩ := List.any_eq_true.mp hcheck
  obtain ⟨hcode, hlength⟩ := of_decide_eq_true hfound
  obtain ⟨name, cycle, hsimple, hpositions, -, -⟩ :=
    (reported_cycles_simple schema document [] .all).1 diagnostic hmem hcode
  refine ⟨schema, document, diagnostic, hmem, hcode, name, cycle, hsimple, ?_, hpositions⟩
  rwa [hpositions, List.length_map] at hlength

end QueryAudit.Cycle
