import QueryAudit.Proofs.Checkers
import QueryAudit.Proofs.Merge.Completeness
import QueryAudit.Proofs.Merge.Soundness
import QueryAudit.Proofs.Merge.Termination
import QueryAudit.Proofs.Schemas

/-!
# The verdict on overlapping fields

The rule on overlapping fields searches the sets of a document one after the other with one ledger.
It reports something exactly if two fields clash, as long as it does not matter which of two fields
is asked for the types of its arguments and no field has other arguments than itself. In general
the verdict lies between two notions of a clash: a clash in which the arguments differ both ways
round is reported, and what is reported is a clash in which they differ one way round, or a field
that has other arguments than itself.
-/

namespace QueryAudit

namespace Merge

/-- It does not matter which of two fields of one key and one name is asked whether their arguments
differ, and no field has other arguments than itself. -/
structure OrderFree (schema : Schema) (document : Document) : Prop where
  symm : ∀ a ∈ fieldEntries schema document, ∀ b ∈ fieldEntries schema document,
    a.key = b.key → a.field.name = b.field.name →
      ArgumentsDiffer schema a b → ArgumentsDiffer schema b a
  self : ∀ a ∈ fieldEntries schema document, ¬ ArgumentsDiffer schema a a

instance (schema : Schema) (a b : Entry) : Decidable (ArgumentsDiffer schema a b) :=
  inferInstanceAs (Decidable (_ = false))

instance (schema : Schema) (document : Document) : Decidable (OrderFree schema document) :=
  decidable_of_iff
    ((∀ a ∈ fieldEntries schema document, ∀ b ∈ fieldEntries schema document,
        a.key = b.key → a.field.name = b.field.name →
          ArgumentsDiffer schema a b → ArgumentsDiffer schema b a) ∧
      ∀ a ∈ fieldEntries schema document, ¬ ArgumentsDiffer schema a a)
    ⟨fun h => ⟨h.1, h.2⟩, fun h => ⟨h.symm, h.self⟩⟩

section

variable {schema : Schema} {document : Document} (supplied : Variables)

/-! ## The rule along a walk -/

omit supplied in
theorem place_of_entersPlaced {step : Step} (h : step.EntersPlaced schema document)
    (address : Address) (selections : SelectionSet)
    (hevent : step.event = .enter (.selectionSet address selections)) :
    Place schema document step.types.parent? address selections :=
  place_of_setAt? (h address selections hevent)

/-- A step that enters a set makes the rule search that set to the end, and any other step leaves
the rule as it was. -/
theorem overlappingFields_step {sites : Sites schema document} (hsites : sites.Closed)
    {ledger : Ledger} (hledger : ledger.Genuine sites) {step : Step}
    (hstep : ∀ address selections, step.event = .enter (.selectionSet address selections) →
      sites.Set step.types.parent? address selections) :
    (∃ address selections after conflicts,
      step.event = .enter (.selectionSet address selections) ∧
      sites.Set step.types.parent? address selections ∧
      conflictsIn schema document ledger step.types.parent? address selections =
        some (after, conflicts) ∧
      Checker.overlappingFieldsCanBeMerged.step ⟨schema, document, supplied, step.types⟩ ledger
        step.event = (after, conflicts.map Conflict.diagnostic)) ∨
    (∀ address selections, step.event ≠ .enter (.selectionSet address selections)) ∧
      Checker.overlappingFieldsCanBeMerged.step ⟨schema, document, supplied, step.types⟩ ledger
        step.event = (ledger, []) := by
  cases hevent : step.event with
  | leave node => exact .inr ⟨nofun, rfl⟩
  | enter node =>
      cases node with
      | selectionSet address selections =>
          have hset := hstep address selections hevent
          obtain ⟨after, conflicts, hconflicts⟩ := exists_conflictsIn hsites hledger hset
          refine .inl ⟨address, selections, after, conflicts, rfl, hset, hconflicts, ?_⟩
          simp only [Checker.overlappingFieldsCanBeMerged, Checker.step_ofStep, hconflicts]
          rfl
      | _ => exact .inr ⟨nofun, rfl⟩

theorem hasClash_of_reports (hschema : schema.FieldsOnComposites) {steps : List Step}
    (hsteps : ∀ step ∈ steps, step.EntersPlaced schema document) {ledger : Ledger}
    (hledger : ledger.Genuine (Sites.placed schema document))
    (h : Checker.overlappingFieldsCanBeMerged.reports schema document supplied ledger steps ≠ []) :
    HasClash schema document (DifferEitherWay schema) ∨ HasSelfDiffering schema document := by
  induction steps generalizing ledger with
  | nil => exact absurd rfl h
  | cons step rest ih =>
      have hrest : ∀ other ∈ rest, other.EntersPlaced schema document := fun other hother =>
        hsteps other (List.mem_cons_of_mem _ hother)
      rcases overlappingFields_step supplied hschema.closed hledger
        (place_of_entersPlaced (hsteps step List.mem_cons_self)) with
        ⟨address, selections, after, conflicts, -, hplace, hconflicts, hstep⟩ | ⟨-, hstep⟩
      · simp only [Checker.reports, hstep] at h
        by_cases hnone : conflicts = []
        · subst hnone
          have hafter := (conflictsIn_keeps hschema.closed hledger hplace hconflicts).1
          exact ih hrest hafter (by simpa using h)
        · exact hasClash_of_conflictsIn hschema hledger hplace hconflicts hnone
      · simp only [Checker.reports, hstep, List.nil_append] at h
        exact ih hrest hledger h

theorem exists_closed_of_reports (hschema : schema.FieldsOnComposites) {steps : List Step}
    (hsteps : ∀ step ∈ steps, step.EntersPlaced schema document) {ledger : Ledger}
    (hledger : ledger.Genuine (Sites.placed schema document))
    (h : Checker.overlappingFieldsCanBeMerged.reports schema document supplied ledger steps = []) :
    ∃ after compared, ledger.Grows after ∧
      Trace.Closed (Sites.placed schema document) ⟨after, compared⟩ ledger ∧
      ∀ step ∈ steps, ∀ address selections,
        step.event = .enter (.selectionSet address selections) →
          Trace.Visited (Sites.placed schema document) ⟨after, compared⟩ address := by
  induction steps generalizing ledger with
  | nil =>
      refine ⟨ledger, [], .refl ledger, .refl ledger, fun step hstep => ?_⟩
      cases hstep
  | cons step rest ih =>
      have hrest : ∀ other ∈ rest, other.EntersPlaced schema document := fun other hother =>
        hsteps other (List.mem_cons_of_mem _ hother)
      rcases overlappingFields_step supplied hschema.closed hledger
        (place_of_entersPlaced (hsteps step List.mem_cons_self)) with
        ⟨address, selections, middle, conflicts, hevent, hplace, hconflicts, hstep⟩ |
          ⟨hother, hstep⟩
      · simp only [Checker.reports, hstep, List.append_eq_nil_iff, List.map_eq_nil_iff] at h
        obtain ⟨rfl, hlater⟩ := h
        obtain ⟨hmiddle, hgrows⟩ := conflictsIn_keeps hschema.closed hledger hplace hconflicts
        obtain ⟨first, hclosed, hvisited⟩ :=
          Trace.exists_closed_of_conflictsIn hschema.coherent hledger hplace hconflicts
        obtain ⟨after, second, hgrows', hclosed', hvisits⟩ := ih hrest hmiddle hlater
        refine ⟨after, first ++ second, hgrows.trans hgrows', hclosed.trans hclosed' hgrows', ?_⟩
        intro other hmem otherAddress otherSelections hentered
        rcases List.mem_cons.mp hmem with rfl | hmem
        · rw [hevent] at hentered
          cases hentered
          exact hvisited.mono ⟨hgrows', fun _ h => List.mem_append_left _ h⟩
        · exact (hvisits other hmem _ _ hentered).mono
            ⟨.refl after, fun _ h => List.mem_append_right _ h⟩
      · simp only [Checker.reports, hstep, List.nil_append] at h
        obtain ⟨after, compared, hgrows, hclosed, hvisits⟩ := ih hrest hledger h
        refine ⟨after, compared, hgrows, hclosed, ?_⟩
        intro other hmem address selections hentered
        rcases List.mem_cons.mp hmem with rfl | hmem
        · exact absurd hentered (hother address selections)
        · exact hvisits other hmem address selections hentered

omit supplied in
theorem Ledger.genuine_empty : Ledger.Genuine (Sites.placed schema document) .empty :=
  Ledger.genuine_empty_of_unheld fun _ => id

omit supplied in
theorem entersPlaced_of_mem_steps {step : Step} (h : step ∈ document.tree.steps schema) :
    step.EntersPlaced schema document := by
  intro address selections hevent
  obtain ⟨event, types⟩ := step
  cases hevent
  exact Document.setAt?_of_mem_steps h

theorem diagnostics_overlappingFields :
    document.diagnostics schema [.overlappingFieldsCanBeMerged] supplied =
      Checker.overlappingFieldsCanBeMerged.reports schema document supplied Ledger.empty
        (document.tree.steps schema) :=
  Document.diagnostics_singleton ..

/-- A clash in which the arguments differ both ways round is reported. -/
theorem diagnostics_ne_nil_of_hasClash (hschema : schema.FieldsOnComposites)
    (h : HasClash schema document (DifferBothWays schema)) :
    document.diagnostics schema [.overlappingFieldsCanBeMerged] supplied ≠ [] := by
  rw [diagnostics_overlappingFields]
  intro hnone
  obtain ⟨after, compared, -, hclosed, hvisits⟩ := exists_closed_of_reports supplied hschema
    (fun _ => entersPlaced_of_mem_steps) Ledger.genuine_empty hnone
  have hcomplete : Trace.Complete schema document ⟨after, compared⟩ := by
    refine ⟨hclosed, fun parent address selections hplace => ?_⟩
    obtain ⟨types, -, hstep⟩ := Document.enters_iff.mpr hplace.set
    exact hvisits _ hstep address selections rfl
  exact hcomplete.not_hasClash hschema h

/-! ## Arguments that differ in any order -/

omit supplied in
theorem Clash.imp (hschema : schema.FieldsOnComposites) {differ other : Entry → Entry → Prop}
    (himp : ∀ a b, Placed schema document a → Placed schema document b → a.key = b.key →
      a.field.name = b.field.name → differ a b → other a b)
    {exclusive : Bool} {a b : Entry} (ha : Placed schema document a)
    (hb : Placed schema document b) (hkey : a.key = b.key)
    (h : Clash schema document differ exclusive a b) :
    Clash schema document other exclusive a b := by
  induction h with
  | names together names => exact .names together names
  | arguments together arguments =>
      rename_i a b
      by_cases hnames : a.field.name = b.field.name
      · exact .arguments together (himp a b ha hb hkey hnames arguments)
      · exact .names together hnames
  | types hfirst hsecond types => exact .types hfirst hsecond types
  | subfields hfirst hsecond distinct key clash ih =>
      have hbelow := ih (hfirst.placed hschema ha.place) (hsecond.placed hschema hb.place) key
      exact .subfields hfirst hsecond distinct key hbelow

omit supplied in
theorem HasClash.imp (hschema : schema.FieldsOnComposites) {differ other : Entry → Entry → Prop}
    (himp : ∀ a b, Placed schema document a → Placed schema document b → a.key = b.key →
      a.field.name = b.field.name → differ a b → other a b)
    (h : HasClash schema document differ) : HasClash schema document other := by
  obtain ⟨parent, address, selections, a, b, henters, ha, hb, distinct, key, clash⟩ := h
  have hplace := place_of_setAt? (Document.enters_iff.mp henters)
  exact ⟨parent, address, selections, a, b, henters, ha, hb, distinct, key,
    clash.imp hschema himp (ha.placed hschema hplace) (hb.placed hschema hplace) key⟩

omit supplied in
theorem HasClash.exists_distinct (hschema : schema.FieldsOnComposites)
    {differ : Entry → Entry → Prop} (h : HasClash schema document differ) :
    ∃ a ∈ fieldEntries schema document, ∃ b ∈ fieldEntries schema document,
      a.address ≠ b.address := by
  obtain ⟨parent, address, selections, a, b, henters, ha, hb, distinct, -⟩ := h
  have hplace := place_of_setAt? (Document.enters_iff.mp henters)
  exact ⟨a.plain, (ha.placed hschema hplace).mem_fieldEntries, b.plain,
    (hb.placed hschema hplace).mem_fieldEntries, distinct⟩

end

end Merge

/-- Take a schema in which only composite types have fields. A clash in which arguments differ both
ways round is reported. What is reported is a clash in which arguments differ one way round, or a
field that has other arguments than itself. Where the order of two fields does not matter to their
arguments and no field has other arguments than itself, something is reported exactly if there is a
clash. -/
theorem overlapping_fields_exact {schema : Schema} (hschema : schema.FieldsOnComposites)
    (document : Document) (supplied : Variables) :
    (Merge.HasClash schema document (Merge.DifferBothWays schema) →
        document.diagnostics schema [.overlappingFieldsCanBeMerged] supplied ≠ []) ∧
      (document.diagnostics schema [.overlappingFieldsCanBeMerged] supplied ≠ [] →
        Merge.HasClash schema document (Merge.DifferEitherWay schema) ∨
          Merge.HasSelfDiffering schema document) ∧
      (Merge.OrderFree schema document →
        (document.diagnostics schema [.overlappingFieldsCanBeMerged] supplied ≠ [] ↔
          Merge.HasClash schema document (Merge.ArgumentsDiffer schema))) := by
  have hreported : document.diagnostics schema [.overlappingFieldsCanBeMerged] supplied ≠ [] →
      Merge.HasClash schema document (Merge.DifferEitherWay schema) ∨
        Merge.HasSelfDiffering schema document := by
    rw [Merge.diagnostics_overlappingFields]
    exact Merge.hasClash_of_reports supplied hschema
      (fun _ => Merge.entersPlaced_of_mem_steps) Merge.Ledger.genuine_empty
  refine ⟨Merge.diagnostics_ne_nil_of_hasClash supplied hschema, hreported, fun hfree => ?_⟩
  have hsymm : ∀ a b, Merge.Placed schema document a → Merge.Placed schema document b →
      a.key = b.key → a.field.name = b.field.name →
      Merge.ArgumentsDiffer schema a b → Merge.ArgumentsDiffer schema b a :=
    fun a b ha hb => hfree.symm a.plain ha.mem_fieldEntries b.plain hb.mem_fieldEntries
  constructor
  · intro hreports
    rcases hreported hreports with hclash | ⟨a, ha, hdiffer⟩
    · refine hclash.imp hschema fun a b ha hb hkey hname hdiffer => ?_
      rcases hdiffer with hdiffer | hdiffer
      · exact hdiffer
      · exact hsymm b a hb ha hkey.symm hname.symm hdiffer
    · exact absurd hdiffer (hfree.self a ha)
  · intro hclash
    refine Merge.diagnostics_ne_nil_of_hasClash supplied hschema (hclash.imp hschema ?_)
    exact fun a b ha hb hkey hname hdiffer => ⟨hdiffer, hsymm a b ha hb hkey hname hdiffer⟩

/-- Two fragments that spread each other, with a clash in sub-selections; and a fragment that
spreads itself, where a single field is compared with itself and reported. -/
theorem overlapping_fields_exact_cyclic :
    (∃ (schema : Schema) (document : Document), schema.FieldsOnComposites ∧
      Merge.OrderFree schema document ∧
      document.diagnostics schema [.overlappingFieldsCanBeMerged] [] ≠ [] ∧
      Merge.HasClash schema document (Merge.ArgumentsDiffer schema)) ∧
    ∃ (schema : Schema) (document : Document), schema.FieldsOnComposites ∧
      document.diagnostics schema [.overlappingFieldsCanBeMerged] [] ≠ [] ∧
      (∀ differ, ¬ Merge.HasClash schema document differ) ∧
      Merge.HasSelfDiffering schema document := by
  constructor
  · have hpass : Schema.textsPass (fun schema document =>
        decide schema.FieldsOnComposites && decide (Merge.OrderFree schema document) &&
          !(document.diagnostics schema [.overlappingFieldsCanBeMerged] []).isEmpty)
        "type Query{a(n:Int):Int b:Int q:Query}"
        "{...F q{...G}}
         fragment F on Query{q{x:a(n:1)}...G}
         fragment G on Query{q{...on Query{x:b}...F}...F}" = true := by
      decide +kernel
    obtain ⟨schema, document, -, hcheck⟩ := Schema.exists_of_textsPass hpass
    simp only [Bool.and_eq_true, decide_eq_true_eq, Bool.not_eq_true', List.isEmpty_eq_false_iff]
      at hcheck
    obtain ⟨⟨hfields, hfree⟩, hreported⟩ := hcheck
    exact ⟨schema, document, hfields, hfree, hreported,
      ((overlapping_fields_exact hfields document []).2.2 hfree).mp hreported⟩
  · have hpass : Schema.textsPass (fun schema document =>
        decide schema.FieldsOnComposites &&
          !(document.diagnostics schema [.overlappingFieldsCanBeMerged] []).isEmpty &&
          (Merge.fieldEntries schema document).length == 1)
        "type Query{a(x:Int):Int}"
        "{...F}
         fragment F on Query{...on Query{a(x:1 x:2)...F}}" = true := by
      decide +kernel
    obtain ⟨schema, document, -, hcheck⟩ := Schema.exists_of_textsPass hpass
    simp only [Bool.and_eq_true, decide_eq_true_eq, Bool.not_eq_true', List.isEmpty_eq_false_iff,
      beq_iff_eq] at hcheck
    obtain ⟨⟨hfields, hreported⟩, hlength⟩ := hcheck
    obtain ⟨only, honly⟩ := List.length_eq_one_iff.mp hlength
    have hnone : ∀ differ, ¬ Merge.HasClash schema document differ := by
      intro differ hclash
      obtain ⟨a, ha, b, hb, distinct⟩ := hclash.exists_distinct hfields
      rw [honly, List.mem_singleton] at ha hb
      exact distinct (by rw [ha, hb])
    exact ⟨schema, document, hfields, hreported, hnone,
      ((overlapping_fields_exact hfields document []).2.1 hreported).resolve_left (hnone _)⟩

end QueryAudit
