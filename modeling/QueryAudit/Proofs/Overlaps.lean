import QueryAudit.Proofs.Codes
import QueryAudit.Proofs.Declarations
import QueryAudit.Proofs.Tracking

/-!
# Types overlap where they share an object

Two composite types overlap if they are the same or some object type is possible for both. That is
decided from the members of one side only, so it takes what building a schema makes of interfaces:
their members are the object types that declare them. A spread is then reported exactly where its
type and the parent type share no object type.
-/

namespace QueryAudit

namespace TypeDefinition

theorem isPossible_of_isAbstract {type : TypeDefinition} (h : type.isAbstract = true)
    (object : Name) : type.isPossible object = true ↔ object ∈ type.members := by
  unfold isAbstract at h
  unfold isPossible
  cases hkind : type.kind <;> simp_all

/-- A composite type that is not abstract is an object type. -/
theorem isPossible_of_not_isAbstract {type : TypeDefinition} (hcomposite : type.isComposite = true)
    (h : type.isAbstract = false) (object : Name) :
    type.isPossible object = true ↔ object = type.name := by
  unfold isComposite at hcomposite
  unfold isAbstract at h
  unfold isPossible
  cases hkind : type.kind with
  | object => exact beq_iff_eq.trans eq_comm
  | interface | union => simp [hkind] at h
  | scalar | enum | inputObject => simp [hkind] at hcomposite

/-- Composite types overlap exactly if they have one name or some object is possible for both. -/
theorem overlaps_iff {a b : TypeDefinition} (ha : a.isComposite = true)
    (hb : b.isComposite = true) :
    a.overlaps b = true ↔
      a.name = b.name ∨ ∃ object, a.isPossible object = true ∧ b.isPossible object = true := by
  unfold overlaps
  by_cases hname : a.name = b.name
  · simp [hname]
  · rw [if_neg hname]
    simp only [hname, false_or]
    cases habstract : a.isAbstract <;> cases hbstract : b.isAbstract
    · have hnone : ¬ ∃ object, a.isPossible object = true ∧ b.isPossible object = true := by
        rintro ⟨object, hfirst, hsecond⟩
        rw [isPossible_of_not_isAbstract ha habstract] at hfirst
        rw [isPossible_of_not_isAbstract hb hbstract] at hsecond
        exact hname (hfirst.symm.trans hsecond)
      simpa using hnone
    · simp [isPossible_of_not_isAbstract ha habstract]
    · simp [isPossible_of_not_isAbstract hb hbstract]
    · simp [isPossible_of_isAbstract habstract]

theorem overlaps_comm {a b : TypeDefinition} (ha : a.isComposite = true)
    (hb : b.isComposite = true) : a.overlaps b = b.overlaps a := by
  rw [Bool.eq_iff_iff, overlaps_iff ha hb, overlaps_iff hb ha, eq_comm]
  simp only [and_comm]

end TypeDefinition

/-! ## Shared objects -/

namespace Schema

/-- An object of a named type can be of a type: of its own, of a union that lists it, or of an
interface that it implements. -/
def Admits (schema : Schema) (type : TypeDefinition) (object : Name) : Prop :=
  match type.kind with
  | .object => object = type.name
  | .union => object ∈ type.members
  | .interface => schema.Implements object type.name
  | _ => False

/-- What is possible for a composite type of an exact schema. -/
theorem Exact.isPossible_iff {schema : Schema} (h : schema.Exact) {name : Name}
    {type : TypeDefinition} (htype : schema.type? name = some type)
    (hcomposite : type.isComposite = true) (object : Name) :
    type.isPossible object = true ↔ schema.Admits type object := by
  unfold TypeDefinition.isComposite at hcomposite
  unfold TypeDefinition.isPossible Admits
  cases hkind : type.kind with
  | object => exact beq_iff_eq.trans eq_comm
  | union => exact List.contains_iff_mem
  | interface =>
      obtain rfl := h.keyed name type htype
      simpa using h.interfaces type.name type htype hkind object
  | scalar | enum | inputObject => simp [hkind] at hcomposite

theorem Exact.overlaps_iff {schema : Schema} (h : schema.Exact) {name other : Name}
    {a b : TypeDefinition} (ha : schema.type? name = some a) (hb : schema.type? other = some b)
    (hacomposite : a.isComposite = true) (hbcomposite : b.isComposite = true) :
    a.overlaps b = true ↔
      a.name = b.name ∨ ∃ object, schema.Admits a object ∧ schema.Admits b object := by
  simp only [TypeDefinition.overlaps_iff hacomposite hbcomposite, h.isPossible_iff ha hacomposite,
    h.isPossible_iff hb hbcomposite]

end Schema

/-! ## Tracked types -/

/-- The types that are tracked are types of the schema, and parents among them are composite. -/
structure Tracker.Knows (schema : Schema) (tracker : Tracker) : Prop where
  types : ∀ type, some type ∈ tracker.types → ∃ name, schema.type? name = some type
  parents : ∀ parent, some parent ∈ tracker.parents →
    (∃ name, schema.type? name = some parent) ∧ parent.isComposite = true

namespace Tracker.Knows

variable {schema : Schema} {tracker : Tracker}

theorem push (h : tracker.Knows schema) {pushed : Option TypeDefinition}
    (hpushed : ∀ type, pushed = some type → ∃ name, schema.type? name = some type) :
    ∀ type, some type ∈ pushed :: tracker.types → ∃ name, schema.type? name = some type := by
  intro type hmem
  rcases List.mem_cons.mp hmem with heq | hmem
  · exact hpushed type heq.symm
  · exact h.types type hmem

theorem known_type? (h : tracker.Knows schema) {type : TypeDefinition}
    (htype : tracker.type? = some type) : ∃ name, schema.type? name = some type := by
  obtain ⟨top, htop, heq⟩ := Option.bind_eq_some_iff.mp htype
  cases heq
  exact h.types type (List.mem_of_head? htop)

theorem known_parent? (h : tracker.Knows schema) {parent : TypeDefinition}
    (hparent : tracker.parent? = some parent) :
    (∃ name, schema.type? name = some parent) ∧ parent.isComposite = true := by
  obtain ⟨top, htop, heq⟩ := Option.bind_eq_some_iff.mp hparent
  cases heq
  exact h.parents parent (List.mem_of_head? htop)

theorem enter (h : tracker.Knows schema) (node : Node) : (tracker.enter schema node).Knows schema := by
  cases node with
  | operation o =>
      refine ⟨h.push fun type htype => ?_, h.parents⟩
      obtain ⟨name, -, hname⟩ := Option.bind_eq_some_iff.mp htype
      exact ⟨name, hname⟩
  | fragment f => exact ⟨h.push fun type htype => ⟨f.condition, htype⟩, h.parents⟩
  | inline f =>
      refine ⟨h.push fun type htype => ?_, h.parents⟩
      cases hcondition : f.condition with
      | some condition => exact ⟨condition, by simpa [hcondition] using htype⟩
      | none => exact h.known_type? (by simpa [hcondition] using htype)
  | field chosen inner =>
      refine ⟨h.push fun type htype => ?_, h.parents⟩
      obtain ⟨definition, -, hname⟩ := Option.bind_eq_some_iff.mp htype
      exact ⟨_, hname⟩
  | selectionSet address selections =>
      refine ⟨h.types, fun parent hmem => ?_⟩
      rcases List.mem_cons.mp hmem with heq | hmem
      · obtain ⟨htype, hcomposite⟩ := Option.filter_eq_some_iff.mp heq.symm
        exact ⟨h.known_type? htype, hcomposite⟩
      · exact h.parents parent hmem
  | document | variableDefinition | directive | argument | selection | spread | value | listItem
  | objectField | variableUse => exact ⟨h.types, h.parents⟩

theorem tracked (schema : Schema) (nodes : List Node) : (tracked schema nodes).Knows schema := by
  have hfold : ∀ tracker : Tracker, tracker.Knows schema →
      (nodes.foldl (Tracker.enter schema) tracker).Knows schema := by
    induction nodes with
    | nil => exact fun _ h => h
    | cons node rest ih => exact fun tracker h => ih _ (h.enter node)
  exact hfold Tracker.empty ⟨by simp [Tracker.empty], by simp [Tracker.empty]⟩

end Tracker.Knows

/-! ## Spreads -/

/-- What an event spreads: the name of the fragment unless it is inline, the condition, and the
place. Inline fragments without a condition, and spreads of unknown fragments, are none. -/
def Event.spread? (document : Document) : Event → Option (Option Name × Name × Position)
  | .enter (.spread spread) => (document.fragment? spread.name).map fun fragment =>
      (some spread.name, fragment.condition, spread.position)
  | .enter (.inline fragment) => fragment.condition.map fun condition =>
      (none, condition, fragment.position)
  | _ => none

/-- What the rule on spreads reports at an event, from the condition of what is spread there. -/
theorem possibleSpreads_reportsAt (schema : Schema) (document : Document) (supplied : Variables)
    (index : Nat) :
    document.reportsAt schema (.only .possibleFragmentSpreads) supplied index =
      (((document.tree.steps schema)[index]?).bind fun step =>
        (step.event.spread? document).map fun spread =>
          Checker.impossibleSpread spread.1 (schema.type? spread.2.1) step.types.parent?
            spread.2.2).getD [] := by
  rw [Document.reportsAt_stateless rfl]
  cases hstep : (document.tree.steps schema)[index]? with
  | none => rfl
  | some step =>
      obtain ⟨outer, houter⟩ := Document.exists_around (List.mem_of_getElem? hstep)
      obtain ⟨event, types⟩ := step
      simp only [Option.map_some, Option.getD_some, Option.bind_some]
      cases event with
      | leave node => rfl
      | enter node =>
          cases node with
          | spread spread =>
              cases hfragment : document.fragment? spread.name with
              | none => simp [Event.spread?, hfragment, Checker.impossibleSpread]
              | some fragment => simp [Event.spread?, hfragment]
          | inline fragment =>
              cases hcondition : fragment.condition with
              | none => simp [Event.spread?, hcondition]
              | some condition =>
                  have htype : types.type? = schema.type? condition := by
                    rw [show types = _ from houter]
                    simp [Event.node, Tracker.enter, Tracker.type?, hcondition]
                  simp [Event.spread?, hcondition, htype]
          | _ => rfl

theorem mem_impossibleSpread {fragment : Option Name} {type parent : Option TypeDefinition}
    {position : Position} {diagnostic : Diagnostic} :
    diagnostic ∈ Checker.impossibleSpread fragment type parent position ↔
      ∃ found on, type = some found ∧ parent = some on ∧ found.isComposite = true ∧
        found.overlaps on = false ∧
        diagnostic = ⟨.impossibleSpread fragment on.name found.name, [position]⟩ := by
  unfold Checker.impossibleSpread
  cases type with
  | none => simp
  | some found =>
      cases parent with
      | none => simp
      | some on =>
          dsimp only
          by_cases hreported : (found.isComposite && !found.overlaps on) = true
          · rw [if_pos hreported]
            simp only [Bool.and_eq_true, Bool.not_eq_true'] at hreported
            simp [hreported, Problem.at]
          · rw [if_neg hreported]
            simp only [Bool.and_eq_true, Bool.not_eq_true'] at hreported
            simp only [List.not_mem_nil, Option.some.injEq, false_iff]
            rintro ⟨_, _, rfl, rfl, hcomposite, hoverlaps, -⟩
            exact hreported ⟨hcomposite, hoverlaps⟩

theorem length_impossibleSpread (fragment : Option Name) (type parent : Option TypeDefinition)
    (position : Position) :
    (Checker.impossibleSpread fragment type parent position).length ≤ 1 := by
  unfold Checker.impossibleSpread
  repeat' split
  all_goals simp

/-- Take a text whose extensions have the kind of what they extend, and the schema built from it.
What is possible for an interface are the object types that implement it. Two composite types overlap
either way round, exactly if they have one name or some object type is possible for both. So the
rule on spreads reports one, once, exactly where its composite type and the parent type have
different names and no possible type in common. -/
theorem overlap_means_shared_object {text : String} {declarations : List Declaration}
    {schema : Schema} (hread : Declaration.ofText text = .ok declarations)
    (hfit : Declaration.ExtensionsFit declarations) (hschema : Schema.ofText text = .ok schema) :
    (∀ name type, schema.type? name = some type → type.kind = .interface →
        ∀ object, type.isPossible object = true ↔ schema.Implements object name) ∧
      (∀ a b name other, schema.type? name = some a → schema.type? other = some b →
        a.isComposite = true → b.isComposite = true →
        a.overlaps b = b.overlaps a ∧ (a.overlaps b = true ↔
          a.name = b.name ∨ ∃ object, schema.Admits a object ∧ schema.Admits b object)) ∧
      ∀ (document : Document) (supplied : Variables) (set : RuleSet) (index : Nat),
        ((document.reportsAt schema set supplied index).filter
          (·.problem.code = .possibleSpreads)).length ≤ 1 ∧
        ∀ diagnostic, diagnostic ∈ (document.reportsAt schema set supplied index).filter
            (·.problem.code = .possibleSpreads) ↔
          .possibleFragmentSpreads ∈ set.rules ∧
          ∃ step fragment condition position type parent,
            (document.tree.steps schema)[index]? = some step ∧
            step.event.spread? document = some (fragment, condition, position) ∧
            schema.type? condition = some type ∧ type.isComposite = true ∧
            step.types.parent? = some parent ∧ type.name ≠ parent.name ∧
            (∀ object, schema.Admits type object → ¬ schema.Admits parent object) ∧
            diagnostic = ⟨.impossibleSpread fragment parent.name type.name, [position]⟩ := by
  have hexact := Schema.exact_ofText hread hfit hschema
  refine ⟨?_, ?_, fun document supplied set index => ?_⟩
  · intro name type htype hkind object
    have habstract : type.isAbstract = true := by simp [TypeDefinition.isAbstract, hkind]
    rw [TypeDefinition.isPossible_of_isAbstract habstract, hexact.interfaces name type htype hkind]
  · intro a b name other ha hb hacomposite hbcomposite
    exact ⟨TypeDefinition.overlaps_comm hacomposite hbcomposite,
      hexact.overlaps_iff ha hb hacomposite hbcomposite⟩
  · rw [show Code.possibleSpreads = Rule.possibleFragmentSpreads.code from rfl,
      document.filter_reportsAt schema set supplied rfl index]
    by_cases hrule : Rule.possibleFragmentSpreads ∈ set.rules
    · rw [if_pos hrule, possibleSpreads_reportsAt]
      cases hstep : (document.tree.steps schema)[index]? with
      | none => simp
      | some step =>
          cases hspread : step.event.spread? document with
          | none => simp [hspread]
          | some spread =>
              obtain ⟨fragment, condition, position⟩ := spread
              simp only [Option.bind_some, hspread, Option.map_some, Option.getD_some,
                mem_impossibleSpread]
              refine ⟨length_impossibleSpread _ _ _ _, fun diagnostic => ?_⟩
              -- The parent type is one of the schema, so what overlaps it is known.
              have hoverlaps : ∀ type parent, schema.type? condition = some type →
                  type.isComposite = true → step.types.parent? = some parent →
                  (type.overlaps parent = false ↔ type.name ≠ parent.name ∧
                    ∀ object, schema.Admits type object → ¬ schema.Admits parent object) := by
                intro type parent htype hcomposite hparent
                obtain ⟨outer, houter⟩ := Document.exists_around (List.mem_of_getElem? hstep)
                have hknows : step.types.Knows schema :=
                  houter ▸ (Tracker.Knows.tracked schema outer).enter step.event.node
                obtain ⟨⟨name, hname⟩, hparentComposite⟩ := hknows.known_parent? hparent
                rw [← Bool.not_eq_true, hexact.overlaps_iff htype hname hcomposite hparentComposite]
                simp
              grind
    · simp [hrule]

/-- An object type that implements an interface by an extension, and a union that does not list it:
the interface is reported inside the union. -/
theorem overlap_means_shared_object_extended :
    ∃ (text : String) (declarations : List Declaration) (schema : Schema)
      (named pet : TypeDefinition) (document : Document) (diagnostic : Diagnostic),
      Declaration.ofText text = .ok declarations ∧ Declaration.ExtensionsFit declarations ∧
      Schema.ofText text = .ok schema ∧ schema.type? "Named" = some named ∧
      schema.type? "Pet" = some pet ∧ schema.Implements "Dog" "Named" ∧
      named.overlaps pet = pet.overlaps named ∧
      (¬ ∃ object, schema.Admits named object ∧ schema.Admits pet object) ∧
      diagnostic ∈ document.reportsAt schema (.only .possibleFragmentSpreads) [] 7 ∧
      ∃ (step : Step) (type parent : TypeDefinition),
        (document.tree.steps schema)[7]? = some step ∧ step.types.parent? = some parent ∧
        ∀ object, schema.Admits type object → ¬ schema.Admits parent object := by
  have hpass : Schema.textPasses (fun declarations schema =>
      decide (Declaration.KindsAgree declarations) &&
      (schema.type? "Named").any fun named => (schema.type? "Pet").any fun pet =>
        named.isPossible "Dog" && named.kind == .interface && pet.isComposite &&
        !named.overlaps pet && (Source.ofText "{pet{...on Named{name}}}").toOption.any fun source =>
          ((⟨source.operations.map .operation⟩ : Document).reportsAt schema
            (.only .possibleFragmentSpreads) [] 7).map (·.problem.code) == [.possibleSpreads])
      "interface Named{name:String}
       type Dog{name:String}
       extend type Dog implements Named{age:Int}
       type Cat{name:String}
       union Pet=Cat
       type Query{pet:Pet}" = true := by
    decide +kernel
  obtain ⟨declarations, schema, hread, hschema, hcheck⟩ := Schema.exists_of_textPasses hpass
  simp only [Bool.and_eq_true, decide_eq_true_eq, Option.any_eq_true, Bool.not_eq_true',
    beq_iff_eq] at hcheck
  obtain ⟨hkinds, named, hnamed, pet, hpet, ⟨⟨⟨hdog, hkind⟩, hcomposite⟩, hapart⟩, source, -, hreports⟩
    := hcheck
  obtain ⟨diagnostic, hdiagnostic, hcode⟩ := List.map_eq_singleton_iff.mp hreports
  obtain ⟨hinterfaces, hoverlaps, hspreads⟩ :=
    overlap_means_shared_object hread hkinds.extensionsFit hschema
  have hnamedComposite : named.isComposite = true := by simp [TypeDefinition.isComposite, hkind]
  obtain ⟨hcomm, hshared⟩ := hoverlaps named pet _ _ hnamed hpet hnamedComposite hcomposite
  have hmem : diagnostic ∈ ((⟨source.operations.map .operation⟩ : Document).reportsAt schema
      (.only .possibleFragmentSpreads) [] 7).filter (·.problem.code = .possibleSpreads) := by
    simp [hdiagnostic, hcode]
  obtain ⟨-, step, fragment, condition, position, type, parent, hstep, hspread, htype, -, hparent, -,
    hnone, heq⟩ := ((hspreads _ [] (.only .possibleFragmentSpreads) 7).2 diagnostic).mp hmem
  refine ⟨_, declarations, schema, named, pet, _, diagnostic, hread, hkinds.extensionsFit, hschema,
    hnamed, hpet, (hinterfaces _ named hnamed hkind "Dog").mp hdog, hcomm, fun hsame => ?_,
    (List.mem_filter.mp hmem).1, step, type, parent, hstep, hparent, hnone⟩
  rw [hshared.mpr (.inr hsame)] at hapart
  cases hapart

end QueryAudit
