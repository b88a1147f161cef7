import Mathlib.Data.List.Forall2
import Mathlib.Data.List.Nodup
import QueryAudit.Proofs.Suggestions
import QueryAudit.Rule.Fields

/-!
# Sorting forgets the order

Where the order of a table could show, what is read from it is sorted by an order that tells all its
items apart: suggestions by distance and name, object types by name, definitions of a source by
position. So the result does not depend on the order in which the items came.
-/

namespace QueryAudit

/-- Lists with the same items are the same once they are sorted, if no two different items of them
are each before the other. -/
theorem mergeSort_eq_of_perm {α : Type} {le : α → α → Bool} {first second : List α}
    (h : first.Perm second) (htrans : ∀ a b c, le a b → le b c → le a c)
    (htotal : ∀ a b, le a b || le b a)
    (hantisymm : ∀ a ∈ first, ∀ b ∈ first, le a b → le b a → a = b) :
    first.mergeSort le = second.mergeSort le := by
  have hperm : (first.mergeSort le).Perm (second.mergeSort le) :=
    (List.mergeSort_perm first le).trans (h.trans (List.mergeSort_perm second le).symm)
  refine List.Perm.eq_of_pairwise ?_ (List.pairwise_mergeSort htrans htotal first)
    (List.pairwise_mergeSort htrans htotal second) hperm
  intro a b ha hb
  exact hantisymm a (List.mem_mergeSort.mp ha) b (h.mem_iff.mpr (List.mem_mergeSort.mp hb))

def sortNames (names : List Name) : List Name := names.mergeSort fun a b => a ≤ b

theorem sortNames_eq_of_perm {first second : List Name} (h : first.Perm second) :
    sortNames first = sortNames second := by
  apply mergeSort_eq_of_perm h
  · intro a b c hab hbc
    simp only [decide_eq_true_eq] at hab hbc ⊢
    exact String.le_trans hab hbc
  · intro a b
    simpa using String.le_total a b
  · intro a _ b _ hab hba
    simp only [decide_eq_true_eq] at hab hba
    exact String.le_antisymm hab hba

theorem sortNames_perm (names : List Name) : (sortNames names).Perm names :=
  List.mergeSort_perm names _

def Schema.typeHasField (schema : Schema) (field name : Name) : Bool :=
  match schema.type? name with
  | some type => type.fields.has field
  | none => false

theorem Checker.typesWithField_eq (schema : Schema) (parent : TypeDefinition) (field : Name) :
    Checker.typesWithField schema parent field =
      sortNames (parent.possibleTypes.filter (schema.typeHasField field)) := rfl

/-- What is suggested does not depend on the order of the options. -/
theorem Suggestion.nearest_eq_of_perm (name : String) {first second : List String}
    (h : first.Perm second) : nearest name first = nearest name second :=
  nearestBy_eq_of_mem_iff fun _ => h.mem_iff

/-! ## The definitions of a source -/

namespace Position

theorem before_iff (p q : Position) :
    p.before q = true ↔ p.line < q.line ∨ (p.line = q.line ∧ p.column ≤ q.column) := by
  simp [before]

theorem before_trans (p q r : Position) (hpq : p.before q) (hqr : q.before r) : p.before r := by
  rw [before_iff] at hpq hqr ⊢
  omega

theorem before_total (p q : Position) : p.before q || q.before p := by
  rw [Bool.or_eq_true, before_iff, before_iff]
  omega

theorem before_antisymm (p q : Position) (hpq : p.before q) (hqp : q.before p) : p = q := by
  rw [before_iff] at hpq hqp
  have hline : p.line = q.line := by omega
  have hcolumn : p.column = q.column := by omega
  cases p
  cases q
  simp_all

end Position

namespace Source

/-- Two sources with the same operations and the same fragments, each in any order. -/
structure Rearranged (a b : Source) : Prop where
  operations : a.operations.Perm b.operations
  fragments : a.fragments.Perm b.fragments

/-- No two definitions of a source start at one place. -/
def PlacesDistinct (source : Source) : Prop :=
  (source.operations.map Operation.position ++ source.fragments.map Fragment.position).Nodup

theorem Rearranged.definitions_eq {a b : Source} (h : a.Rearranged b) (ha : a.PlacesDistinct) :
    a.definitions = b.definitions := by
  have hperm : (a.operations.map Definition.operation ++ a.fragments.map Definition.fragment).Perm
      (b.operations.map Definition.operation ++ b.fragments.map Definition.fragment) :=
    (h.operations.map _).append (h.fragments.map _)
  have hnodup : ((a.operations.map Definition.operation ++
      a.fragments.map Definition.fragment).map Definition.position).Nodup := by
    simpa [PlacesDistinct, Function.comp_def, Definition.position] using ha
  apply mergeSort_eq_of_perm hperm
  · exact fun first second third => Position.before_trans _ _ _
  · exact fun first second => Position.before_total _ _
  · intro first hfirst second hsecond hbefore hafter
    exact List.inj_on_of_nodup_map hnodup hfirst hsecond
      (Position.before_antisymm _ _ hbefore hafter)

end Source

theorem Document.ofSources_eq {a b : List Source} (h : List.Forall₂ Source.Rearranged a b)
    (ha : ∀ source ∈ a, source.PlacesDistinct) : ofSources a = ofSources b := by
  have hfold : ∀ document, a.foldl Document.add document = b.foldl Document.add document := by
    induction h with
    | nil => exact fun _ => rfl
    | cons hsource _ ih =>
        obtain ⟨hfirst, hrest⟩ := List.forall_mem_cons.mp ha
        intro document
        simp only [List.foldl_cons, Document.add, hsource.definitions_eq hfirst]
        exact ih hrest _
  exact hfold Document.empty

end QueryAudit
