import Mathlib.Data.List.Pairwise
import QueryAudit.Proofs.Merge.Clash

/-!
# Shapes of results

Two result types can stand under one response key just if they have one shape: as many lists around
their cores, null excluded at the same levels, and at the core the same leaf, or none. To have one
shape is an equivalence. So comparing the fields of a response key two by two says whether there is
one shape that all of them have.
-/

namespace QueryAudit

namespace TypeRef

def listDepth : TypeRef → Nat
  | .named _ _ => 0
  | .list element _ => element.listDepth + 1

/-- Whether null is excluded, at each level of a type from the outermost list to the core. -/
def levels : TypeRef → List Bool
  | .named _ nonNull => [nonNull]
  | .list element nonNull => nonNull :: element.levels

theorem length_levels (type : TypeRef) : type.levels.length = type.listDepth + 1 := by
  induction type with
  | named name nonNull => rfl
  | list element nonNull ih => rw [levels, List.length_cons, ih, listDepth]

theorem listDepth_eq_of_levels {a b : TypeRef} (h : a.levels = b.levels) :
    a.listDepth = b.listDepth := by
  have hlength := congrArg List.length h
  rw [length_levels, length_levels] at hlength
  omega

end TypeRef

structure Shape where
  /-- Whether null is excluded, from the outermost list to the core. -/
  levels : List Bool
  /-- The leaf type at the core; none if the results have fields, or if the type is not known. -/
  leaf : Option Name
deriving Inhabited

namespace Schema

variable {schema : Schema}

/-- The shape of the results of a type. -/
def shapeOf (schema : Schema) (type : TypeRef) : Shape where
  levels := type.levels
  leaf := if schema.isLeafName type.concreteName then some type.concreteName else none

theorem leaf_eq_iff {first second : Name} :
    ((if schema.isLeafName first then some first else none) =
        if schema.isLeafName second then some second else none) ↔
      first = second ∨ (schema.isLeafName first = false ∧ schema.isLeafName second = false) := by
  cases hfirst : schema.isLeafName first <;> cases hsecond : schema.isLeafName second
  · simp
  · simp only [Bool.false_eq_true, if_false, if_true, reduceCtorEq, and_false, or_false, false_iff]
    rintro rfl
    rw [hfirst] at hsecond
    cases hsecond
  · simp only [Bool.false_eq_true, if_false, if_true, reduceCtorEq, and_true, or_false, false_iff]
    rintro rfl
    rw [hfirst] at hsecond
    cases hsecond
  · simp

theorem shapeOf_eq_iff {a b : TypeRef} :
    schema.shapeOf a = schema.shapeOf b ↔ a.levels = b.levels ∧
      (a.concreteName = b.concreteName ∨
        (schema.isLeafName a.concreteName = false ∧ schema.isLeafName b.concreteName = false)) := by
  rw [shapeOf, shapeOf, Shape.mk.injEq, leaf_eq_iff]

/-- The recursion compares the levels one by one, and the names at the core. -/
theorem typesConflict_eq_false_iff {a b : TypeRef} :
    schema.typesConflict a b = false ↔ schema.shapeOf a = schema.shapeOf b := by
  rw [shapeOf_eq_iff]
  induction a generalizing b with
  | named first firstNonNull =>
      cases b with
      | named second secondNonNull =>
          simp only [typesConflict, TypeRef.levels, TypeRef.concreteName, Bool.or_eq_false_iff,
            bne_eq_false_iff_eq, Bool.and_eq_false_iff, List.cons.injEq, and_true]
          rw [or_comm]
      | list element nonNull =>
          have hlevels : (TypeRef.named first firstNonNull).levels ≠
              (TypeRef.list element nonNull).levels := by
            intro h
            have hdepth := TypeRef.listDepth_eq_of_levels h
            simp [TypeRef.listDepth] at hdepth
          simp [typesConflict, hlevels]
  | list element nonNull ih =>
      cases b with
      | named second secondNonNull =>
          have hlevels : (TypeRef.list element nonNull).levels ≠
              (TypeRef.named second secondNonNull).levels := by
            intro h
            have hdepth := TypeRef.listDepth_eq_of_levels h
            simp [TypeRef.listDepth] at hdepth
          simp [typesConflict, hlevels]
      | list other otherNonNull =>
          simp only [typesConflict, TypeRef.levels, TypeRef.concreteName, Bool.or_eq_false_iff,
            bne_eq_false_iff_eq, List.cons.injEq, ih, and_assoc]

end Schema

/-- Items that agree two by two, as far as they have something to compare, all have the same. -/
theorem pairwise_agree_iff {α β : Type} [Inhabited β] (given : α → Option β) (items : List α) :
    items.Pairwise (fun a b => ∀ x y, given a = some x → given b = some y → x = y) ↔
      ∃ common, ∀ item ∈ items, ∀ x, given item = some x → x = common := by
  constructor
  · intro h
    by_cases hsome : ∃ item ∈ items, ∃ common, given item = some common
    · obtain ⟨item, hitem, common, hcommon⟩ := hsome
      have hsymm : Std.Symm fun a b => ∀ x y, given a = some x → given b = some y → x = y :=
        ⟨fun a b hab x y hx hy => (hab y x hy hx).symm⟩
      have hall := h.forall_of_forall fun a _ x y hx hy => Option.some.inj (hx.symm.trans hy)
      exact ⟨common, fun other hother x hx => hall hother hitem x common hx hcommon⟩
    · exact ⟨default, fun item hitem x hx => absurd ⟨item, hitem, x, hx⟩ hsome⟩
  · rintro ⟨common, hcommon⟩
    refine List.pairwise_of_forall_mem_list fun a ha b hb x y hx hy => ?_
    rw [hcommon a ha x hx, hcommon b hb y hy]

namespace Merge

/-- The comparisons of the fields of a key are those of each field with each later one. -/
theorem forall_pairwise_iff {key : Name} {entries : List Entry} {p : Entry → Entry → Prop} :
    (∀ a b, Task.fields key false a b ∈ pairwise key entries → p a b) ↔ entries.Pairwise p := by
  induction entries with
  | nil => simp [pairwise]
  | cons entry rest ih =>
      rw [List.pairwise_cons, ← ih]
      simp only [pairwise, List.mem_append, List.mem_map, Task.fields.injEq, true_and]
      constructor
      · intro h
        exact ⟨fun other hother => h entry other (.inl ⟨other, hother, rfl, rfl⟩),
          fun a b hmem => h a b (.inr hmem)⟩
      · rintro ⟨hfirst, hrest⟩ a b (⟨other, hother, rfl, rfl⟩ | hmem)
        · exact hfirst other hother
        · exact hrest a b hmem

/-- The shape of the results of a field, if its definition is known. -/
def Entry.shape? (schema : Schema) (entry : Entry) : Option Shape :=
  entry.definition.map fun definition => schema.shapeOf definition.type

/-- Of fields that are never both present only the shapes are compared. -/
theorem directReason?_exclusive_eq_none_iff {schema : Schema} {a b : Entry} :
    directReason? schema true a b = none ↔
      ∀ first second, a.shape? schema = some first → b.shape? schema = some second →
        first = second := by
  rw [directReason?_eq_none_iff]
  simp only [Schema.typesConflict_eq_false_iff, Entry.shape?, Option.map_eq_some_iff]
  constructor
  · rintro ⟨-, h⟩ _ _ ⟨first, hfirst, rfl⟩ ⟨second, hsecond, rfl⟩
    exact h first second hfirst hsecond
  · intro h
    exact ⟨nofun, fun first second hfirst hsecond =>
      h _ _ ⟨first, hfirst, rfl⟩ ⟨second, hsecond, rfl⟩⟩

end Merge

/-- Whether two types can stand under one response key, in any schema and for any types. It is an
equivalence. It holds just if the types have as many lists, null excluded at the same levels, and at
the core one name or two names that are no leaf types of the schema. So types that are compared two
by two without a conflict have one shape, and so do the fields of a response key whose definitions
are known. -/
theorem response_shapes_agree (schema : Schema) :
    Equivalence (fun a b : TypeRef => schema.typesConflict a b = false) ∧
    (∀ a b : TypeRef, schema.typesConflict a b = false ↔
      a.listDepth = b.listDepth ∧ a.levels = b.levels ∧
        (a.concreteName = b.concreteName ∨
          (schema.isLeafName a.concreteName = false ∧
            schema.isLeafName b.concreteName = false))) ∧
    (∀ types : List TypeRef, types.Pairwise (fun a b => schema.typesConflict a b = false) ↔
      ∃ shape, ∀ type ∈ types, schema.shapeOf type = shape) ∧
    ∀ (key : Name) (entries : List Merge.Entry),
      (∀ a b, Merge.Task.fields key false a b ∈ Merge.pairwise key entries →
        Merge.directReason? schema true a b = none) ↔
      ∃ shape, ∀ entry ∈ entries, ∀ definition, entry.definition = some definition →
        schema.shapeOf definition.type = shape := by
  simp only [Schema.typesConflict_eq_false_iff]
  refine ⟨⟨fun _ => rfl, Eq.symm, Eq.trans⟩, fun a b => ?_, fun types => ?_, fun key entries => ?_⟩
  · rw [Schema.shapeOf_eq_iff]
    exact ⟨fun h => ⟨TypeRef.listDepth_eq_of_levels h.1, h⟩, And.right⟩
  · simpa using pairwise_agree_iff (fun type => some (schema.shapeOf type)) types
  · rw [Merge.forall_pairwise_iff]
    simp only [Merge.directReason?_exclusive_eq_none_iff]
    rw [pairwise_agree_iff (Merge.Entry.shape? schema)]
    refine exists_congr fun shape => forall₂_congr fun entry _ => ?_
    simp [Merge.Entry.shape?]

end QueryAudit
