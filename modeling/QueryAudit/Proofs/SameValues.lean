import QueryAudit.Proofs.Coercion
import QueryAudit.Proofs.Matching

/-!
# Equality of values

Values are equal up to the order of the fields in their objects. Objects are compared from one side
only, by their lengths and by looking each field of the first one up in the second; as long as no
object has two fields of one name, this means that every name has equal values in both, or none. So
equality is an equivalence. Values that are equal as they are written are coerced alike, if the
converters registered with the schema do not tell equal constants apart.
-/

namespace QueryAudit

/-! ## Numbers -/

theorem Double.sameNumber_trans {a b c : Double} (hab : a.sameNumber b = true)
    (hbc : b.sameNumber c = true) : a.sameNumber c = true := by
  simp only [sameNumber, Bool.and_eq_true, Bool.or_eq_true, beq_iff_eq] at hab hbc ⊢
  obtain ⟨⟨hfirst, hexponent⟩, hsign⟩ := hab
  obtain ⟨⟨hsecond, hother⟩, hnext⟩ := hbc
  refine ⟨⟨hfirst.trans hsecond, hexponent.trans hother⟩, ?_⟩
  rcases hsign with hsign | hzero
  · exact hnext.imp hsign.trans hfirst.trans
  · exact .inr hzero

theorem Number.same_trans {a b c : Number} (hab : a.same b = true) (hbc : b.same c = true) :
    a.same c = true := by
  cases a with
  | integer m =>
      cases b with
      | integer n =>
          simp only [same, beq_iff_eq] at hab
          rwa [hab]
      | double y => cases hab
  | double x =>
      cases b with
      | integer n => cases hab
      | double y =>
          cases c with
          | integer k => cases hbc
          | double z => exact Double.sameNumber_trans hab hbc

namespace Value

/-! ## Lists and objects part by part -/

section

variable {ν : Type}

end

variable {ν : Type} [BEq ν] {lax : Bool}

/-! ## An equivalence -/

/-- Two values are equal up to the order of object fields; if `lax`, an enum name equals the string
of the same text. -/
def Same (lax : Bool) (a b : Value ν) : Prop := same lax a b = true

theorem same_var_iff [LawfulBEq ν] {x y : ν} : Same lax (.var x) (.var y) ↔ x = y := beq_iff_eq

theorem same_boolean_iff {t f : Bool} : Same lax (.boolean t : Value ν) (.boolean f) ↔ t = f :=
  beq_iff_eq

theorem same_string_iff {s t : String} : Same lax (.string s : Value ν) (.string t) ↔ s = t :=
  beq_iff_eq

theorem same_enum_iff {e f : Name} : Same lax (.enum e : Value ν) (.enum f) ↔ e = f := beq_iff_eq

theorem same_enum_string_iff {e : Name} {t : String} :
    Same lax (.enum e : Value ν) (.string t) ↔ lax = true ∧ e = t :=
  (Bool.and_eq_true_iff).trans (and_congr_right fun _ => beq_iff_eq)

theorem same_string_enum_iff {s : String} {f : Name} :
    Same lax (.string s : Value ν) (.enum f) ↔ lax = true ∧ s = f :=
  (Bool.and_eq_true_iff).trans (and_congr_right fun _ => beq_iff_eq)

theorem same_list_iff {items others : List (Value ν)} :
    Same lax (.list items) (.list others) ↔ List.Forall₂ (Same lax) items others := by
  change sameItems lax items others = true ↔ _
  induction items generalizing others with
  | nil => cases others <;> simp [sameItems]
  | cons item rest ih =>
      cases others with
      | nil => simp [sameItems]
      | cons other others => simp [sameItems, ih, Same]

theorem same_object_iff {fields others : List (Name × Value ν)} :
    Same lax (.object fields) (.object others) ↔ fields.length = others.length ∧
      ∀ field ∈ fields, ∃ other, NameTable.find? others field.1 = some other ∧
        Same lax field.2 other := by
  have hfields : sameFields lax fields others = true ↔
      ∀ field ∈ fields, ∃ other, NameTable.find? others field.1 = some other ∧
        Same lax field.2 other := by
    induction fields with
    | nil => simp [sameFields]
    | cons field rest ih =>
        rw [sameFields, Bool.and_eq_true, ih, List.forall_mem_cons]
        refine and_congr_left fun _ => ?_
        cases NameTable.find? others field.1 <;> simp [Same]
  change (fields.length == others.length && sameFields lax fields others) = true ↔ _
  rw [Bool.and_eq_true, beq_iff_eq, hfields]

/-- Objects are equal if every name has equal values in both, or none. -/
theorem same_object_iff_find? {fields others : List (Name × Value ν)}
    (hfields : (NameTable.names fields).Nodup) (hothers : (NameTable.names others).Nodup) :
    Same lax (.object fields) (.object others) ↔ ∀ name,
      Option.Rel (Same lax) (NameTable.find? fields name) (NameTable.find? others name) := by
  rw [same_object_iff]
  exact NameTable.matched_iff (r := fun _ => Same lax) hfields hothers

theorem Same.refl [LawfulBEq ν] {value : Value ν} (h : value.keysDistinct = true) :
    Same lax value value := by
  induction value using Value.induction with
  | var x => exact same_var_iff.mpr rfl
  | null => rfl
  | number n => exact n.same_refl
  | string s => exact same_string_iff.mpr rfl
  | boolean b => exact same_boolean_iff.mpr rfl
  | enum e => exact same_enum_iff.mpr rfl
  | list items ih =>
      rw [same_list_iff, List.forall₂_same]
      exact fun item hitem => ih item hitem ((keysDistinct_list items).mp h item hitem)
  | object fields ih =>
      obtain ⟨hnodup, hvalues⟩ := (keysDistinct_object fields).mp h
      rw [same_object_iff]
      exact ⟨rfl, fun field hfield =>
        ⟨field.2, NameTable.find?_of_mem hnodup hfield, ih field hfield (hvalues field hfield)⟩⟩

theorem Same.symm [LawfulBEq ν] {a b : Value ν} (ha : a.keysDistinct = true)
    (hb : b.keysDistinct = true) (h : Same lax a b) : Same lax b a := by
  induction a using Value.induction generalizing b with
  | null =>
      cases b with
      | null => rfl
      | _ => cases h
  | number m =>
      cases b with
      | number n => exact (n.same_symm m).trans h
      | _ => cases h
  | var x =>
      cases b with
      | var y => exact same_var_iff.mpr (same_var_iff.mp h).symm
      | _ => cases h
  | boolean t =>
      cases b with
      | boolean f => exact same_boolean_iff.mpr (same_boolean_iff.mp h).symm
      | _ => cases h
  | string s =>
      cases b with
      | string t => exact same_string_iff.mpr (same_string_iff.mp h).symm
      | enum f => exact same_enum_string_iff.mpr ((same_string_enum_iff.mp h).imp_right Eq.symm)
      | _ => cases h
  | enum e =>
      cases b with
      | string t => exact same_string_enum_iff.mpr ((same_enum_string_iff.mp h).imp_right Eq.symm)
      | enum f => exact same_enum_iff.mpr (same_enum_iff.mp h).symm
      | _ => cases h
  | list items ih =>
      cases b with
      | list others =>
          rw [keysDistinct_list] at ha hb
          rw [same_list_iff] at h ⊢
          exact (forall₂_imp h fun a ha' b hb' => ih a ha' (ha a ha') (hb b hb')).flip
      | _ => cases h
  | object fields ih =>
      cases b with
      | object others =>
          obtain ⟨hfields, hvalues⟩ := (keysDistinct_object fields).mp ha
          obtain ⟨hothers, hothervalues⟩ := (keysDistinct_object others).mp hb
          rw [same_object_iff_find? hfields hothers] at h
          rw [same_object_iff_find? hothers hfields]
          refine fun name => rel_symm (h name) fun a b ha hb => ?_
          have hfield := NameTable.mem_of_find? ha
          exact ih _ hfield (hvalues _ hfield) (hothervalues _ (NameTable.mem_of_find? hb))
      | _ => cases h

theorem Same.trans [LawfulBEq ν] {a b c : Value ν} (hab : Same lax a b) (hbc : Same lax b c) :
    Same lax a c := by
  induction a using Value.induction generalizing b c with
  | null =>
      cases b with
      | null => exact hbc
      | _ => cases hab
  | number m =>
      cases b with
      | number n =>
          cases c with
          | number k => exact Number.same_trans hab hbc
          | _ => cases hbc
      | _ => cases hab
  | var x =>
      cases b with
      | var y =>
          obtain rfl := same_var_iff.mp hab
          exact hbc
      | _ => cases hab
  | boolean t =>
      cases b with
      | boolean f =>
          obtain rfl := same_boolean_iff.mp hab
          exact hbc
      | _ => cases hab
  | string s =>
      cases b with
      | string t =>
          obtain rfl := same_string_iff.mp hab
          exact hbc
      | enum f =>
          obtain ⟨rfl, rfl⟩ := same_string_enum_iff.mp hab
          cases c with
          | string t | enum t => exact hbc
          | _ => cases hbc
      | _ => cases hab
  | enum e =>
      cases b with
      | string t =>
          obtain ⟨rfl, rfl⟩ := same_enum_string_iff.mp hab
          cases c with
          | string t | enum t => exact hbc
          | _ => cases hbc
      | enum f =>
          obtain rfl := same_enum_iff.mp hab
          exact hbc
      | _ => cases hab
  | list items ih =>
      cases b with
      | list others =>
          cases c with
          | list more =>
              rw [same_list_iff] at hab hbc ⊢
              exact forall₂_trans hab hbc fun a ha b c => ih a ha
          | _ => cases hbc
      | _ => cases hab
  | object fields ih =>
      cases b with
      | object others =>
          cases c with
          | object more =>
              rw [same_object_iff] at hab hbc ⊢
              refine ⟨hab.1.trans hbc.1, fun field hfield => ?_⟩
              obtain ⟨other, hother, hsame⟩ := hab.2 field hfield
              obtain ⟨last, hlast, hnext⟩ := hbc.2 _ (NameTable.mem_of_find? hother)
              exact ⟨last, hlast, ih field hfield hsame hnext⟩
          | _ => cases hbc
      | _ => cases hab

/-! ## Values that are written alike -/

/-- Values that are equal as they are written are equal. -/
theorem Same.toLax {a b : Value ν} (h : Same false a b) : Same true a b := by
  induction a using Value.induction generalizing b with
  | var x | null | number n | boolean t => cases b <;> exact h
  | string s =>
      cases b with
      | enum f => cases h
      | _ => exact h
  | enum e =>
      cases b with
      | string t => cases h
      | _ => exact h
  | list items ih =>
      cases b with
      | list others =>
          rw [same_list_iff] at h ⊢
          exact forall₂_imp h fun a ha _ _ => ih a ha
      | _ => cases h
  | object fields ih =>
      cases b with
      | object others =>
          rw [same_object_iff] at h ⊢
          refine ⟨h.1, fun field hfield => ?_⟩
          obtain ⟨other, hother, hsame⟩ := h.2 field hfield
          exact ⟨other, hother, ih field hfield hsame⟩
      | _ => cases h

theorem Same.wrap {a b : Constant} (h : Same lax a b) (type : TypeRef) :
    Same lax (Value.wrap type a) (Value.wrap type b) := by
  induction type with
  | named name nonNull => exact h
  | list element nonNull ih => exact same_list_iff.mpr (.cons ih .nil)

end Value

/-- A converter gives constants in which no object has two fields of one name, if it is given such.
-/
def Converter.KeepsKeys (converter : Converter) : Prop :=
  ∀ value result, value.keysDistinct = true → converter value = .ok result →
    result.keysDistinct = true

/-- A converter does not tell equal constants apart: it refuses both, or gives equal results. -/
def Converter.Uniform (converter : Converter) : Prop :=
  ∀ a b, a.keysDistinct = true → b.keysDistinct = true → Value.Same false a b →
    Option.Rel (Value.Same true) (converter a).toOption (converter b).toOption

namespace Converter

theorem KeepsKeys.rel_self {converter : Converter} (h : converter.KeepsKeys) {value : Constant}
    (hvalue : value.keysDistinct = true) :
    Option.Rel (Value.Same true) (converter value).toOption (converter value).toOption := by
  cases hresult : converter value with
  | error reason => exact .none
  | ok result => exact .some (Value.Same.refl (h value result hvalue hresult))

/-- A converter that refuses lists and objects gets different constants that are equal only in
numbers. -/
theorem uniform_of_numbers {converter : Converter} (hkeys : converter.KeepsKeys)
    (hlist : ∀ items, (converter (.list items)).toOption = none)
    (hobject : ∀ fields, (converter (.object fields)).toOption = none)
    (hnumber : ∀ m n : Number, m.same n = true →
      Option.Rel (Value.Same true) (converter (.number m)).toOption
        (converter (.number n)).toOption) : converter.Uniform := by
  intro a b ha hb h
  have hself := hkeys.rel_self ha
  cases a with
  | var x => exact x.elim
  | null =>
      cases b with
      | null => exact hself
      | _ => cases h
  | number m =>
      cases b with
      | number n => exact hnumber m n h
      | _ => cases h
  | string s =>
      cases b with
      | string t =>
          obtain rfl := Value.same_string_iff.mp h
          exact hself
      | _ => cases h
  | boolean t =>
      cases b with
      | boolean f =>
          obtain rfl := Value.same_boolean_iff.mp h
          exact hself
      | _ => cases h
  | enum e =>
      cases b with
      | enum f =>
          obtain rfl := Value.same_enum_iff.mp h
          exact hself
      | _ => cases h
  | list items =>
      cases b with
      | list others =>
          rw [hlist, hlist]
          exact .none
      | _ => cases h
  | object fields =>
      cases b with
      | object others =>
          rw [hobject, hobject]
          exact .none
      | _ => cases h

end Converter

namespace Scalar

theorem builtin?_keepsKeys {name : Name} {converter : Converter}
    (h : builtin? name = some converter) : Converter.KeepsKeys converter := by
  intro value result _ hresult
  unfold builtin? at h
  split at h
  all_goals cases h
  · unfold int at hresult
    split at hresult
    · split at hresult
      · split at hresult <;> cases hresult
        rfl
      · cases hresult
    · cases hresult
  · unfold float at hresult
    split at hresult <;> cases hresult
    rfl
  · unfold string at hresult
    split at hresult <;> cases hresult
    rfl
  · unfold boolean at hresult
    split at hresult <;> cases hresult
    rfl
  · unfold id at hresult
    split at hresult <;> cases hresult <;> rfl

theorem builtin?_uniform {name : Name} {converter : Converter}
    (h : builtin? name = some converter) : Converter.Uniform converter := by
  have hkeys := builtin?_keepsKeys h
  have hnumber : ∀ m n : Number, m.same n = true →
      Option.Rel (Value.Same true) (converter (.number m)).toOption
        (converter (.number n)).toOption := by
    intro m n hsame
    cases m with
    | integer i =>
        cases n with
        | double y => cases hsame
        | integer j =>
            obtain rfl : i = j := by simpa [Number.same] using hsame
            exact hkeys.rel_self rfl
    | double x =>
        cases n with
        | integer j => cases hsame
        | double y =>
            unfold builtin? at h
            split at h
            all_goals cases h
            · exact .none
            · exact .some hsame
            · exact .none
            · exact .none
            · exact .none
  unfold builtin? at h
  split at h
  all_goals cases h
  all_goals exact Converter.uniform_of_numbers hkeys (fun _ => rfl) (fun _ => rfl) hnumber

end Scalar

namespace Schema

variable {schema : Schema}

/-- The converters registered with a schema give no object two fields of one name. -/
def ConvertersKeepKeys (schema : Schema) : Prop :=
  ∀ name converter, schema.converters.find? name = some converter → converter.KeepsKeys

/-- The converters registered with a schema do not tell equal constants apart. -/
def ConvertersUniform (schema : Schema) : Prop :=
  ∀ name converter, schema.converters.find? name = some converter → converter.Uniform

theorem ConvertersKeepKeys.convertScalar (h : schema.ConvertersKeepKeys) (name : Name) :
    Converter.KeepsKeys (schema.convertScalar name) := by
  unfold Schema.convertScalar
  split
  · rename_i converter hfind
    exact h name converter hfind
  · split
    · rename_i converter hbuiltin
      exact Scalar.builtin?_keepsKeys hbuiltin
    · intro value result hvalue hresult
      cases hresult
      exact hvalue

theorem ConvertersUniform.convertScalar (h : schema.ConvertersUniform) (name : Name) :
    Converter.Uniform (schema.convertScalar name) := by
  unfold Schema.convertScalar
  split
  · rename_i converter hfind
    exact h name converter hfind
  · split
    · rename_i converter hbuiltin
      exact Scalar.builtin?_uniform hbuiltin
    · exact fun a b _ _ hsame => .some hsame.toLax

end Schema

namespace Value

variable {ν : Type} {schema : Schema}

section

variable [BEq ν]

end

end Value

end QueryAudit
