import Mathlib.Order.Defs.Unbundled
import QueryAudit.Schema.Basic

/-!
# The order of types

`Schema.isSubtype` orders type references. Among names the order has two levels: an object type may
satisfy an abstract type, and an abstract type satisfies nothing. Marks that exclude null and lists
are compared one by one from the outside. So subtyping is a partial order, each mark and each list
can be taken off by itself, and the same answer comes from comparing for equality first and taking
off the marks then.
-/

namespace QueryAudit

namespace TypeRef

@[simp] theorem nullable_required (t : TypeRef) : t.required.nullable = t.nullable := by
  cases t <;> rfl

end TypeRef

namespace Schema

variable {schema : Schema}

/-! ## Names -/

/-- The first name is that of an object type, and the second that of an abstract type which objects
of the first satisfy. -/
def Satisfies (schema : Schema) (sub super : Name) : Prop :=
  ∃ object abstract, schema.type? sub = some object ∧ schema.type? super = some abstract ∧
    abstract.isAbstract = true ∧ object.isObject = true ∧ abstract.isPossible object.name = true

/-- What is satisfied is abstract, so it is no object type and satisfies nothing itself. -/
theorem Satisfies.not_satisfies {first second third : Name} (h : schema.Satisfies first second) :
    ¬ schema.Satisfies second third := by
  obtain ⟨_, abstract, -, hsecond, habstract, -, -⟩ := h
  rintro ⟨object, _, hobject, -, -, hkind, -⟩
  cases hsecond.symm.trans hobject
  simp only [TypeDefinition.isObject, beq_iff_eq] at hkind
  simp [TypeDefinition.isAbstract, hkind] at habstract

theorem Satisfies.abstract {sub super : Name} (h : schema.Satisfies sub super) :
    ∃ type, schema.type? super = some type ∧ type.isAbstract = true := by
  obtain ⟨_, abstract, -, hsuper, habstract, -, -⟩ := h
  exact ⟨abstract, hsuper, habstract⟩

instance (sub super : Name) : Decidable (schema.Satisfies sub super) :=
  decidable_of_iff
    ((schema.type? sub).any fun object => (schema.type? super).any fun abstract =>
      abstract.isAbstract && (object.isObject && abstract.isPossible object.name))
    (by simp [Satisfies, Option.any_eq_true])

/-! ## One wrapper at a time -/

theorem isSubtype_named_iff {sub super : Name} {subNonNull superNonNull : Bool} :
    schema.isSubtype (.named sub subNonNull) (.named super superNonNull) = true ↔
      (superNonNull = true → subNonNull = true) ∧ (sub = super ∨ schema.Satisfies sub super) := by
  have hmark : (subNonNull || !superNonNull) = true ↔
      (superNonNull = true → subNonNull = true) := by
    cases subNonNull <;> cases superNonNull <;> simp
  rw [isSubtype, Bool.and_eq_true, hmark, Bool.or_eq_true, beq_iff_eq, Satisfies]
  cases schema.type? sub with
  | none => simp
  | some object =>
      cases schema.type? super with
      | none => simp
      | some abstract => simp [and_assoc]

theorem isSubtype_list_iff {sub super : TypeRef} {subNonNull superNonNull : Bool} :
    schema.isSubtype (.list sub subNonNull) (.list super superNonNull) = true ↔
      (superNonNull = true → subNonNull = true) ∧ schema.isSubtype sub super = true := by
  rw [isSubtype, Bool.and_eq_true]
  cases subNonNull <;> cases superNonNull <;> simp

/-- The outermost marks are compared by themselves. -/
theorem isSubtype_eq_nullable (sub super : TypeRef) :
    schema.isSubtype sub super =
      ((sub.isNonNull || !super.isNonNull) && schema.isSubtype sub.nullable super.nullable) := by
  cases sub <;> cases super <;> simp [isSubtype, TypeRef.isNonNull, TypeRef.nullable]

theorem nonNull_of_isSubtype {sub super : TypeRef} (h : schema.isSubtype sub super = true)
    (hsuper : super.isNonNull = true) : sub.isNonNull = true := by
  rw [isSubtype_eq_nullable, hsuper] at h
  simpa using And.left (Bool.and_eq_true_iff.mp h)

theorem concreteName_of_isSubtype {sub super : TypeRef} (h : schema.isSubtype sub super = true) :
    sub.concreteName = super.concreteName ∨
      schema.Satisfies sub.concreteName super.concreteName := by
  induction sub generalizing super with
  | named name nonNull =>
      cases super with
      | named above other => exact (isSubtype_named_iff.mp h).2
      | list element other => cases h
  | list element nonNull ih =>
      cases super with
      | named above other => cases h
      | list above other => exact @ih above (isSubtype_list_iff.mp h).2

/-! ## A partial order -/

theorem isSubtype_refl (type : TypeRef) : schema.isSubtype type type = true := by
  induction type with
  | named name nonNull => exact isSubtype_named_iff.mpr ⟨id, .inl rfl⟩
  | list element nonNull ih => exact isSubtype_list_iff.mpr ⟨id, ih⟩

theorem isSubtype_trans {first second third : TypeRef}
    (hlow : schema.isSubtype first second = true) (hhigh : schema.isSubtype second third = true) :
    schema.isSubtype first third = true := by
  induction first generalizing second third with
  | named a aNonNull =>
      cases second with
      | list element nonNull => cases hlow
      | named b bNonNull =>
          cases third with
          | list element nonNull => cases hhigh
          | named c cNonNull =>
              obtain ⟨hmarkLow, hnameLow⟩ := isSubtype_named_iff.mp hlow
              obtain ⟨hmarkHigh, hnameHigh⟩ := isSubtype_named_iff.mp hhigh
              refine isSubtype_named_iff.mpr ⟨hmarkLow ∘ hmarkHigh, ?_⟩
              -- of two steps up, one at least stays at its name
              rcases hnameLow with rfl | hsatisfies
              · exact hnameHigh
              · rcases hnameHigh with rfl | hagain
                · exact .inr hsatisfies
                · exact absurd hagain hsatisfies.not_satisfies
  | list a aNonNull ih =>
      cases second with
      | named name nonNull => cases hlow
      | list b bNonNull =>
          cases third with
          | named name nonNull => cases hhigh
          | list c cNonNull =>
              obtain ⟨hmarkLow, hlow⟩ := isSubtype_list_iff.mp hlow
              obtain ⟨hmarkHigh, hhigh⟩ := isSubtype_list_iff.mp hhigh
              exact isSubtype_list_iff.mpr ⟨hmarkLow ∘ hmarkHigh, ih hlow hhigh⟩

theorem isSubtype_antisymm {first second : TypeRef} (h : schema.isSubtype first second = true)
    (hback : schema.isSubtype second first = true) : first = second := by
  induction first generalizing second with
  | named a aNonNull =>
      cases second with
      | list element nonNull => cases h
      | named b bNonNull =>
          obtain ⟨hmark, hname⟩ := isSubtype_named_iff.mp h
          obtain ⟨hmarkBack, hnameBack⟩ := isSubtype_named_iff.mp hback
          have hsame : a = b := by
            rcases hname with hsame | hsatisfies
            · exact hsame
            · rcases hnameBack with hsame | hagain
              · exact hsame.symm
              · exact absurd hagain hsatisfies.not_satisfies
          rw [hsame, Bool.eq_iff_iff.mpr ⟨hmarkBack, hmark⟩]
  | list a aNonNull ih =>
      cases second with
      | named name nonNull => cases h
      | list b bNonNull =>
          obtain ⟨hmark, h⟩ := isSubtype_list_iff.mp h
          obtain ⟨hmarkBack, hback⟩ := isSubtype_list_iff.mp hback
          rw [ih h hback, Bool.eq_iff_iff.mpr ⟨hmarkBack, hmark⟩]

instance (schema : Schema) :
    IsPartialOrder TypeRef fun sub super => schema.isSubtype sub super = true where
  refl := isSubtype_refl
  trans _ _ _ := isSubtype_trans
  antisymm _ _ := isSubtype_antisymm

/-! ## Equality first -/

/-- The order by comparing for equality first, then taking the marks off the two types, and only
then looking at lists and names. -/
theorem isSubtype_eq_ite (sub super : TypeRef) :
    schema.isSubtype sub super =
      if sub = super then true
      else if super.isNonNull then
        sub.isNonNull && schema.isSubtype sub.nullable super.nullable
      else if sub.isNonNull then schema.isSubtype sub.nullable super
      else match sub, super with
        | .list subElement _, .list superElement _ => schema.isSubtype subElement superElement
        | .named subName _, .named superName _ => decide (schema.Satisfies subName superName)
        | _, _ => false := by
  split
  · rename_i hsame
    rw [hsame, isSubtype_refl]
  · rename_i hother
    split
    · rename_i hsuper
      rw [isSubtype_eq_nullable, hsuper]
      simp
    · rename_i hsuper
      rw [Bool.not_eq_true] at hsuper
      split
      · rename_i hsub
        rw [isSubtype_eq_nullable, hsub, hsuper, TypeRef.nullable_of_not_nonNull hsuper]
        simp
      · rename_i hsub
        rw [Bool.not_eq_true] at hsub
        cases sub with
        | named a aNonNull =>
            cases super with
            | list element nonNull => rfl
            | named b bNonNull =>
                cases hsub
                cases hsuper
                have hname : a ≠ b := fun hsame => hother (by rw [hsame])
                rw [Bool.eq_iff_iff, isSubtype_named_iff, decide_eq_true_iff]
                simp [hname]
        | list a aNonNull =>
            cases super with
            | named name nonNull => rfl
            | list b bNonNull =>
                cases hsub
                cases hsuper
                rw [Bool.eq_iff_iff, isSubtype_list_iff]
                simp

/-! ## Variables at a place -/

theorem allowsVariable_iff {declared place : TypeRef} {default : Option Constant}
    {placeHasDefault : Bool} :
    schema.allowsVariable declared default place placeHasDefault = true ↔
      schema.isSubtype declared place = true ∨
        declared.isNonNull = false ∧ place.isNonNull = true ∧
          schema.isSubtype declared place.nullable = true ∧
          ((∃ value, default = some value ∧ value ≠ .null) ∨ placeHasDefault = true) := by
  unfold allowsVariable
  cases hplace : place.isNonNull with
  | false => simp
  | true =>
      cases hdeclared : declared.isNonNull with
      | true => simp
      | false =>
          -- null at the place is what the variable alone would let in
          have hnot : schema.isSubtype declared place = false := by
            rw [isSubtype_eq_nullable, hplace, hdeclared]
            rfl
          cases default with
          | none => simp [hnot, and_comm]
          | some value => cases value <;> simp [hnot, Value.isNull, and_comm]

end Schema

/-- Subtyping is a partial order on all type references, whatever names they have. A list is below a
list if their elements are; of two nullable types, marks on both or on the lower one change nothing,
and one on the upper one alone rules subtyping out. Comparing for equality first and taking off the
marks then decides it too. A variable may be used at a place if its type is below that of the place,
or if it is nullable and the place not, it is below once the place admits null, and there is a
default other than null for the variable or any for the place. -/
theorem subtypes_ordered (schema : Schema) :
    IsPartialOrder TypeRef (fun sub super => schema.isSubtype sub super = true) ∧
    (∀ t u, schema.isSubtype (.list t false) (.list u false) = true ↔
      schema.isSubtype t u = true) ∧
    (∀ t u : TypeRef, t.isNonNull = false → u.isNonNull = false →
      (schema.isSubtype t.required u.required = true ↔ schema.isSubtype t u = true) ∧
      (schema.isSubtype t.required u = true ↔ schema.isSubtype t u = true) ∧
      schema.isSubtype t u.required = false) ∧
    (∀ sub super, schema.isSubtype sub super =
      if sub = super then true
      else if super.isNonNull then
        sub.isNonNull && schema.isSubtype sub.nullable super.nullable
      else if sub.isNonNull then schema.isSubtype sub.nullable super
      else match sub, super with
        | .list subElement _, .list superElement _ => schema.isSubtype subElement superElement
        | .named subName _, .named superName _ => decide (schema.Satisfies subName superName)
        | _, _ => false) ∧
    ∀ declared default place placeHasDefault,
      schema.allowsVariable declared default place placeHasDefault = true ↔
        schema.isSubtype declared place = true ∨
          declared.isNonNull = false ∧ place.isNonNull = true ∧
            schema.isSubtype declared place.nullable = true ∧
            ((∃ value, default = some value ∧ value ≠ .null) ∨ placeHasDefault = true) := by
  refine ⟨inferInstance, fun t u => ?_, fun t u ht hu => ?_, Schema.isSubtype_eq_ite,
    fun _ _ _ _ => Schema.allowsVariable_iff⟩
  · simp [Schema.isSubtype_list_iff]
  · have ht' := TypeRef.nullable_of_not_nonNull ht
    have hu' := TypeRef.nullable_of_not_nonNull hu
    refine ⟨?_, ?_, ?_⟩
    · rw [Schema.isSubtype_eq_nullable, TypeRef.nullable_required, TypeRef.nullable_required, ht',
        hu']
      simp
    · rw [Schema.isSubtype_eq_nullable, TypeRef.nullable_required, ht', hu']
      simp
    · rw [Schema.isSubtype_eq_nullable, ht]
      simp

end QueryAudit
