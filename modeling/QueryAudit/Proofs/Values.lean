import QueryAudit.Proofs.Subtyping
import QueryAudit.Proofs.Tables
import QueryAudit.Value.Check

/-!
# Which values a type accepts

Whether a judgement finds a fault does not depend on the path that it is given, so a type accepts a
value or it does not. A value accepted at a type is accepted at every type that the first is a
subtype of; so is a variable, through the value supplied for it. What a supplied variable can change
in the judgement of a literal is said by the list of the places where the literal leads to the
judgement of a variable.
-/

namespace QueryAudit

namespace Value

variable {ν : Type}

/-- Induction on values: a list by its items, an object by the values of its fields. -/
@[elab_as_elim]
theorem induction {motive : Value ν → Prop} (var : ∀ x, motive (.var x)) (null : motive .null)
    (number : ∀ n, motive (.number n)) (string : ∀ s, motive (.string s))
    (boolean : ∀ b, motive (.boolean b)) (enum : ∀ e, motive (.enum e))
    (list : ∀ items, (∀ item ∈ items, motive item) → motive (.list items))
    (object : ∀ fields, (∀ field ∈ fields, motive field.2) → motive (.object fields))
    (value : Value ν) : motive value :=
  @Value.rec ν motive (fun items => ∀ item ∈ items, motive item)
    (fun fields => ∀ field ∈ fields, motive field.2) (fun field => motive field.2)
    var null number string boolean enum list object
    (fun _ hmem => absurd hmem List.not_mem_nil)
    (fun _ _ hfirst hrest => List.forall_mem_cons.mpr ⟨hfirst, hrest⟩)
    (fun _ hmem => absurd hmem List.not_mem_nil)
    (fun _ _ hfirst hrest => List.forall_mem_cons.mpr ⟨hfirst, hrest⟩)
    (fun _ _ hvalue => hvalue) value

/-! ## Replacing variables -/

theorem bindItems_eq_map {μ : Type} (replace : ν → Value μ) (items : List (Value ν)) :
    bindItems replace items = items.map (bind replace) := by
  induction items with
  | nil => rfl
  | cons item rest ih => simp [bindItems, ih]

theorem bindFields_eq_map {μ : Type} (replace : ν → Value μ) (fields : List (Name × Value ν)) :
    bindFields replace fields = fields.map fun field => (field.1, bind replace field.2) := by
  induction fields with
  | nil => rfl
  | cons field rest ih => simp [bindFields, ih]

theorem find?_bindFields {μ : Type} (replace : ν → Value μ) (fields : List (Name × Value ν))
    (name : Name) :
    NameTable.find? (bindFields replace fields) name =
      (NameTable.find? fields name).map (bind replace) := by
  induction fields with
  | nil => rfl
  | cons field rest ih =>
      by_cases hname : field.1 = name
      · simp [bindFields, NameTable.find?, hname]
      · simp [bindFields, NameTable.find?, hname, ih]

/-! ## Judgements and paths -/

/-- Whether a judgement finds a fault does not depend on the path. -/
def PathFree (judgement : Judgement) : Prop :=
  ∀ type path other, judgement type path = none → judgement type other = none

theorem judgeFields_eq_map (schema : Schema) (judgeVar : ν → Judgement)
    (fields : List (Name × Value ν)) :
    judgeFields schema judgeVar fields =
      fields.map fun field => (field.1, judge schema judgeVar field.2) := by
  induction fields with
  | nil => rfl
  | cons field rest ih => simp [judgeFields, ih]

theorem find?_judgeFields (schema : Schema) (judgeVar : ν → Judgement)
    (fields : List (Name × Value ν)) (name : Name) :
    (judgeFields schema judgeVar fields).find? name =
      (NameTable.find? fields name).map (judge schema judgeVar) := by
  induction fields with
  | nil => rfl
  | cons field rest ih =>
      by_cases hname : field.1 = name
      · simp [judgeFields, NameTable.find?, hname]
      · simp [judgeFields, NameTable.find?, hname, ih]

theorem names_judgeFields (schema : Schema) (judgeVar : ν → Judgement)
    (fields : List (Name × Value ν)) :
    (judgeFields schema judgeVar fields).names = NameTable.names fields := by
  rw [judgeFields_eq_map, NameTable.names, List.map_map]
  rfl

theorem judge_null_eq_none_iff (schema : Schema) (judgeVar : ν → Judgement) (type : TypeRef)
    (path : ValuePath) :
    judge schema judgeVar .null type path = none ↔ type.isNonNull = false := by
  rw [judge]
  cases type.isNonNull <;> simp

theorem judgeItems_eq_none_iff (schema : Schema) (judgeVar : ν → Judgement)
    (items : List (Value ν)) (element : TypeRef) (path : ValuePath) (index : Nat) :
    judgeItems schema judgeVar items element path index = none ↔
      ∀ numbered ∈ items.zipIdx index,
        judge schema judgeVar numbered.1 element (path ++ [.item numbered.2]) = none := by
  induction items generalizing index with
  | nil => simp [judgeItems]
  | cons item rest ih =>
      simp only [judgeItems, List.zipIdx_cons, List.forall_mem_cons]
      cases judge schema judgeVar item element (path ++ [.item index]) with
      | none => simp [ih]
      | some fault => simp

/-- An object has no fault at an input object type if its declared fields have none, the required
ones are there, and all others are declared too. -/
theorem judgeObject_eq_none_iff (type : TypeDefinition) (fields : NameTable Judgement)
    (path : ValuePath) :
    judgeObject type fields path = none ↔
      (∀ input ∈ type.inputFields.entries, match fields.find? input.name with
        | some judgement => judgement input.type (path ++ [.field input.name]) = none
        | none => input.isRequired = false) ∧
      ∀ name ∈ fields.names, type.inputFields.has name = true := by
  unfold judgeObject
  have hdeclared : (type.inputFields.entries.findSome? fun input =>
      match fields.find? input.name with
      | some judgement => judgement input.type (path ++ [.field input.name])
      | none => if input.isRequired then some ⟨path, .missingField input.name type.name⟩
          else none) = none ↔
      ∀ input ∈ type.inputFields.entries, match fields.find? input.name with
        | some judgement => judgement input.type (path ++ [.field input.name]) = none
        | none => input.isRequired = false := by
    rw [List.findSome?_eq_none_iff]
    refine forall_congr' fun input => imp_congr_right fun _ => ?_
    cases fields.find? input.name with
    | some judgement => rfl
    | none => cases input.isRequired <;> simp
  rw [← hdeclared]
  dsimp only
  generalize List.findSome? _ _ = declared
  cases declared with
  | some fault => simp
  | none => simp

theorem judgeNamed_pathFree (schema : Schema) (value : Value ν) {fields : NameTable Judgement}
    (hfields : ∀ name judgement, fields.find? name = some judgement → PathFree judgement)
    (name : Name) {path other : ValuePath} (h : judgeNamed schema value fields name path = none) :
    judgeNamed schema value fields name other = none := by
  unfold judgeNamed at h ⊢
  cases htype : schema.type? name with
  | none => rfl
  | some type =>
      simp only [htype] at h ⊢
      cases hkind : type.kind with
      | scalar =>
          simp only [hkind] at h ⊢
          cases hconstant : value.toConstant? with
          | none => rfl
          | some constant =>
              simp only [hconstant] at h ⊢
              cases hconvert : schema.convertScalar name constant with
              | ok converted => rfl
              | error reason => simp [hconvert] at h
      | enum =>
          simp only [hkind] at h ⊢
          cases value <;> simp_all
      | inputObject =>
          simp only [hkind] at h ⊢
          cases value with
          | object inner =>
              simp only at h ⊢
              rw [judgeObject_eq_none_iff] at h ⊢
              refine ⟨fun input hinput => ?_, h.2⟩
              have hinput := h.1 input hinput
              cases hfind : fields.find? input.name with
              | none => simpa [hfind] using hinput
              | some judgement =>
                  simp only [hfind] at hinput
                  exact hfields _ _ hfind _ _ _ hinput
          | _ => simp at h
      | object | interface | union => rfl

/-- The judgement of a value is path free if that of its variables is. -/
theorem judge_pathFree (schema : Schema) {judgeVar : ν → Judgement}
    (hvar : ∀ x, PathFree (judgeVar x)) (value : Value ν) :
    PathFree (judge schema judgeVar value) := by
  have hnone : ∀ name (judgement : Judgement), NameTable.find? [] name = some judgement →
      PathFree judgement := fun _ _ h => by cases h
  induction value using Value.induction with
  | var x => exact hvar x
  | null =>
      intro type path other h
      rw [judge_null_eq_none_iff] at h ⊢
      exact h
  | number n | string s | boolean b | enum e =>
      intro type path other h
      simp only [judge] at h ⊢
      exact judgeNamed_pathFree schema _ hnone _ h
  | list items ih =>
      intro type path other h
      cases type with
      | named name nonNull => exact judgeNamed_pathFree schema _ hnone _ h
      | list element nonNull =>
          refine (judgeItems_eq_none_iff ..).mpr fun numbered hnumbered => ?_
          have hitem : numbered.1 ∈ items := List.fst_mem_of_mem_zipIdx hnumbered
          exact ih numbered.1 hitem _ _ _ ((judgeItems_eq_none_iff ..).mp h numbered hnumbered)
  | object fields ih =>
      intro type path other h
      refine judgeNamed_pathFree schema _ ?_ _ h
      intro name judgement hfind
      rw [find?_judgeFields] at hfind
      obtain ⟨value, hvalue, rfl⟩ := Option.map_eq_some_iff.mp hfind
      exact ih _ (NameTable.mem_of_find? hvalue)

/-- A type accepts a value, the variables in it as their judgement has it. -/
def Accepts (schema : Schema) (judgeVar : ν → Judgement) (value : Value ν) (type : TypeRef) :
    Prop :=
  judge schema judgeVar value type [] = none

theorem accepts_iff {schema : Schema} {judgeVar : ν → Judgement}
    (hvar : ∀ x, PathFree (judgeVar x)) (value : Value ν) (type : TypeRef) (path : ValuePath) :
    judge schema judgeVar value type path = none ↔ Accepts schema judgeVar value type :=
  ⟨judge_pathFree schema hvar value type path [], judge_pathFree schema hvar value type [] path⟩

theorem accepts_list_iff {schema : Schema} {judgeVar : ν → Judgement}
    (hvar : ∀ x, PathFree (judgeVar x)) (items : List (Value ν)) (element : TypeRef)
    (nonNull : Bool) :
    Accepts schema judgeVar (.list items) (.list element nonNull) ↔
      ∀ item ∈ items, Accepts schema judgeVar item element := by
  refine (judgeItems_eq_none_iff ..).trans ?_
  constructor
  · intro h item hitem
    obtain ⟨index, hindex, rfl⟩ := List.mem_iff_getElem.mp hitem
    have hnumbered : (items[index], index) ∈ items.zipIdx :=
      List.mem_zipIdx_iff_getElem?.mpr (List.getElem?_eq_getElem hindex)
    exact (accepts_iff hvar _ _ _).mp (h _ hnumbered)
  · intro h numbered hnumbered
    exact (accepts_iff hvar _ _ _).mpr (h _ (List.fst_mem_of_mem_zipIdx hnumbered))

/-! ## Values and subtypes -/

/-- Where a judgement finds no fault at a type, it finds none at any type above. -/
def Rises (schema : Schema) (judgement : Judgement) : Prop :=
  ∀ {sub super : TypeRef}, schema.isSubtype sub super = true → ∀ {path : ValuePath},
    judgement sub path = none → judgement super path = none

theorem judgeNamed_of_isAbstract (schema : Schema) (value : Value ν)
    (fields : NameTable Judgement) {name : Name} {type : TypeDefinition}
    (htype : schema.type? name = some type) (habstract : type.isAbstract = true)
    (path : ValuePath) : judgeNamed schema value fields name path = none := by
  cases hkind : type.kind <;> simp [TypeDefinition.isAbstract, hkind] at habstract
  · simp [judgeNamed, htype, hkind]
  · simp [judgeNamed, htype, hkind]

/-- At the core a type above has the same name, or it is abstract and judges nothing. -/
theorem judgeNamed_rises {schema : Schema} (value : Value ν) (fields : NameTable Judgement) :
    Rises schema fun type path => judgeNamed schema value fields type.concreteName path := by
  intro sub super hsub path h
  dsimp only at h ⊢
  rcases Schema.concreteName_of_isSubtype hsub with hname | hsatisfies
  · rwa [← hname]
  · obtain ⟨type, htype, habstract⟩ := hsatisfies.abstract
    exact judgeNamed_of_isAbstract schema value fields htype habstract path

theorem judge_rises {schema : Schema} {judgeVar : ν → Judgement}
    (hvar : ∀ x, Rises schema (judgeVar x)) (value : Value ν) :
    Rises schema (judge schema judgeVar value) := by
  induction value using Value.induction with
  | var x => exact hvar x
  | null =>
      intro sub super hsub path h
      rw [judge_null_eq_none_iff] at h ⊢
      have hmark := mt (Schema.nonNull_of_isSubtype hsub)
      simpa [h] using hmark
  | number n | string s | boolean b | enum e =>
      intro sub super hsub path h
      simp only [judge] at h ⊢
      exact judgeNamed_rises _ [] hsub h
  | list items ih =>
      intro sub super hsub path h
      cases sub with
      | named name nonNull =>
          cases super with
          | named above other => exact judgeNamed_rises _ [] hsub h
          | list element other => cases hsub
      | list element nonNull =>
          cases super with
          | named above other => cases hsub
          | list above other =>
              have hbelow := (Schema.isSubtype_list_iff.mp hsub).2
              refine (judgeItems_eq_none_iff ..).mpr fun numbered hnumbered => ?_
              have hitem : numbered.1 ∈ items := List.fst_mem_of_mem_zipIdx hnumbered
              exact ih numbered.1 hitem hbelow ((judgeItems_eq_none_iff ..).mp h numbered hnumbered)
  | object fields _ =>
      intro sub super hsub path h
      simp only [judge] at h ⊢
      exact judgeNamed_rises _ _ hsub h

/-- Whether the type admits null matters to null alone, and to what a variable stands for. -/
theorem judge_nullable (schema : Schema) (judgeVar : ν → Judgement) {value : Value ν}
    (hnull : value ≠ .null) (hvar : ∀ x, value ≠ .var x) (type : TypeRef) :
    judge schema judgeVar value type.nullable = judge schema judgeVar value type := by
  cases value with
  | var x => exact absurd rfl (hvar x)
  | null => exact absurd rfl hnull
  | number n | string s | boolean b | enum e | list items | object fields => cases type <;> rfl

/-- A variable that is allowed at a place can stand there with every value other than null that its
own type accepts. -/
theorem judge_of_allowsVariable {schema : Schema} {judgeVar : ν → Judgement}
    (hrises : ∀ x, Rises schema (judgeVar x)) {declared place : TypeRef}
    {default : Option Constant} {placeHasDefault : Bool}
    (hallowed : schema.allowsVariable declared default place placeHasDefault = true)
    {value : Value ν} (hnull : value ≠ .null) (hvar : ∀ x, value ≠ .var x) {path : ValuePath}
    (h : judge schema judgeVar value declared path = none) :
    judge schema judgeVar value place path = none := by
  rcases Schema.allowsVariable_iff.mp hallowed with hsub | ⟨-, -, hsub, -⟩
  · exact judge_rises hrises value hsub h
  · rw [← judge_nullable schema judgeVar hnull hvar]
    exact judge_rises hrises value hsub h

theorem empty_pathFree : ∀ x : Empty, PathFree (Empty.elim x) := fun x => x.elim

theorem empty_rises (schema : Schema) : ∀ x : Empty, Rises schema (Empty.elim x) := fun x => x.elim

theorem accepts_of_allowsVariable {schema : Schema} {declared place : TypeRef}
    {default : Option Constant} {placeHasDefault : Bool}
    (hallowed : schema.allowsVariable declared default place placeHasDefault = true)
    {constant : Constant} (hnull : constant.isNull = false)
    (h : Accepts schema Empty.elim constant declared) :
    Accepts schema Empty.elim constant place := by
  refine judge_of_allowsVariable (empty_rises schema) hallowed ?_ (fun x => x.elim) h
  rintro rfl
  cases hnull

/-- What is supplied for a variable is accepted at a type above if it is below. -/
theorem judgeSupplied_rises (schema : Schema) (supplied : Variables) (name : Name) :
    Rises schema (judgeSupplied schema supplied name) := by
  intro sub super hsub path h
  unfold judgeSupplied at h ⊢
  cases hfind : supplied.find? name with
  | none => rfl
  | some constant =>
      simp only [hfind] at h ⊢
      exact judge_rises (empty_rises schema) constant hsub h

theorem ofConstant_ne_var (constant : Constant) (x : ν) :
    (ofConstant constant : Value ν) ≠ .var x := by
  cases constant with
  | var y => exact y.elim
  | _ => simp [ofConstant, bind]

theorem ofConstant_ne_null {constant : Constant} (h : constant ≠ .null) :
    (ofConstant constant : Value ν) ≠ .null := by
  cases constant with
  | var y => exact y.elim
  | null => exact absurd rfl h
  | _ => simp [ofConstant, bind]

/-- A literal accepted at a type is accepted at every type above it, its variables through the
values supplied for them. So where a variable may be used at a place, every constant that the type
of the variable accepts is accepted at the place, null only if the place admits it. -/
theorem accepted_above (schema : Schema) (supplied : Variables) (declared place : TypeRef) :
    (schema.isSubtype declared place = true → ∀ (value : Literal) (path : ValuePath),
      value.fault? schema supplied declared path = none →
        value.fault? schema supplied place path = none) ∧
    ∀ default placeHasDefault,
      schema.allowsVariable declared default place placeHasDefault = true →
      (∀ (constant : Constant) (path : ValuePath), constant ≠ .null →
        (ofConstant constant : Literal).fault? schema supplied declared path = none →
          (ofConstant constant : Literal).fault? schema supplied place path = none) ∧
      ∀ path : ValuePath, (null : Literal).fault? schema supplied declared path = none →
        ((null : Literal).fault? schema supplied place path = none ↔
          ¬ (declared.isNonNull = false ∧ place.isNonNull = true)) := by
  have hrises := judgeSupplied_rises schema supplied
  refine ⟨fun hsub value path h => judge_rises hrises value hsub h, ?_⟩
  intro default placeHasDefault hallowed
  refine ⟨fun constant path hnull h => ?_, fun path h => ?_⟩
  · exact judge_of_allowsVariable hrises hallowed (ofConstant_ne_null hnull)
      (ofConstant_ne_var constant) h
  · have hdeclared : declared.isNonNull = false := (judge_null_eq_none_iff ..).mp h
    rw [fault?, judge_null_eq_none_iff]
    simp [hdeclared]

/-- A list of integers with a variable in it, taken from `[Int!]!` to `[Int]`; and a variable of
type `Int` with a default, which may stand at `Int!` but not with null. -/
theorem accepted_above_integers :
    ∃ (schema : Schema) (supplied : Variables) (value : Literal) (path : ValuePath),
      value.fault? schema supplied (.list (.named "Int" true) true) path = none ∧
      value.fault? schema supplied (.list (.named "Int" false) false) path = none ∧
      schema.allowsVariable (.named "Int" false) (some (.number (.integer 1)))
        (.named "Int" true) false = true ∧
      (null : Literal).fault? schema supplied (.named "Int" false) path = none ∧
      (null : Literal).fault? schema supplied (.named "Int" true) path ≠ none := by
  let schema : Schema :=
    { query := "Query", mutation := none, subscription := none,
      types := [("Int", .bare "Int" .scalar)], directives := [], converters := [] }
  let supplied : Variables := [("v", .number (.integer 2))]
  have hlow : fault? schema supplied (.list (.named "Int" true) true)
      (.list [.number (.integer 1), .var "v"]) [.field "a"] = none := by decide +kernel
  have hallowed : schema.allowsVariable (.named "Int" false) (some (.number (.integer 1)))
      (.named "Int" true) false = true := by decide +kernel
  have hlists := accepted_above schema supplied (.list (.named "Int" true) true)
    (.list (.named "Int" false) false)
  have hnames := accepted_above schema supplied (.named "Int" false) (.named "Int" true)
  refine ⟨schema, supplied, _, [.field "a"], hlow, hlists.1 (by decide +kernel) _ _ hlow, hallowed,
    rfl, ?_⟩
  intro hnull
  exact ((hnames.2 _ _ hallowed).2 _ rfl).mp hnull ⟨rfl, rfl⟩

/-! ## Variables in literals -/

/-- A variable in a literal and the type at which its value is judged there. It is tracked if no
object literal around it stands directly at a list type. -/
structure VariablePlace where
  name : Name
  type : TypeRef
  tracked : Bool
deriving DecidableEq, Repr

/-- The places in an object at a named type, given those in its fields. -/
def objectPlaces (schema : Schema) (name : Name)
    (fields : NameTable (TypeRef → List VariablePlace)) : List VariablePlace :=
  match schema.type? name with
  | some type =>
      if type.kind = .inputObject then
        type.inputFields.entries.flatMap fun input =>
          match fields.find? input.name with
          | some places => places input.type
          | none => []
      else []
  | none => []

mutual

def variablePlaces (schema : Schema) : Literal → Bool → TypeRef → List VariablePlace
  | .var x, tracked, type => [⟨x, type, tracked⟩]
  | .list items, tracked, .list element _ => itemPlaces schema items tracked element
  | .object fields, tracked, type =>
      objectPlaces schema type.concreteName
        (fieldPlaces schema fields (tracked && type.element?.isNone))
  | _, _, _ => []

def itemPlaces (schema : Schema) : List Literal → Bool → TypeRef → List VariablePlace
  | [], _, _ => []
  | item :: rest, tracked, element =>
      variablePlaces schema item tracked element ++ itemPlaces schema rest tracked element

def fieldPlaces (schema : Schema) :
    List (Name × Literal) → Bool → NameTable (TypeRef → List VariablePlace)
  | [], _ => []
  | (name, value) :: rest, tracked =>
      (name, variablePlaces schema value tracked) :: fieldPlaces schema rest tracked

end

theorem mem_itemPlaces {schema : Schema} {items : List Literal} {tracked : Bool}
    {element : TypeRef} {place : VariablePlace} :
    place ∈ itemPlaces schema items tracked element ↔
      ∃ item ∈ items, place ∈ variablePlaces schema item tracked element := by
  induction items with
  | nil => simp [itemPlaces]
  | cons item rest ih => simp [itemPlaces, ih]

theorem find?_fieldPlaces (schema : Schema) (fields : List (Name × Literal)) (tracked : Bool)
    (name : Name) :
    (fieldPlaces schema fields tracked).find? name =
      (NameTable.find? fields name).map fun value => variablePlaces schema value tracked := by
  induction fields with
  | nil => rfl
  | cons field rest ih =>
      by_cases hname : field.1 = name
      · simp [fieldPlaces, NameTable.find?, hname]
      · simp [fieldPlaces, NameTable.find?, hname, ih]

/-- A place in an object is one in a field that its type declares. -/
theorem mem_places_object {schema : Schema} {fields : List (Name × Literal)} {tracked : Bool}
    {type : TypeRef} {place : VariablePlace} :
    place ∈ variablePlaces schema (.object fields) tracked type ↔
      ∃ definition, schema.type? type.concreteName = some definition ∧
        definition.kind = .inputObject ∧ ∃ input ∈ definition.inputFields.entries, ∃ value,
          NameTable.find? fields input.name = some value ∧
          place ∈ variablePlaces schema value (tracked && type.element?.isNone) input.type := by
  rw [variablePlaces, objectPlaces]
  cases htype : schema.type? type.concreteName with
  | none => simp
  | some definition =>
      by_cases hkind : definition.kind = .inputObject
      · simp only [hkind, if_true, List.mem_flatMap, find?_fieldPlaces, Option.some.injEq,
          exists_eq_left', true_and]
        refine exists_congr fun input => and_congr_right fun _ => ?_
        cases NameTable.find? fields input.name with
        | none => simp
        | some value => simp
      · simp [hkind]

theorem judgeNamed_fields_eq {schema : Schema} {name : Name}
    (hname : ∀ type, schema.type? name = some type → type.kind ≠ .inputObject) (value : Value ν)
    (fields others : NameTable Judgement) (path : ValuePath) :
    judgeNamed schema value fields name path = judgeNamed schema value others name path := by
  unfold judgeNamed
  cases htype : schema.type? name with
  | none => rfl
  | some type =>
      cases hkind : type.kind with
      | inputObject => exact absurd hkind (hname type htype)
      | scalar | object | interface | union | enum => simp [hkind]

theorem accepts_object_iff {schema : Schema} {judgeVar : ν → Judgement}
    (hvar : ∀ x, PathFree (judgeVar x)) {fields : List (Name × Value ν)} {type : TypeRef}
    {definition : TypeDefinition} (htype : schema.type? type.concreteName = some definition)
    (hkind : definition.kind = .inputObject) :
    Accepts schema judgeVar (.object fields) type ↔
      (∀ input ∈ definition.inputFields.entries,
        match NameTable.find? fields input.name with
        | some value => Accepts schema judgeVar value input.type
        | none => input.isRequired = false) ∧
      ∀ name ∈ NameTable.names fields, definition.inputFields.has name = true := by
  have hnamed : Accepts schema judgeVar (.object fields) type ↔
      judgeObject definition (judgeFields schema judgeVar fields) [] = none := by
    simp only [Accepts, judge, judgeNamed, htype, hkind]
  simp only [hnamed, judgeObject_eq_none_iff, find?_judgeFields, names_judgeFields]
  refine and_congr_left fun _ => forall_congr' fun input => imp_congr_right fun _ => ?_
  cases NameTable.find? fields input.name with
  | none => rfl
  | some value => exact accepts_iff hvar value input.type _

def unjudged : Name → Judgement := fun _ _ _ => none

theorem unjudged_pathFree : ∀ x, PathFree (unjudged x) := fun _ _ _ _ _ => rfl

/-- A literal is accepted if it is accepted with its variables left unjudged, and the variables are
accepted where they come to be judged. -/
theorem accepts_iff_places {schema : Schema} {judgeVar : Name → Judgement}
    (hvar : ∀ x, PathFree (judgeVar x)) (value : Literal) (tracked : Bool) (type : TypeRef) :
    Accepts schema judgeVar value type ↔
      Accepts schema unjudged value type ∧
        ∀ place ∈ variablePlaces schema value tracked type,
          judgeVar place.name place.type [] = none := by
  induction value using Value.induction generalizing tracked type with
  | var x => simp [Accepts, judge, unjudged, variablePlaces]
  | null | number n | string s | boolean b | enum e => simp [Accepts, judge, variablePlaces]
  | list items ih =>
      cases type with
      | named name nonNull => simp [Accepts, judge, variablePlaces]
      | list element nonNull =>
          simp only [accepts_list_iff hvar, accepts_list_iff unjudged_pathFree, variablePlaces,
            mem_itemPlaces]
          constructor
          · intro h
            refine ⟨fun item hitem => ((ih item hitem tracked element).mp (h item hitem)).1, ?_⟩
            rintro place ⟨item, hitem, hplace⟩
            exact ((ih item hitem tracked element).mp (h item hitem)).2 place hplace
          · rintro ⟨hshape, hplaces⟩ item hitem
            exact (ih item hitem tracked element).mpr
              ⟨hshape item hitem, fun place hplace => hplaces place ⟨item, hitem, hplace⟩⟩
  | object fields ih =>
      by_cases hdefinition : ∃ definition, schema.type? type.concreteName = some definition ∧
          definition.kind = .inputObject
      · obtain ⟨definition, htype, hkind⟩ := hdefinition
        have hfield : ∀ {name : Name} {value : Literal}, NameTable.find? fields name = some value →
            ∀ other, Accepts schema judgeVar value other ↔ Accepts schema unjudged value other ∧
              ∀ place ∈ variablePlaces schema value (tracked && type.element?.isNone) other,
                judgeVar place.name place.type [] = none := by
          intro name value hvalue other
          exact ih (name, value) (NameTable.mem_of_find? hvalue) _ other
        simp only [accepts_object_iff hvar htype hkind,
          accepts_object_iff unjudged_pathFree htype hkind, mem_places_object]
        constructor
        · rintro ⟨hinputs, hnames⟩
          refine ⟨⟨fun input hinput => ?_, hnames⟩, ?_⟩
          · have hinput := hinputs input hinput
            cases hvalue : NameTable.find? fields input.name with
            | none => simpa [hvalue] using hinput
            | some value =>
                simp only [hvalue] at hinput
                exact ((hfield hvalue input.type).mp hinput).1
          · rintro place ⟨other, hother, -, input, hinput, value, hvalue, hplace⟩
            rw [htype] at hother
            cases hother
            have hinput := hinputs input hinput
            simp only [hvalue] at hinput
            exact ((hfield hvalue input.type).mp hinput).2 place hplace
        · rintro ⟨⟨hinputs, hnames⟩, hplaces⟩
          refine ⟨fun input hinput => ?_, hnames⟩
          have hshape := hinputs input hinput
          cases hvalue : NameTable.find? fields input.name with
          | none => simpa [hvalue] using hshape
          | some value =>
              simp only [hvalue] at hshape
              exact (hfield hvalue input.type).mpr ⟨hshape, fun place hplace =>
                hplaces place ⟨definition, htype, hkind, input, hinput, value, hvalue, hplace⟩⟩
      · have hother : ∀ definition, schema.type? type.concreteName = some definition →
            definition.kind ≠ .inputObject := fun definition htype hkind =>
          hdefinition ⟨definition, htype, hkind⟩
        have hnone : ∀ place, place ∉ variablePlaces schema (.object fields) tracked type := by
          intro place hplace
          obtain ⟨definition, htype, hkind, -⟩ := mem_places_object.mp hplace
          exact hother definition htype hkind
        have hsame : Accepts schema judgeVar (.object fields) type ↔
            Accepts schema unjudged (.object fields) type := by
          simp only [Accepts, judge, judgeNamed_fields_eq hother _
            (judgeFields schema judgeVar fields) (judgeFields schema unjudged fields)]
        rw [hsame]
        exact ⟨fun h => ⟨h, fun place hplace => absurd hplace (hnone place)⟩, fun h => h.1⟩

end Value

end QueryAudit
