import QueryAudit.Proofs.Values

/-!
# Supplied variables as substitution

A variable is judged through the value supplied for it. So a literal should be judged like the
literal with its supplied variables replaced, and it is, but for one thing: a list or an object at a
scalar type is judged only if it holds no variable, and its variables are not replaced for that. The
refusals that are lost there are `withheld`. The judgement of a literal and of the literal with its
variables replaced go the same way through lists and input objects, and part at these refusals only.
-/

namespace QueryAudit

namespace Value

variable {ν μ : Type}

/-! ## Literals with their variables replaced -/

/-- The literal with every variable that has a supplied value replaced by that value. -/
def substitute (supplied : Variables) (value : Literal) : Literal :=
  value.bind fun name =>
    match supplied.find? name with
    | some constant => ofConstant constant
    | none => .var name

theorem substitute_list (supplied : Variables) (items : List Literal) :
    substitute supplied (.list items) = .list (items.map (substitute supplied)) := by
  rw [substitute, bind, bindItems_eq_map]
  rfl

theorem substitute_object (supplied : Variables) (fields : List (Name × Literal)) :
    substitute supplied (.object fields) =
      .object (fields.map fun field => (field.1, field.2.substitute supplied)) := by
  rw [substitute, bind, bindFields_eq_map]
  rfl

theorem itemsToConstant?_map {α : Type} {literal : α → Value ν} {constant : α → Constant}
    {items : List α} (h : ∀ item ∈ items, (literal item).toConstant? = some (constant item)) :
    itemsToConstant? (items.map literal) = some (items.map constant) := by
  induction items with
  | nil => rfl
  | cons item rest ih =>
      obtain ⟨hitem, hrest⟩ := List.forall_mem_cons.mp h
      simp [itemsToConstant?, hitem, ih hrest]

theorem fieldsToConstant?_map {α : Type} {name : α → Name} {literal : α → Value ν}
    {constant : α → Constant} {fields : List α}
    (h : ∀ field ∈ fields, (literal field).toConstant? = some (constant field)) :
    fieldsToConstant? (fields.map fun field => (name field, literal field)) =
      some (fields.map fun field => (name field, constant field)) := by
  induction fields with
  | nil => rfl
  | cons field rest ih =>
      obtain ⟨hfield, hrest⟩ := List.forall_mem_cons.mp h
      simp [fieldsToConstant?, hfield, ih hrest]

@[simp] theorem toConstant?_ofConstant (constant : Constant) :
    (ofConstant constant : Value ν).toConstant? = some constant := by
  unfold ofConstant
  induction constant using Value.induction with
  | var x => exact x.elim
  | null | number n | string s | boolean b | enum e => rfl
  | list items ih =>
      have hitems := itemsToConstant?_map ih
      rw [bind, bindItems_eq_map, toConstant?, hitems]
      simp
  | object fields ih =>
      have hfields : fieldsToConstant? (bindFields (Empty.elim : Empty → Value ν) fields) =
          some (fields.map fun field => (field.1, field.2)) := by
        rw [bindFields_eq_map]
        exact fieldsToConstant?_map ih
      rw [bind, toConstant?, hfields]
      simp

theorem ofConstant_constant (constant : Constant) :
    (ofConstant constant : Constant) = constant := by
  unfold ofConstant
  induction constant using Value.induction with
  | var x => exact x.elim
  | null | number n | string s | boolean b | enum e => rfl
  | list items ih =>
      rw [bind, bindItems_eq_map, List.map_congr_left ih]
      simp
  | object fields ih =>
      have hfields : ∀ field ∈ fields, (field.1, bind Empty.elim field.2) = field :=
        fun field hfield => by rw [ih field hfield]
      rw [bind, bindFields_eq_map, List.map_congr_left hfields]
      simp

theorem toConstant?_constant (constant : Constant) : constant.toConstant? = some constant := by
  have hself : (ofConstant constant : Constant).toConstant? = some constant :=
    toConstant?_ofConstant constant
  rwa [ofConstant_constant] at hself

/-- A value that holds no variable stays the constant that it is. -/
theorem toConstant?_bind (replace : ν → Value μ) {value : Value ν} {constant : Constant}
    (h : value.toConstant? = some constant) :
    (value.bind replace).toConstant? = some constant := by
  induction value using Value.induction generalizing constant with
  | var x => cases h
  | null | number n | string s | boolean b | enum e => exact h
  | list items ih =>
      have hitems : ∀ constants, itemsToConstant? items = some constants →
          itemsToConstant? (bindItems replace items) = some constants := by
        clear h
        induction items with
        | nil => exact fun _ h => h
        | cons item rest ihRest =>
            intro constants h
            obtain ⟨hitem, hrest⟩ := List.forall_mem_cons.mp ih
            simp only [itemsToConstant?] at h
            split at h
            · rename_i first others hfirst hothers
              simp only [bindItems, itemsToConstant?, hitem hfirst, ihRest hrest _ hothers]
              exact h
            · cases h
      obtain ⟨constants, hconstants, rfl⟩ := Option.map_eq_some_iff.mp h
      rw [bind, toConstant?, hitems constants hconstants]
      rfl
  | object fields ih =>
      have hfields : ∀ constants, fieldsToConstant? fields = some constants →
          fieldsToConstant? (bindFields replace fields) = some constants := by
        clear h
        induction fields with
        | nil => exact fun _ h => h
        | cons field rest ihRest =>
            intro constants h
            obtain ⟨hfield, hrest⟩ := List.forall_mem_cons.mp ih
            simp only [fieldsToConstant?] at h
            split at h
            · rename_i first others hfirst hothers
              simp only [bindFields, fieldsToConstant?, hfield hfirst, ihRest hrest _ hothers]
              exact h
            · cases h
      obtain ⟨constants, hconstants, rfl⟩ := Option.map_eq_some_iff.mp h
      rw [bind, toConstant?, hfields constants hconstants]
      rfl

/-! ## A constant in the place of a variable -/

theorem judgeItems_map_congr {α : Type} (schema : Schema) {judgeFirst : ν → Judgement}
    {judgeSecond : μ → Judgement} {first : α → Value ν} {second : α → Value μ} {items : List α}
    (h : ∀ item ∈ items, judge schema judgeFirst (first item) =
      judge schema judgeSecond (second item)) (element : TypeRef) (path : ValuePath)
    (index : Nat) :
    judgeItems schema judgeFirst (items.map first) element path index =
      judgeItems schema judgeSecond (items.map second) element path index := by
  induction items generalizing index with
  | nil => rfl
  | cons item rest ih =>
      obtain ⟨hitem, hrest⟩ := List.forall_mem_cons.mp h
      simp only [List.map_cons, judgeItems, hitem, ih hrest]

theorem judgeNamed_ofConstant (schema : Schema) (constant : Constant)
    (fields : NameTable Judgement) (name : Name) (path : ValuePath) :
    judgeNamed schema (ofConstant constant : Value ν) fields name path =
      judgeNamed schema constant fields name path := by
  unfold judgeNamed
  rw [toConstant?_ofConstant, toConstant?_constant]
  cases constant with
  | var x => exact x.elim
  | null | number n | string s | boolean b | enum e | list items | object fields => rfl

/-- A constant is judged among literals as it is by itself. -/
theorem judge_ofConstant (schema : Schema) (judgeVar : ν → Judgement) (constant : Constant) :
    judge schema judgeVar (ofConstant constant) = judgeConstant schema constant := by
  unfold judgeConstant
  induction constant using Value.induction with
  | var x => exact x.elim
  | null => rfl
  | number n | string s | boolean b | enum e =>
      funext type path
      simp only [ofConstant, bind, judge]
      rfl
  | list items ih =>
      funext type path
      cases type with
      | named name nonNull => exact judgeNamed_ofConstant schema (.list items) [] name path
      | list element nonNull =>
          have hitems := judgeItems_map_congr schema ih element path 0
          rw [List.map_id'] at hitems
          simp only [ofConstant, bind, judge, bindItems_eq_map]
          exact hitems
  | object fields ih =>
      funext type path
      have hfields : judgeFields schema judgeVar (bindFields Empty.elim fields) =
          judgeFields schema Empty.elim fields := by
        rw [bindFields_eq_map, judgeFields_eq_map, judgeFields_eq_map, List.map_map]
        apply List.map_congr_left
        intro field hfield
        simp only [Function.comp_apply]
        rw [← ih field hfield]
        rfl
      have hnamed : judgeNamed schema (ofConstant (.object fields) : Value ν)
          (judgeFields schema Empty.elim fields) type.concreteName path = _ :=
        judgeNamed_ofConstant schema (.object fields) _ type.concreteName path
      simp only [ofConstant, bind, judge, hfields] at hnamed ⊢
      exact hnamed

/-! ## Refusals that are withheld -/

/-- What is withheld of a literal at a named type, given what is withheld of its fields. At a scalar
type it is the refusal of the constant that the literal is once its variables are replaced, if it is
none before. -/
def withheldAt (schema : Schema) (supplied : Variables) (value : Literal)
    (fields : NameTable (TypeRef → ValuePath → List ValueFault)) (name : Name)
    (path : ValuePath) : List ValueFault :=
  match schema.type? name with
  | none => []
  | some type =>
      match type.kind with
      | .scalar =>
          match value.toConstant?, (value.substitute supplied).toConstant? with
          | none, some constant =>
              match schema.convertScalar name constant with
              | .ok _ => []
              | .error reason => [⟨path, .scalarRefused name reason⟩]
          | _, _ => []
      | .inputObject =>
          type.inputFields.entries.flatMap fun input =>
            match fields.find? input.name with
            | some inside => inside input.type (path ++ [.field input.name])
            | none => []
      | _ => []

mutual

/-- The refusals withheld in the judgement of a literal: those of lists and objects that stand at
scalar types and hold variables, all of them supplied. -/
def withheld (schema : Schema) (supplied : Variables) :
    Literal → TypeRef → ValuePath → List ValueFault
  | .list items, .list element _, path => withheldItems schema supplied items element path 0
  | .list items, .named name _, path => withheldAt schema supplied (.list items) [] name path
  | .object fields, type, path =>
      withheldAt schema supplied (.object fields) (withheldFields schema supplied fields)
        type.concreteName path
  | _, _, _ => []

/-- The refusals withheld in the items of a list; the first of them has the given index. -/
def withheldItems (schema : Schema) (supplied : Variables) :
    List Literal → TypeRef → ValuePath → Nat → List ValueFault
  | [], _, _, _ => []
  | item :: rest, element, path, index =>
      withheld schema supplied item element (path ++ [.item index]) ++
        withheldItems schema supplied rest element path (index + 1)

def withheldFields (schema : Schema) (supplied : Variables) :
    List (Name × Literal) → NameTable (TypeRef → ValuePath → List ValueFault)
  | [] => []
  | (name, value) :: rest =>
      (name, withheld schema supplied value) :: withheldFields schema supplied rest

end

theorem find?_withheldFields (schema : Schema) (supplied : Variables)
    (fields : List (Name × Literal)) (name : Name) :
    (withheldFields schema supplied fields).find? name =
      (NameTable.find? fields name).map (withheld schema supplied) := by
  induction fields with
  | nil => rfl
  | cons field rest ih =>
      by_cases hname : field.1 = name
      · simp [withheldFields, NameTable.find?, hname]
      · simp [withheldFields, NameTable.find?, hname, ih]

/-- A verdict next to the full one: they are the same, or the full one is a refusal that was
withheld, and the full one accepts if the other does and nothing was withheld. -/
structure Withholds (refusals : List ValueFault) (verdict full : Option ValueFault) : Prop where
  same : full = verdict ∨ ∃ fault ∈ refusals, full = some fault
  accepts : full = none ↔ verdict = none ∧ refusals = []

theorem Withholds.nothing (verdict : Option ValueFault) : Withholds [] verdict verdict :=
  ⟨.inl rfl, by simp⟩

/-- One judgement, and if it finds no fault another. -/
theorem Withholds.or {refusals others : List ValueFault}
    {verdict full next nextFull : Option ValueFault} (h : Withholds refusals verdict full)
    (hnext : Withholds others next nextFull) :
    Withholds (refusals ++ others) (verdict.or next) (full.or nextFull) := by
  refine ⟨?_, ?_⟩
  · rcases h.same with rfl | ⟨fault, hfault, rfl⟩
    · cases full with
      | some fault => exact .inl rfl
      | none =>
          rcases hnext.same with rfl | ⟨fault, hfault, rfl⟩
          · exact .inl rfl
          · exact .inr ⟨fault, List.mem_append_right _ hfault, rfl⟩
    · exact .inr ⟨fault, List.mem_append_left _ hfault, rfl⟩
  · rw [Option.or_eq_none_iff, Option.or_eq_none_iff, h.accepts, hnext.accepts,
      List.append_eq_nil_iff]
    exact and_and_and_comm

/-- Judgements along a list, up to the first fault. -/
theorem Withholds.findSome? {α : Type} {items : List α} {refusals : α → List ValueFault}
    {verdict full : α → Option ValueFault}
    (h : ∀ item ∈ items, Withholds (refusals item) (verdict item) (full item)) :
    Withholds (items.flatMap refusals) (items.findSome? verdict) (items.findSome? full) := by
  induction items with
  | nil => exact Withholds.nothing none
  | cons item rest ih =>
      obtain ⟨hitem, hrest⟩ := List.forall_mem_cons.mp h
      rw [← List.singleton_append, List.flatMap_append, List.findSome?_append,
        List.findSome?_append, List.flatMap_singleton, List.findSome?_singleton,
        List.findSome?_singleton]
      exact hitem.or (ih hrest)

/-! ## The two judgements side by side -/

theorem judgeNamed_scalar_withholds {schema : Schema} {name : Name} {type : TypeDefinition}
    (htype : schema.type? name = some type) (hkind : type.kind = .scalar) (supplied : Variables)
    (value : Literal) (fields others : NameTable Judgement)
    (inside : NameTable (TypeRef → ValuePath → List ValueFault)) (path : ValuePath) :
    Withholds (withheldAt schema supplied value inside name path)
      (judgeNamed schema value fields name path)
      (judgeNamed schema (value.substitute supplied) others name path) := by
  simp only [withheldAt, judgeNamed, htype, hkind]
  cases hvalue : value.toConstant? with
  | some constant =>
      have hsame : (value.substitute supplied).toConstant? = some constant :=
        toConstant?_bind _ hvalue
      rw [hsame]
      exact Withholds.nothing _
  | none =>
      cases hclosed : (value.substitute supplied).toConstant? with
      | none => exact Withholds.nothing none
      | some constant =>
          cases hconvert : schema.convertScalar name constant with
          | ok converted => simpa only [hconvert] using Withholds.nothing none
          | error reason =>
              simp only [hconvert]
              exact ⟨.inr ⟨_, List.mem_singleton_self _, rfl⟩, by simp⟩

theorem judgeNamed_list_withholds (schema : Schema) (supplied : Variables) (items : List Literal)
    (name : Name) (path : ValuePath) :
    Withholds (withheldAt schema supplied (.list items) [] name path)
      (judgeNamed schema (.list items) [] name path)
      (judgeNamed schema (substitute supplied (.list items)) [] name path) := by
  cases htype : schema.type? name with
  | none =>
      simp only [withheldAt, judgeNamed, htype]
      exact Withholds.nothing none
  | some type =>
      cases hkind : type.kind with
      | scalar => exact judgeNamed_scalar_withholds htype hkind supplied _ [] [] [] path
      | object | interface | union | enum =>
          simp only [withheldAt, judgeNamed, htype, hkind, substitute_list]
          exact Withholds.nothing _
      | inputObject =>
          have hnone : (type.inputFields.entries.flatMap fun _ => ([] : List ValueFault)) = [] := by
            simp
          simp only [withheldAt, judgeNamed, htype, hkind, substitute_list, NameTable.find?, hnone]
          exact Withholds.nothing _

/-- The judgement of a field that an input object type declares: of its value, or of its being left
out. -/
def judgeInput (type : TypeDefinition) (fields : NameTable Judgement) (path : ValuePath)
    (input : InputValue) : Option ValueFault :=
  match fields.find? input.name with
  | some judgement => judgement input.type (path ++ [.field input.name])
  | none => if input.isRequired then some ⟨path, .missingField input.name type.name⟩ else none

theorem judgeObject_eq_or (type : TypeDefinition) (fields : NameTable Judgement)
    (path : ValuePath) :
    judgeObject type fields path =
      (type.inputFields.entries.findSome? (judgeInput type fields path)).or
        ((fields.names.find? fun name => !type.inputFields.has name).map fun name =>
          ⟨path, .unknownField name type.name⟩) := by
  simp only [judgeObject]
  split
  next fault hfound =>
    have hdeclared : type.inputFields.entries.findSome? (judgeInput type fields path) =
        some fault := hfound
    rw [hdeclared, Option.some_or]
  next hfound =>
    have hdeclared : type.inputFields.entries.findSome? (judgeInput type fields path) = none :=
      hfound
    rw [hdeclared, Option.none_or]

theorem judgeNamed_object_withholds (schema : Schema) (supplied : Variables)
    (fields : List (Name × Literal))
    (hfields : ∀ field ∈ fields, ∀ type path, Withholds
      (withheld schema supplied field.2 type path)
      (judge schema (judgeSupplied schema supplied) field.2 type path)
      (judge schema (judgeSupplied schema supplied) (field.2.substitute supplied) type path))
    (name : Name) (path : ValuePath) :
    Withholds
      (withheldAt schema supplied (.object fields) (withheldFields schema supplied fields) name
        path)
      (judgeNamed schema (.object fields)
        (judgeFields schema (judgeSupplied schema supplied) fields) name path)
      (judgeNamed schema (substitute supplied (.object fields))
        (judgeFields schema (judgeSupplied schema supplied)
          (fields.map fun field => (field.1, field.2.substitute supplied))) name path) := by
  cases htype : schema.type? name with
  | none =>
      simp only [withheldAt, judgeNamed, htype]
      exact Withholds.nothing none
  | some type =>
      cases hkind : type.kind with
      | scalar => exact judgeNamed_scalar_withholds htype hkind supplied _ _ _ _ path
      | object | interface | union | enum =>
          simp only [withheldAt, judgeNamed, htype, hkind, substitute_object]
          exact Withholds.nothing _
      | inputObject =>
          have hnames : (judgeFields schema (judgeSupplied schema supplied)
              (fields.map fun field => (field.1, field.2.substitute supplied))).names =
              (judgeFields schema (judgeSupplied schema supplied) fields).names := by
            rw [names_judgeFields, names_judgeFields, NameTable.names, NameTable.names,
              List.map_map]
            rfl
          have hdeclared : ∀ input ∈ type.inputFields.entries, Withholds
              (match (withheldFields schema supplied fields).find? input.name with
                | some inside => inside input.type (path ++ [.field input.name])
                | none => [])
              (judgeInput type (judgeFields schema (judgeSupplied schema supplied) fields) path
                input)
              (judgeInput type (judgeFields schema (judgeSupplied schema supplied)
                (fields.map fun field => (field.1, field.2.substitute supplied))) path input) := by
            intro input _
            have hreplaced := NameTable.find?_map fields (fun _ => substitute supplied) input.name
            simp only [judgeInput, find?_withheldFields, find?_judgeFields, hreplaced]
            cases hfind : NameTable.find? fields input.name with
            | none => exact Withholds.nothing _
            | some value => exact hfields _ (NameTable.mem_of_find? hfind) _ _
          -- replacing variables adds no field and drops none, so what is undeclared stays so
          have hundeclared := Withholds.nothing
            (((judgeFields schema (judgeSupplied schema supplied) fields).names.find? fun name =>
              !type.inputFields.has name).map fun name =>
                (⟨path, .unknownField name type.name⟩ : ValueFault))
          have hall := (Withholds.findSome? hdeclared).or hundeclared
          rw [List.append_nil] at hall
          simp only [withheldAt, judgeNamed, htype, hkind, substitute_object, judgeObject_eq_or,
            hnames]
          exact hall

theorem judgeItems_cons_eq_or (schema : Schema) (judgeVar : ν → Judgement) (item : Value ν)
    (rest : List (Value ν)) (element : TypeRef) (path : ValuePath) (index : Nat) :
    judgeItems schema judgeVar (item :: rest) element path index =
      (judge schema judgeVar item element (path ++ [.item index])).or
        (judgeItems schema judgeVar rest element path (index + 1)) := by
  rw [judgeItems]
  cases judge schema judgeVar item element (path ++ [.item index]) <;> rfl

theorem judgeItems_withholds {schema : Schema} {supplied : Variables} {items : List Literal}
    (h : ∀ item ∈ items, ∀ type path, Withholds (withheld schema supplied item type path)
      (judge schema (judgeSupplied schema supplied) item type path)
      (judge schema (judgeSupplied schema supplied) (item.substitute supplied) type path))
    (element : TypeRef) (path : ValuePath) (index : Nat) :
    Withholds (withheldItems schema supplied items element path index)
      (judgeItems schema (judgeSupplied schema supplied) items element path index)
      (judgeItems schema (judgeSupplied schema supplied) (items.map (substitute supplied)) element
        path index) := by
  induction items generalizing index with
  | nil => exact Withholds.nothing none
  | cons item rest ih =>
      obtain ⟨hitem, hrest⟩ := List.forall_mem_cons.mp h
      rw [List.map_cons, withheldItems, judgeItems_cons_eq_or, judgeItems_cons_eq_or]
      exact (hitem _ _).or (ih hrest (index + 1))

/-- The judgement of a literal, next to that of the literal with its variables replaced. -/
theorem judge_withholds (schema : Schema) (supplied : Variables) (value : Literal)
    (type : TypeRef) (path : ValuePath) :
    Withholds (withheld schema supplied value type path)
      (judge schema (judgeSupplied schema supplied) value type path)
      (judge schema (judgeSupplied schema supplied) (value.substitute supplied) type path) := by
  induction value using Value.induction generalizing type path with
  | var name =>
      have hsame : judge schema (judgeSupplied schema supplied)
          (substitute supplied (.var name)) type path =
          judge schema (judgeSupplied schema supplied) (.var name) type path := by
        simp only [substitute, bind]
        cases hfind : supplied.find? name with
        | none => rfl
        | some constant => simp only [judge_ofConstant, judge, judgeSupplied, hfind]
      rw [hsame]
      exact Withholds.nothing _
  | null | number n | string s | boolean b | enum e => exact Withholds.nothing _
  | list items ih =>
      cases type with
      | named name nonNull => exact judgeNamed_list_withholds schema supplied items name path
      | list element nonNull =>
          rw [substitute_list]
          exact judgeItems_withholds ih element path 0
  | object fields ih =>
      have hobject := judgeNamed_object_withholds schema supplied fields ih type.concreteName path
      rw [substitute_object] at hobject ⊢
      simp only [judge]
      exact hobject

/-! ## What substitution changes -/

theorem scalarRefused_of_mem_withheldAt {schema : Schema} {supplied : Variables} {value : Literal}
    {fields : NameTable (TypeRef → ValuePath → List ValueFault)}
    (hfields : ∀ name inside, fields.find? name = some inside → ∀ type path,
      ∀ fault ∈ inside type path, ∃ scalar reason, fault.flaw = .scalarRefused scalar reason)
    {name : Name} {path : ValuePath} {fault : ValueFault}
    (h : fault ∈ withheldAt schema supplied value fields name path) :
    ∃ scalar reason, fault.flaw = .scalarRefused scalar reason := by
  unfold withheldAt at h
  split at h
  · cases h
  · split at h
    · split at h
      · split at h
        · cases h
        · obtain rfl := List.mem_singleton.mp h
          exact ⟨_, _, rfl⟩
      · cases h
    · obtain ⟨input, -, hinput⟩ := List.mem_flatMap.mp h
      split at hinput
      · rename_i inside hinside
        exact hfields _ inside hinside _ _ fault hinput
      · cases hinput
    · cases h

/-- Only refusals of scalars are withheld. -/
theorem scalarRefused_of_mem_withheld {schema : Schema} {supplied : Variables} {value : Literal}
    {type : TypeRef} {path : ValuePath} {fault : ValueFault}
    (h : fault ∈ withheld schema supplied value type path) :
    ∃ scalar reason, fault.flaw = .scalarRefused scalar reason := by
  induction value using Value.induction generalizing type path fault with
  | var _ | null | number _ | string _ | boolean _ | enum _ => simp [withheld] at h
  | list items ih =>
      cases type with
      | named name nonNull =>
          rw [withheld] at h
          exact scalarRefused_of_mem_withheldAt (fun _ _ hfind => by cases hfind) h
      | list element nonNull =>
          rw [withheld] at h
          generalize 0 = index at h
          induction items generalizing index with
          | nil => cases h
          | cons item rest ihRest =>
              obtain ⟨hitem, hrest⟩ := List.forall_mem_cons.mp ih
              rcases List.mem_append.mp h with h | h
              · exact hitem h
              · exact ihRest hrest (index + 1) h
  | object fields ih =>
      rw [withheld] at h
      refine scalarRefused_of_mem_withheldAt ?_ h
      intro name inside hfind type path fault hfault
      rw [find?_withheldFields, Option.map_eq_some_iff] at hfind
      obtain ⟨value, hvalue, rfl⟩ := hfind
      exact ih _ (NameTable.mem_of_find? hvalue) hfault

end Value

/-- A literal has the fault that it has with its supplied variables replaced, unless a refusal was
withheld: then the literal with its variables replaced is never accepted, and its fault is the
literal's own or one of those withheld, which are refusals of scalars. -/
theorem fault?_substitute (schema : Schema) (supplied : Variables) (type : TypeRef)
    (value : Literal) (path : ValuePath) :
    (value.withheld schema supplied type path = [] →
      (value.substitute supplied).fault? schema supplied type path =
        value.fault? schema supplied type path) ∧
    ((value.substitute supplied).fault? schema supplied type path = none ↔
      value.fault? schema supplied type path = none ∧
        value.withheld schema supplied type path = []) ∧
    ((value.substitute supplied).fault? schema supplied type path =
        value.fault? schema supplied type path ∨
      ∃ fault ∈ value.withheld schema supplied type path,
        (value.substitute supplied).fault? schema supplied type path = some fault ∧
        ∃ scalar reason, fault.flaw = .scalarRefused scalar reason) := by
  have hwithholds := value.judge_withholds schema supplied type path
  refine ⟨fun hnothing => ?_, hwithholds.accepts, ?_⟩
  · rcases hwithholds.same with hsame | ⟨fault, hfault, -⟩
    · exact hsame
    · rw [hnothing] at hfault
      cases hfault
  · rcases hwithholds.same with hsame | ⟨fault, hfault, hfull⟩
    · exact .inl hsame
    · exact .inr ⟨fault, hfault, hfull, Value.scalarRefused_of_mem_withheld hfault⟩

/-- A list that holds a variable, at the type `Int`: nothing is wrong with it whatever the value of
the variable is, and the list with that value in it is refused. -/
theorem fault?_substitute_list_at_int :
    ∃ (schema : Schema) (supplied : Variables) (value : Literal) (path : ValuePath),
      value.fault? schema supplied (.named "Int" false) path = none ∧
      (value.substitute supplied).fault? schema supplied (.named "Int" false) path =
        some ⟨path, .scalarRefused "Int" "Int cannot represent non-integer value: [1]"⟩ ∧
      value.withheld schema supplied (.named "Int" false) path ≠ [] := by
  let schema : Schema :=
    { query := "Query", mutation := none, subscription := none,
      types := [("Int", .bare "Int" .scalar)], directives := [], converters := [] }
  let supplied : Variables := [("v", .number (.integer 1))]
  have hopen : Value.fault? schema supplied (.named "Int" false) (.list [.var "v"])
      [.field "a"] = none := rfl
  have hclosed : (Value.substitute supplied (.list [.var "v"])).fault? schema supplied
      (.named "Int" false) [.field "a"] = some ⟨[.field "a"],
        .scalarRefused "Int" "Int cannot represent non-integer value: [1]"⟩ := by
    decide +kernel
  refine ⟨schema, supplied, .list [.var "v"], [.field "a"], hopen, hclosed, fun hnothing => ?_⟩
  have hsame := (fault?_substitute schema supplied (.named "Int" false) (.list [.var "v"])
    [.field "a"]).1 hnothing
  rw [hopen, hclosed] at hsame
  cases hsame

end QueryAudit
