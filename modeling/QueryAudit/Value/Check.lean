import QueryAudit.Schema.Scalar

/-!
# Values at input types

A value may be refused at a type, or be coerced to it. Two functions go down into it with the type:
one finds the first fault, and the other gives what the value comes to mean.
-/

/-!
## Checking values against input types

A value is judged at an input type. Null needs a type that admits it. At a list type a list is
judged item by item, and any other value counts as a list of itself. At the core, scalars ask their
converter, enums look the name up, and input objects judge their fields in order of declaration,
then look for a field that is not declared. Unknown types, and types that are no input types, judge
nothing.

A variable is judged through the value supplied for it, and without one not at all. `judge` takes
the judgement of variables as a parameter, so constants and literals share it.
-/

namespace QueryAudit

inductive PathStep where
  | field (name : Name)
  | item (index : Nat)
deriving DecidableEq, Repr

/-- The way from an argument or a variable to a part of its value, outermost first. -/
abbrev ValuePath := List PathStep

inductive ValueFlaw where
  /-- Null at a type that excludes it. -/
  | nullGiven (type : TypeRef)
  /-- The converter of a scalar refused the value. -/
  | scalarRefused (type : Name) (reason : String)
  /-- An enum type does not have the value. -/
  | enumLacks (type value : Name)
  /-- No name for an enum type, or no object for an input object type. -/
  | wrongShape (type : Name)
  | missingField (field type : Name)
  | unknownField (field type : Name)
deriving DecidableEq, Repr

/-- A flaw and the part of the value that has it. -/
structure ValueFault where
  path : ValuePath
  flaw : ValueFlaw
deriving DecidableEq, Repr

namespace PathStep

def text : PathStep → String
  | .field name => name
  | .item index => toString index

end PathStep

namespace ValueFlaw

def message : ValueFlaw → String
  | .nullGiven type => "expected type \"" ++ type.text ++ "\""
  | .scalarRefused type reason => "expected type \"" ++ type ++ "\", " ++ reason
  | .enumLacks type value =>
      "enumeration type \"" ++ type ++ "\" does not contain the value \"" ++ value ++ "\""
  | .wrongShape type => "expected type \"" ++ type ++ "\""
  | .missingField field type =>
      "field \"" ++ field ++ "\" of type \"" ++ type ++ "\" is required but not provided"
  | .unknownField field type => "unknown field \"" ++ field ++ "\" of type \"" ++ type ++ "\""

end ValueFlaw

namespace ValueFault

/-- What is said about a fault: the path, its steps joined by points, and the flaw. -/
def message (fault : ValueFault) : String :=
  "\"" ++ ".".intercalate (fault.path.map PathStep.text) ++ "\", " ++ fault.flaw.message

end ValueFault

namespace Value

variable {ν : Type}

/-- A judgement of a value: the first fault, if any, at a type and along a path. -/
abbrev Judgement := TypeRef → ValuePath → Option ValueFault

def judgeObject (type : TypeDefinition) (fields : NameTable Judgement) (path : ValuePath) :
    Option ValueFault :=
  let declared := type.inputFields.entries.findSome? fun input =>
    match fields.find? input.name with
    | some judgement => judgement input.type (path ++ [.field input.name])
    | none => if input.isRequired then some ⟨path, .missingField input.name type.name⟩ else none
  match declared with
  | some fault => some fault
  | none =>
      (fields.names.find? fun name => !type.inputFields.has name).map fun name =>
        ⟨path, .unknownField name type.name⟩

def judgeNamed (schema : Schema) (value : Value ν) (fields : NameTable Judgement) (name : Name)
    (path : ValuePath) : Option ValueFault :=
  match schema.type? name with
  | none => none
  | some type =>
      match type.kind with
      | .scalar =>
          match value.toConstant? with
          | none => none
          | some constant =>
              match schema.convertScalar name constant with
              | .ok _ => none
              | .error reason => some ⟨path, .scalarRefused name reason⟩
      | .enum =>
          match value with
          | .enum item | .string item =>
              if type.enumValues.has item then none else some ⟨path, .enumLacks type.name item⟩
          | _ => some ⟨path, .wrongShape name⟩
      | .inputObject =>
          match value with
          | .object _ => judgeObject type fields path
          | _ => some ⟨path, .wrongShape name⟩
      | .object | .interface | .union => none

mutual

/-- Judge a value; `judgeVar` judges the variables in it. -/
def judge (schema : Schema) (judgeVar : ν → Judgement) : Value ν → Judgement
  | .var x, type, path => judgeVar x type path
  | .null, type, path => if type.isNonNull then some ⟨path, .nullGiven type⟩ else none
  | .list items, .list element _, path => judgeItems schema judgeVar items element path 0
  | .list items, .named name _, path => judgeNamed schema (.list items) [] name path
  | .object fields, type, path =>
      judgeNamed schema (.object fields) (judgeFields schema judgeVar fields) type.concreteName
        path
  | .number n, type, path => judgeNamed schema (.number n : Value ν) [] type.concreteName path
  | .string s, type, path => judgeNamed schema (.string s : Value ν) [] type.concreteName path
  | .boolean b, type, path => judgeNamed schema (.boolean b : Value ν) [] type.concreteName path
  | .enum e, type, path => judgeNamed schema (.enum e : Value ν) [] type.concreteName path

/-- Judge the items of a list at an element type; the first of them has the given index. -/
def judgeItems (schema : Schema) (judgeVar : ν → Judgement) :
    List (Value ν) → TypeRef → ValuePath → Nat → Option ValueFault
  | [], _, _, _ => none
  | item :: rest, element, path, index =>
      match judge schema judgeVar item element (path ++ [.item index]) with
      | some fault => some fault
      | none => judgeItems schema judgeVar rest element path (index + 1)

def judgeFields (schema : Schema) (judgeVar : ν → Judgement) :
    List (Name × Value ν) → NameTable Judgement
  | [] => []
  | (name, value) :: rest =>
      (name, judge schema judgeVar value) :: judgeFields schema judgeVar rest

end

def judgeConstant (schema : Schema) (constant : Constant) : Judgement :=
  constant.judge schema Empty.elim

def judgeSupplied (schema : Schema) (supplied : Variables) (name : Name) : Judgement :=
  fun type path =>
    match supplied.find? name with
    | some constant => judgeConstant schema constant type path
    | none => none

def fault? (schema : Schema) (supplied : Variables) (type : TypeRef) (value : Literal)
    (path : ValuePath) : Option ValueFault :=
  value.judge schema (judgeSupplied schema supplied) type path

end Value

end QueryAudit

/-!
## Coercing values

Two literals mean the same where their coerced values are equal. Coercion gives up on variables and
on what the input type refuses. At a list type a value that is no list becomes a list of itself.
-/

namespace QueryAudit.Value

variable {ν : Type}

/-- A value in as many lists as a type has around its core. -/
def wrap : TypeRef → Constant → Constant
  | .named _ _, constant => constant
  | .list element _, constant => .list [wrap element constant]

def coerceNamed (schema : Schema) (value : Value ν) (name : Name) : Option Constant :=
  match schema.type? name with
  | some type =>
      match type.kind with
      | .scalar =>
          value.toConstant?.bind fun constant => (schema.convertScalar name constant).toOption
      | .inputObject => none
      | _ => value.toConstant?
  | none => value.toConstant?

mutual

/-- Coerce a value to a type; without a type it must be a constant. -/
def coerce (schema : Schema) : Value ν → Option TypeRef → Option Constant
  | .var _, _ => none
  | .null, _ => some .null
  | .list items, none => (itemsToConstant? items).map .list
  | .list items, some (.list element _) => (coerceItems schema items element).map .list
  | .list items, some (.named name _) => coerceNamed schema (.list items) name
  | .object fields, none => (fieldsToConstant? fields).map .object
  | .object fields, some type =>
      let core : Option Constant :=
        match schema.concreteType? type with
        | some definition =>
            match definition.kind with
            | .inputObject => (coerceFields schema definition.inputFields fields).map .object
            | _ => coerceNamed schema (.object fields) type.concreteName
        | none => (fieldsToConstant? fields).map .object
      core.map (wrap type)
  | .number n, none => some (.number n)
  | .number n, some type =>
      (coerceNamed schema (.number n : Value ν) type.concreteName).map (wrap type)
  | .string s, none => some (.string s)
  | .string s, some type =>
      (coerceNamed schema (.string s : Value ν) type.concreteName).map (wrap type)
  | .boolean b, none => some (.boolean b)
  | .boolean b, some type =>
      (coerceNamed schema (.boolean b : Value ν) type.concreteName).map (wrap type)
  | .enum e, none => some (.enum e)
  | .enum e, some type =>
      (coerceNamed schema (.enum e : Value ν) type.concreteName).map (wrap type)

def coerceItems (schema : Schema) : List (Value ν) → TypeRef → Option (List Constant)
  | [], _ => some []
  | item :: rest, element =>
      match coerce schema item (some element), coerceItems schema rest element with
      | some constant, some others => some (constant :: others)
      | _, _ => none

/-- Coerce the fields of an object; a field that is not declared must be a constant. -/
def coerceFields (schema : Schema) (inputs : NameTable InputValue) :
    List (Name × Value ν) → Option (List (Name × Constant))
  | [] => some []
  | (name, value) :: rest =>
      match coerce schema value ((inputs.find? name).map InputValue.type),
        coerceFields schema inputs rest with
      | some constant, some others => some ((name, constant) :: others)
      | _, _ => none

end

end QueryAudit.Value
