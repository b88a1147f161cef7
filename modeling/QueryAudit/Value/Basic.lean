import QueryAudit.NameTable
import QueryAudit.Number

/-!
# Input values

A value is null, a number, a string, a boolean, an enum name, a list or an object, or a variable
that stands for one. The type of variables is a parameter: a *literal* refers to variables by name,
and a *constant* has no variables at all. Putting values in the place of variables is `bind`.
-/

namespace QueryAudit

inductive Value (ν : Type) where
  | var (name : ν)
  | null
  | number (n : Number)
  | string (text : String)
  | boolean (b : Bool)
  | enum (name : Name)
  | list (items : List (Value ν))
  | object (fields : List (Name × Value ν))
deriving Repr

/-- A value as it is written in a document; it may refer to variables. -/
abbrev Literal := Value Name

abbrev Constant := Value Empty

abbrev Variables := NameTable Constant

namespace Value

variable {ν μ : Type}

mutual

def bind (replace : ν → Value μ) : Value ν → Value μ
  | .var x => replace x
  | .null => .null
  | .number n => .number n
  | .string s => .string s
  | .boolean b => .boolean b
  | .enum e => .enum e
  | .list items => .list (bindItems replace items)
  | .object fields => .object (bindFields replace fields)

/-- `bind` for each item of a list. -/
def bindItems (replace : ν → Value μ) : List (Value ν) → List (Value μ)
  | [] => []
  | item :: rest => bind replace item :: bindItems replace rest

/-- `bind` for each field of an object. -/
def bindFields (replace : ν → Value μ) : List (Name × Value ν) → List (Name × Value μ)
  | [] => []
  | (name, value) :: rest => (name, bind replace value) :: bindFields replace rest

end

mutual

/-- The constant that a value is, if no variable occurs in it. -/
def toConstant? : Value ν → Option Constant
  | .var _ => none
  | .null => some .null
  | .number n => some (.number n)
  | .string s => some (.string s)
  | .boolean b => some (.boolean b)
  | .enum e => some (.enum e)
  | .list items => (itemsToConstant? items).map .list
  | .object fields => (fieldsToConstant? fields).map .object

def itemsToConstant? : List (Value ν) → Option (List Constant)
  | [] => some []
  | item :: rest =>
      match toConstant? item, itemsToConstant? rest with
      | some constant, some others => some (constant :: others)
      | _, _ => none

def fieldsToConstant? : List (Name × Value ν) → Option (List (Name × Constant))
  | [] => some []
  | (name, value) :: rest =>
      match toConstant? value, fieldsToConstant? rest with
      | some constant, some others => some ((name, constant) :: others)
      | _, _ => none

end

def ofConstant (constant : Constant) : Value ν := constant.bind Empty.elim

def isNull : Value ν → Bool
  | .null => true
  | _ => false

mutual

/-- Equality of values. Objects are compared without regard to the order of their fields. When
`enumIsString` holds, an enum name equals the string of the same text. -/
def same [BEq ν] (enumIsString : Bool) : Value ν → Value ν → Bool
  | .var x, .var y => x == y
  | .null, .null => true
  | .number m, .number n => m.same n
  | .boolean a, .boolean b => a == b
  | .string s, .string t => s == t
  | .enum e, .enum f => e == f
  | .enum e, .string t => enumIsString && e == t
  | .string s, .enum f => enumIsString && s == f
  | .list items, .list others => sameItems enumIsString items others
  | .object fields, .object others =>
      fields.length == others.length && sameFields enumIsString fields others
  | _, _ => false

def sameItems [BEq ν] (enumIsString : Bool) : List (Value ν) → List (Value ν) → Bool
  | [], [] => true
  | item :: rest, other :: others =>
      same enumIsString item other && sameItems enumIsString rest others
  | _, _ => false

/-- Whether each field of the first object has an equal field of its name in the second. -/
def sameFields [BEq ν] (enumIsString : Bool) :
    List (Name × Value ν) → List (Name × Value ν) → Bool
  | [], _ => true
  | (name, value) :: rest, others =>
      (match NameTable.find? others name with
        | some other => same enumIsString value other
        | none => false) && sameFields enumIsString rest others

end

/-- Equality of constants: an enum name equals the string of the same text. -/
def sameConstant (a b : Constant) : Bool := same true a b

/-- Equality of literals: structural, but for the order of object fields. -/
def sameLiteral (a b : Literal) : Bool := same false a b

end Value

end QueryAudit
