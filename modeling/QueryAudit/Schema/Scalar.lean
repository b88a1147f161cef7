import QueryAudit.Schema.Basic
import QueryAudit.Value.Text

/-!
# Scalars

The converters of the built-in scalars. A converter registered with the schema comes before that of
a built-in scalar, and a scalar without converter takes every constant as it is.
-/

namespace QueryAudit

namespace Scalar

def fitsInt (n : Int) : Bool := -2147483648 ≤ n && n ≤ 2147483647

/-- Int takes integers of 32 bits. -/
def int : Converter
  | .number n =>
      match n.signedInteger? with
      | some i =>
          if fitsInt i then .ok (.number n)
          else .error ("Int cannot represent non 32-bit signed integer value: " ++ n.text)
      | none => .error ("Int cannot represent non 32-bit signed integer value: " ++ n.text)
  | value => .error ("Int cannot represent non-integer value: " ++ value.text)

/-- Float takes all numbers, as doubles. -/
def float : Converter
  | .number n => .ok (.number (.double n.toDouble))
  | value => .error ("Float cannot represent non numeric value: " ++ value.text)

def string : Converter
  | .string s => .ok (.string s)
  | value => .error ("String cannot represent a non string value: " ++ value.text)

def boolean : Converter
  | .boolean b => .ok (.boolean b)
  | value => .error ("Boolean cannot represent a non boolean value: " ++ value.text)

/-- ID takes strings, and integers as their text. -/
def id : Converter
  | .string s => .ok (.string s)
  | .number (.integer n) => .ok (.string (Number.text (.integer n)))
  | value => .error ("ID cannot represent a non-string and non-integer value: " ++ value.text)

def builtin? : Name → Option Converter
  | "Int" => some int
  | "Float" => some float
  | "String" => some string
  | "Boolean" => some boolean
  | "ID" => some id
  | _ => none

end Scalar

namespace Schema

def convertScalar (schema : Schema) (name : Name) (value : Constant) : Except String Constant :=
  match schema.converters.find? name with
  | some converter => converter value
  | none =>
      match Scalar.builtin? name with
      | some converter => converter value
      | none => .ok value

end Schema

end QueryAudit
