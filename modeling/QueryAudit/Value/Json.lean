import QueryAudit.Grammar.Reader

/-!
# Constants written as JSON

Callers hand over the values of variables as JSON. Numbers are read as in literals, strings stay
strings and never become enum names, and the fields of an object are put in ascending order of their
names; of a repeated name the last value counts.
-/

namespace QueryAudit.Json

open Grammar (hexQuad? simpleEscape? isDigit)

def trimStart : List Char → List Char :=
  List.dropWhile fun c => c == ' ' || c == '\t' || c == '\n' || c == '\r'

def surrogatePair (high low : Nat) : Char :=
  Char.ofNat (0x10000 + (high - 0xD800) * 0x400 + (low - 0xDC00))

/-- The content of a string up to its closing quote, which is taken too. -/
def stringBody : List Char → Option (List Char × List Char)
  | [] => none
  | '"' :: rest => some ([], rest)
  | '\\' :: 'u' :: a :: b :: c :: d :: '\\' :: 'u' :: e :: f :: g :: h :: rest =>
      match hexQuad? a b c d, hexQuad? e f g h with
      | some high, some low =>
          if 0xD800 ≤ high ∧ high ≤ 0xDBFF ∧ 0xDC00 ≤ low ∧ low ≤ 0xDFFF then
            (stringBody rest).map fun (content, left) => (surrogatePair high low :: content, left)
          else
            (stringBody ('\\' :: 'u' :: e :: f :: g :: h :: rest)).map fun (content, left) =>
              (Char.ofNat high :: content, left)
      | _, _ => none
  | '\\' :: 'u' :: a :: b :: c :: d :: rest =>
      match hexQuad? a b c d with
      | some code => (stringBody rest).map fun (content, left) => (Char.ofNat code :: content, left)
      | none => none
  | '\\' :: e :: rest =>
      match simpleEscape? e with
      | some c => (stringBody rest).map fun (content, left) => (c :: content, left)
      | none => none
  | c :: rest =>
      if c = '\\' then none
      else (stringBody rest).map fun (content, left) => (c :: content, left)

def number (chars : List Char) : Option (Number × List Char) :=
  match Grammar.Reader.numeral ⟨chars, 0, ⟨#[]⟩, none⟩ with
  | none => none
  | some (numeral, cursor) => (Number.ofNumeral numeral).map fun n => (n, cursor.rest)

/-- Items separated by commas up to a closing mark, read in a number of rounds at most. -/
def items {α : Type} (item : List Char → Option (α × List Char)) (close : Char) :
    Nat → List Char → Option (List α × List Char)
  | 0, _ => none
  | rounds + 1, chars => do
      let (first, rest) ← item (trimStart chars)
      match trimStart rest with
      | ',' :: rest =>
          let (others, left) ← items item close rounds rest
          pure (first :: others, left)
      | c :: rest => if c = close then pure ([first], rest) else none
      | [] => none

/-- Items up to a closing mark, of which there may be none. -/
def group {α : Type} (item : List Char → Option (α × List Char)) (close : Char)
    (chars : List Char) : Option (List α × List Char) :=
  match trimStart chars with
  | c :: rest => if c = close then some ([], rest) else items item close chars.length (c :: rest)
  | [] => none

/-- A field of an object; `inner` reads its value. -/
def field (inner : List Char → Option (Constant × List Char)) (chars : List Char) :
    Option ((Name × Constant) × List Char) :=
  match chars with
  | '"' :: rest => do
      let (key, rest) ← stringBody rest
      match trimStart rest with
      | ':' :: rest =>
          let (value, rest) ← inner (trimStart rest)
          pure ((String.ofList key, value), rest)
      | _ => none
  | _ => none

def ordered (fields : List (Name × Constant)) : NameTable Constant :=
  (NameTable.merge [] fields).mergeSort fun a b => a.1 ≤ b.1

/-- A value with lists and objects nested to a given depth at most. -/
def value : Nat → List Char → Option (Constant × List Char)
  | 0, _ => none
  | depth + 1, chars =>
      match chars with
      | 'n' :: 'u' :: 'l' :: 'l' :: rest => some (.null, rest)
      | 't' :: 'r' :: 'u' :: 'e' :: rest => some (.boolean true, rest)
      | 'f' :: 'a' :: 'l' :: 's' :: 'e' :: rest => some (.boolean false, rest)
      | '"' :: rest =>
          (stringBody rest).map fun (content, left) => (.string (String.ofList content), left)
      | '[' :: rest => (group (value depth) ']' rest).map fun (all, left) => (.list all, left)
      | '\x7b' :: rest =>
          (group (field (value depth)) '\x7d' rest).map fun (all, left) =>
            (.object (ordered all), left)
      | _ => (number chars).map fun (n, left) => (.number n, left)

def read (text : String) : Option Constant :=
  let chars := trimStart text.toList
  match value (chars.length + 1) chars with
  | some (constant, rest) => if (trimStart rest).isEmpty then some constant else none
  | none => none

end QueryAudit.Json
