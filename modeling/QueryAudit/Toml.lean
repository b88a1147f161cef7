import QueryAudit.Grammar.Reader
import QueryAudit.NameTable

/-!
# TOML

The tables that a text in TOML adds up to, and how such a text is read.
-/

/-!
## TOML tables

A text is a list of statements: headers that open tables, and keys with values that go into the
table opened last. A table may be written in several parts, but only in some ways; its origin says
which. A table under its own header may come after the tables inside it, and a table made by dotted
keys grows by dotted keys alone.
-/

namespace QueryAudit

inductive Toml.Origin where
  /-- Written as a value, in braces. -/
  | inline
  /-- Opened by a header of its own, or the table of the whole text. -/
  | header
  /-- Named on the way by the header of another table. -/
  | implied
  /-- Named on the way by a dotted key. -/
  | dotted
deriving DecidableEq, Repr

inductive Toml where
  | string (text : String)
  | integer (n : Int)
  /-- A number with a point or an exponent, or one beyond the finite ones, as it is written. -/
  | float (written : String)
  | boolean (b : Bool)
  | array (items : List Toml)
  | table (origin : Toml.Origin) (entries : List (Name × Toml))
  /-- Tables under one name, each opened by a header; the last one is open. -/
  | tables (all : List (List (Name × Toml)))
deriving Repr

namespace Toml

abbrev Entries := NameTable Toml

/-- A key: the tables on the way, and the name in the last of them. -/
structure Key where
  path : List Name
  last : Name
deriving DecidableEq, Repr

inductive Statement where
  | header (key : Key)
  | item (key : Key)
  | entry (key : Key) (value : Toml)

/-- Change the table at the end of a path that starts in a table of the given origin. A table that
is missing on the way is made, of origin `made`; only tables of the passable origins are entered. -/
def changeAt (made : Origin) (passable : Origin → Bool)
    (change : Origin → Entries → Option Entries) : List Name → Origin → Entries → Option Entries
  | [], origin, entries => change origin entries
  | name :: rest, _, entries =>
      match entries.find? name with
      | none =>
          (changeAt made passable change rest made []).map fun inner =>
            entries.insert name (.table made inner)
      | some (.table origin inner) =>
          if passable origin then
            (changeAt made passable change rest origin inner).map fun inner =>
              entries.insert name (.table origin inner)
          else none
      | some (.tables all) =>
          match all.reverse with
          | [] => none
          | newest :: older =>
              (changeAt made passable change rest .header newest).map fun newest =>
                entries.insert name (.tables (newest :: older).reverse)
      | some _ => none

def changeByHeader (change : Entries → Option Entries) (path : List Name) (entries : Entries) :
    Option Entries :=
  changeAt .implied (fun origin => origin ≠ .inline) (fun _ => change) path .header entries

/-- Put a value under a key. Dotted keys pass only tables that no header and no braces define, and
put values only into tables made by dotted keys. A name holds one value. -/
def putEntry (key : Key) (value : Toml) (entries : Entries) : Option Entries :=
  let put (origin : Origin) (table : Entries) : Option Entries :=
    if (!key.path.isEmpty && origin ≠ .dotted) || table.has key.last then none
    else some (table.insert key.last value)
  changeAt .dotted (fun origin => origin = .implied ∨ origin = .dotted) put key.path .header entries

/-- Open a table. It may have been named on the way by other headers, but not defined. -/
def openTable (name : Name) (entries : Entries) : Option Entries :=
  match entries.find? name with
  | none => some (entries.insert name (.table .header []))
  | some (.table .implied inner) => some (entries.insert name (.table .header inner))
  | some _ => none

/-- Open one more table under a name that holds tables alone. -/
def openItem (name : Name) (entries : Entries) : Option Entries :=
  match entries.find? name with
  | none => some (entries.insert name (.tables [[]]))
  | some (.tables all) => some (entries.insert name (.tables (all ++ [[]])))
  | some _ => none

/-- A text that is partly taken in: the path to the open table, and the table of the whole text. -/
structure Draft where
  current : List Name
  entries : Entries

def Draft.add (draft : Draft) : Statement → Option Draft
  | .header key =>
      (changeByHeader (openTable key.last) key.path draft.entries).map fun entries =>
        ⟨key.path ++ [key.last], entries⟩
  | .item key =>
      (changeByHeader (openItem key.last) key.path draft.entries).map fun entries =>
        ⟨key.path ++ [key.last], entries⟩
  | .entry key value =>
      (changeByHeader (putEntry key value) draft.current draft.entries).map fun entries =>
        ⟨draft.current, entries⟩

def ofStatements (statements : List Statement) : Option Entries :=
  (statements.foldlM Draft.add ⟨[], []⟩).map Draft.entries

def inlineTable (entries : List (Key × Toml)) : Option Toml :=
  (entries.foldlM (fun table (key, value) => putEntry key value table) []).map (.table .inline)

end Toml

end QueryAudit

/-!
## TOML strings

Four forms: in double quotes, with escapes; in single quotes, as they stand; and both over several
lines between three quotes. In the long forms a line end right after the opening quotes is dropped,
line ends become `\n`, and one or two quotes may stand before the closing ones.
-/

namespace QueryAudit.Toml

open Grammar (hexValue?)

/-- Whether a character may stand as it is: a tab, or one that is no control character of ASCII. -/
def isPlain (c : Char) : Bool := c == '\t' || (' ' ≤ c && c ≠ '\x7f')

def escape? : Char → Option Char
  | 'b' => some '\x08'
  | 't' => some '\t'
  | 'n' => some '\n'
  | 'f' => some '\x0c'
  | 'r' => some '\r'
  | '"' => some '"'
  | '\\' => some '\\'
  | _ => none

def coded? (digits : List Char) : Option Char := do
  let code ← digits.foldlM (fun n c => (hexValue? c).map fun d => 16 * n + d) 0
  if code < 0xD800 ∨ (0xDFFF < code ∧ code < 0x110000) then some (Char.ofNat code) else none

def andThen (c : Char) (scanned : Option (List Char × List Char)) :
    Option (List Char × List Char) :=
  scanned.map fun (content, rest) => (c :: content, rest)

/-- The content of a string with escapes, up to its closing quote, which is taken too. -/
def basicBody : List Char → Option (List Char × List Char)
  | '"' :: rest => some ([], rest)
  | '\\' :: 'u' :: a :: b :: c :: d :: rest =>
      match coded? [a, b, c, d] with
      | some coded => andThen coded (basicBody rest)
      | none => none
  | '\\' :: e :: rest =>
      match escape? e with
      | some escaped => andThen escaped (basicBody rest)
      | none =>
          match e, rest with
          | 'U', a :: b :: c :: d :: e :: f :: g :: h :: rest =>
              match coded? [a, b, c, d, e, f, g, h] with
              | some coded => andThen coded (basicBody rest)
              | none => none
          | _, _ => none
  | c :: rest => if isPlain c && c ≠ '\\' then andThen c (basicBody rest) else none
  | [] => none

/-- The content of a string without escapes, up to its closing quote, which is taken too. -/
def literalBody : List Char → Option (List Char × List Char)
  | '\x27' :: rest => some ([], rest)
  | c :: rest => if isPlain c then andThen c (literalBody rest) else none
  | [] => none

inductive LongScan where
  | content
  /-- After a backslash and blanks: only a line end may follow. -/
  | lineRest
  /-- After such a line end: blanks and line ends are dropped. -/
  | indent
deriving DecidableEq, Repr

/-- The content of a long string with escapes, up to its closing quotes, which are taken too. A
backslash at the end of a line drops the line end and all blanks and line ends after it. -/
def longBasicBody : LongScan → List Char → Option (List Char × List Char)
  | _, [] => none
  | .lineRest, '\r' :: '\n' :: rest => longBasicBody .indent rest
  | .lineRest, c :: rest =>
      if c = '\n' then longBasicBody .indent rest
      else if c = ' ' ∨ c = '\t' then longBasicBody .lineRest rest
      else none
  | .indent, '\r' :: '\n' :: rest => longBasicBody .indent rest
  | .indent, ' ' :: rest => longBasicBody .indent rest
  | .indent, '\t' :: rest => longBasicBody .indent rest
  | .indent, '\n' :: rest => longBasicBody .indent rest
  | _, '"' :: '"' :: '"' :: '"' :: '"' :: rest => some (['"', '"'], rest)
  | _, '"' :: '"' :: '"' :: '"' :: rest => some (['"'], rest)
  | _, '"' :: '"' :: '"' :: rest => some ([], rest)
  | _, '\r' :: '\n' :: rest => andThen '\n' (longBasicBody .content rest)
  | _, '\n' :: rest => andThen '\n' (longBasicBody .content rest)
  | _, '\\' :: 'u' :: a :: b :: c :: d :: rest =>
      match coded? [a, b, c, d] with
      | some coded => andThen coded (longBasicBody .content rest)
      | none => none
  | _, '\\' :: '\r' :: '\n' :: rest => longBasicBody .indent rest
  | _, '\\' :: e :: rest =>
      match escape? e with
      | some escaped => andThen escaped (longBasicBody .content rest)
      | none =>
          match e, rest with
          | '\n', rest => longBasicBody .indent rest
          | ' ', rest => longBasicBody .lineRest rest
          | '\t', rest => longBasicBody .lineRest rest
          | 'U', a :: b :: c :: d :: e :: f :: g :: h :: rest =>
              match coded? [a, b, c, d, e, f, g, h] with
              | some coded => andThen coded (longBasicBody .content rest)
              | none => none
          | _, _ => none
  | _, c :: rest =>
      if isPlain c && c ≠ '\\' then andThen c (longBasicBody .content rest) else none

/-- The content of a long string without escapes, up to its closing quotes, which are taken too. -/
def longLiteralBody : List Char → Option (List Char × List Char)
  | [] => none
  | '\x27' :: '\x27' :: '\x27' :: '\x27' :: '\x27' :: rest => some (['\x27', '\x27'], rest)
  | '\x27' :: '\x27' :: '\x27' :: '\x27' :: rest => some (['\x27'], rest)
  | '\x27' :: '\x27' :: '\x27' :: rest => some ([], rest)
  | '\r' :: '\n' :: rest => andThen '\n' (longLiteralBody rest)
  | '\n' :: rest => andThen '\n' (longLiteralBody rest)
  | c :: rest => if isPlain c then andThen c (longLiteralBody rest) else none

def dropLineEnd : List Char → List Char
  | '\r' :: '\n' :: rest => rest
  | '\n' :: rest => rest
  | chars => chars

def shortString : List Char → Option (List Char × List Char)
  | '"' :: rest => basicBody rest
  | '\x27' :: rest => literalBody rest
  | _ => none

def anyString : List Char → Option (List Char × List Char)
  | '"' :: '"' :: '"' :: rest => longBasicBody .content (dropLineEnd rest)
  | '\x27' :: '\x27' :: '\x27' :: rest => longLiteralBody (dropLineEnd rest)
  | chars => shortString chars

end QueryAudit.Toml

/-!
## Reading TOML

Statements stand on lines of their own, and blanks are spaces and tabs. Inside the brackets of an
array, line ends and comments count as blanks too; inside the braces of a table they do not. Dates
and times are not read. The brackets and braces around a value are limited, and so are the names of
a key; the two are counted apart, each value and each key for itself.
-/

namespace QueryAudit.Toml

open Grammar

/-- How deep arrays and tables in braces may be nested in each other. -/
def bracketLimit : Nat := 79

def keyLimit : Nat := 79

def isBlank (c : Char) : Bool := c == ' ' || c == '\t'

namespace Reader

open Grammar.Reader

def blanks : Reader Unit := do let _ ← run isBlank

def lineEnd : Reader Unit := word "\n" <|> word "\r\n"

def comment : Reader Unit := do
  word "#"
  let _ ← run isPlain

def textEnd : Reader Unit := fun cursor => if cursor.rest.isEmpty then some ((), cursor) else none

def restOfLine : Reader Unit := do
  blanks
  let _ ← maybe comment
  lineEnd <|> textEnd

/-- Blanks, line ends and comments inside an array. -/
def gap : Reader Unit := do
  let blank : Reader Unit := do let _ ← one isBlank
  let _ ← zeroOrMore (blank <|> lineEnd <|> comment)

def isKeyChar (c : Char) : Bool := isNameChar c || c == '-'

def simpleKey : Reader Name :=
  (String.ofList <$> scan shortString) <|> do
    let first ← one isKeyChar
    let others ← run isKeyChar
    pure (String.ofList (first :: others))

/-- A key, with blanks around its names; one with too many names is refused. -/
def key : Reader Key := do
  let name : Reader Name := blanks *> simpleKey <* blanks
  let first ← name
  let others ← zeroOrMore (word "." *> name)
  let names := first :: others
  if keyLimit < names.length then failure
  pure ⟨names.dropLast, names.getLastD first⟩

/-- Digits of a class, with single underscores between them. -/
def digitRun (isDigit : Char → Bool) : Reader (List Char) := do
  let first ← one isDigit
  let others ← zeroOrMore ((one isDigit) <|> (word "_" *> one isDigit))
  pure (first :: others)

/-- A sign: whether it is a minus. -/
def sign : Reader Bool := (word "-" *> pure true) <|> (word "+" *> pure false) <|> pure false

/-- Digits without a zero at the front, unless it is the only one. -/
def wholeDigits : Reader (List Char) :=
  (word "0" *> pure ['0']) <|> do
    notAhead (word "0")
    digitRun isDigit

def fraction : Reader (List Char) := word "." *> digitRun isDigit

def exponent : Reader Int := do
  let _ ← one fun c => c == 'e' || c == 'E'
  let negative ← sign
  let digits ← digitRun isDigit
  let magnitude : Int := Numeral.digitsValue digits
  pure (if negative then -magnitude else magnitude)

def float : Reader Toml := fun cursor =>
  let numeral : Reader Unit := do
    let negative ← sign
    let whole ← wholeDigits
    let fraction ← maybe fraction
    let exponent ← maybe exponent
    if fraction.isNone && exponent.isNone then failure
    match Number.ofNumeral ⟨negative, whole, fraction.getD [], exponent⟩ with
    | some _ => pure ()
    | none => failure
  let special : Reader Unit := sign *> (word "inf" <|> word "nan")
  ((numeral <|> special) cursor).map fun (_, after) =>
    let written := cursor.rest.take (cursor.rest.length - after.rest.length)
    (.float (String.ofList written), after)

def digitsInBase (base : Nat) (digits : List Char) : Int :=
  digits.foldl (fun n c => base * n + ((hexValue? c).getD 0 : Nat)) (0 : Nat)

def basedInteger (mark : String) (base : Nat) : Reader Int := do
  word mark
  digitsInBase base <$> digitRun fun c => (hexValue? c).any fun d => d < base

/-- An integer of 64 signed bits. -/
def integer : Reader Toml := do
  let decimal : Reader Int := do
    let negative ← sign
    let magnitude := digitsInBase 10 (← wholeDigits)
    pure (if negative then -magnitude else magnitude)
  let n ← basedInteger "0x" 16 <|> basedInteger "0o" 8 <|> basedInteger "0b" 2 <|> decimal
  if -9223372036854775808 ≤ n ∧ n ≤ 9223372036854775807 then pure (.integer n) else failure

def boolean : Reader Toml :=
  (word "true" *> pure (.boolean true)) <|> (word "false" *> pure (.boolean false))

def string : Reader Toml := (Toml.string ∘ String.ofList) <$> scan anyString

/-- An array; `inner` reads its items. -/
def array (inner : Reader Toml) : Reader Toml := do
  let item : Reader Toml := gap *> inner <* gap
  word "["
  let items ← listOrNone do
    let first ← item
    let others ← zeroOrMore (word "," *> item)
    let _ ← maybe (word ",")
    pure (first :: others)
  gap
  word "]"
  pure (.array items)

/-- A table in braces; `inner` reads its values. -/
def inline (inner : Reader Toml) : Reader Toml := do
  let entry : Reader (Key × Toml) := do
    let key ← key
    word "="
    blanks
    let value ← inner
    blanks
    pure (key, value)
  word "\x7b"
  let entries ← listOrNone do
    let first ← entry
    let others ← zeroOrMore (word "," *> entry)
    pure (first :: others)
  blanks
  word "\x7d"
  match inlineTable entries with
  | some result => pure result
  | none => failure

def scalar : Reader Toml := string <|> boolean <|> float <|> integer

/-- A value with arrays and tables nested to a given depth at most. -/
def valueUpTo : Nat → Reader Toml
  | 0 => scalar
  | depth + 1 => scalar <|> array (valueUpTo depth) <|> inline (valueUpTo depth)

def value : Reader Toml := valueUpTo bracketLimit

def statement : Reader Statement :=
  (Statement.item <$> (word "[[" *> key <* word "]]")) <|>
    (Statement.header <$> (word "[" *> key <* word "]")) <|> do
      let key ← key
      word "="
      blanks
      pure (.entry key (← value))

def line : Reader (Option Statement) := do
  notAhead textEnd
  blanks
  let found ← maybe statement
  restOfLine
  pure found

def statements : Reader (List Statement) := do
  let _ ← maybe (word "\ufeff")
  let lines ← zeroOrMore line
  textEnd
  pure (lines.filterMap id)

end Reader

def ofText? (text : String) : Option Entries := do
  let (statements, _) ← Reader.statements (Cursor.ofChars text.toList)
  ofStatements statements

end QueryAudit.Toml
