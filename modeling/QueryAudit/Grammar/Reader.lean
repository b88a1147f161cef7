import QueryAudit.Document
import QueryAudit.Text

/-!
# Reading texts

Readers of parts of a text, and the tokens of the query language.
-/

/-!
## Reading texts by ordered choice

A reader takes characters off the front of a text or fails. Choice is ordered: the second reader is
tried only where the first one fails, and an accepted choice is never reopened. Repetition takes as
much as it can. A failed reader leaves no trace, since the cursor is a value.

White space, commas, byte order marks and comments are ignored: `token` takes them off before what
it reads, and every mark and word of the grammar is a token. What stands inside a token is read as
it is.

Some texts fit the grammar and are still refused, for a number without finite value, say. Such a
fault is noted in the cursor, the first one stays, and it counts only if the whole text fits.
-/

namespace QueryAudit

inductive ReadError where
  /-- The text does not fit the grammar, or holds a number beyond the finite ones. -/
  | malformed
  | multipleOperations
  | operationDuplicated (name : Name) (second first : Position)
  | fragmentDuplicated (name : Name) (second first : Position)
  | missingOperation
  | recursionLimitExceeded
  | multipleRoots (kind : OperationKind) (root schema : Position)
  | missingQueryRoot (schema : Position)
deriving DecidableEq, Repr

namespace ReadError

def message : ReadError → String
  | .malformed => "malformed text"
  | .multipleOperations => "document contains multiple operations"
  | .operationDuplicated name _ _ => "operation " ++ name ++ " is defined twice"
  | .fragmentDuplicated name _ _ => "fragment " ++ name ++ " is defined twice"
  | .missingOperation => "document does not contain an operation"
  | .recursionLimitExceeded => "recursion limit exceeded."
  | .multipleRoots kind _ _ => "multiple " ++ kind.text ++ " roots in schema definition"
  | .missingQueryRoot _ => "schema definition is missing query root"

def positions : ReadError → List Position
  | .operationDuplicated _ second first => [second, first]
  | .fragmentDuplicated _ second first => [second, first]
  | .multipleRoots _ root schema => [root, schema]
  | .missingQueryRoot schema => [schema]
  | _ => []

end ReadError

namespace Grammar

/-- What is left of a text, the number of bytes before it, the positions of the text, and the first
fault met so far. -/
structure Cursor where
  rest : List Char
  offset : Nat
  positions : PositionMap
  fault : Option ReadError

def byteCount (chars : List Char) : Nat := chars.foldl (fun n c => n + c.utf8Size) 0

namespace Cursor

def ofChars (chars : List Char) : Cursor := ⟨chars, 0, PositionMap.ofText chars, none⟩

def move (cursor : Cursor) (taken rest : List Char) : Cursor :=
  { cursor with rest, offset := cursor.offset + byteCount taken }

end Cursor

abbrev Reader (α : Type) := StateT Cursor Option α

def isLineEnd (c : Char) : Bool := c == '\n' || c == '\r'

def isIgnored (c : Char) : Bool :=
  c == ' ' || c == ',' || c == '\t' || c == '\ufeff' || isLineEnd c

/-- Split off the ignored characters and comments at the front. A comment runs to the end of its
line. -/
def splitIgnored (inComment : Bool) : List Char → List Char × List Char
  | [] => ([], [])
  | c :: rest =>
      if inComment then
        let (taken, left) := splitIgnored (!isLineEnd c) rest
        (c :: taken, left)
      else if isIgnored c then
        let (taken, left) := splitIgnored false rest
        (c :: taken, left)
      else if c = '#' then
        let (taken, left) := splitIgnored true rest
        (c :: taken, left)
      else ([], c :: rest)

/-- Take the rest of a text off if it starts with some characters. -/
def dropWord : List Char → List Char → Option (List Char)
  | [], rest => some rest
  | _ :: _, [] => none
  | w :: word, c :: rest => if w = c then dropWord word rest else none

namespace Reader

variable {α β : Type}

def skip : Reader Unit := fun cursor =>
  let (taken, rest) := splitIgnored false cursor.rest
  some ((), cursor.move taken rest)

def token (reader : Reader α) : Reader α := skip *> reader

def here : Reader Position := token fun cursor =>
  some (cursor.positions.locate cursor.offset, cursor)

def word (text : String) : Reader Unit := fun cursor =>
  let chars := text.toList
  (dropWord chars cursor.rest).map fun rest => ((), cursor.move chars rest)

/-- Take a mark or a keyword; nothing is asked of what follows it. -/
def mark (text : String) : Reader Unit := token (word text)

def run (accepts : Char → Bool) : Reader (List Char) := fun cursor =>
  let taken := cursor.rest.takeWhile accepts
  some (taken, cursor.move taken (cursor.rest.dropWhile accepts))

def one (accepts : Char → Bool) : Reader Char := fun cursor =>
  match cursor.rest with
  | c :: rest => if accepts c then some (c, cursor.move [c] rest) else none
  | [] => none

def scan (scanner : List Char → Option (α × List Char)) : Reader α := fun cursor =>
  (scanner cursor.rest).map fun (result, rest) =>
    (result, cursor.move (cursor.rest.take (cursor.rest.length - rest.length)) rest)

def maybe (reader : Reader α) : Reader (Option α) := (some <$> reader) <|> pure none

def notAhead (reader : Reader α) : Reader Unit := fun cursor =>
  match reader cursor with
  | some _ => none
  | none => some ((), cursor)

/-- Read at most `bound` times, as often as possible. -/
def atMost (reader : Reader α) : Nat → Reader (List α)
  | 0 => pure []
  | bound + 1 =>
      (do
        let first ← reader
        let others ← atMost reader bound
        pure (first :: others)) <|> pure []

/-- Read as often as possible. Each round takes a character, so the characters left bound the
rounds. -/
def zeroOrMore (reader : Reader α) : Reader (List α) := fun cursor =>
  atMost reader cursor.rest.length cursor

def oneOrMore (reader : Reader α) : Reader (List α) := do
  let first ← reader
  let others ← zeroOrMore reader
  pure (first :: others)

def listOrNone (reader : Reader (List α)) : Reader (List α) := reader <|> pure []

def blame (error : ReadError) : Reader Unit := fun cursor =>
  some ((), { cursor with fault := cursor.fault <|> some error })

def finish : Reader Unit := token fun cursor =>
  if cursor.rest.isEmpty then some ((), cursor) else none

def onText (reader : Reader α) (text : String) : Except ReadError α :=
  match (reader <* finish) (Cursor.ofChars text.toList) with
  | none => .error .malformed
  | some (result, cursor) =>
      match cursor.fault with
      | some error => .error error
      | none => .ok result

end Reader

end Grammar

end QueryAudit

/-!
## Tokens

Names, numerals, strings and type references. Nothing is ignored inside a token.
-/

namespace QueryAudit.Grammar

def isLetter (c : Char) : Bool := ('a' ≤ c && c ≤ 'z') || ('A' ≤ c && c ≤ 'Z')

def isDigit (c : Char) : Bool := '0' ≤ c && c ≤ '9'

def isNameStart (c : Char) : Bool := isLetter c || c == '_'

def isNameChar (c : Char) : Bool := isNameStart c || isDigit c

def hexValue? (c : Char) : Option Nat :=
  if isDigit c then some (c.toNat - '0'.toNat)
  else if 'a' ≤ c ∧ c ≤ 'f' then some (c.toNat - 'a'.toNat + 10)
  else if 'A' ≤ c ∧ c ≤ 'F' then some (c.toNat - 'A'.toNat + 10)
  else none

def hexQuad? (a b c d : Char) : Option Nat := do
  pure ((((← hexValue? a) * 16 + (← hexValue? b)) * 16 + (← hexValue? c)) * 16 + (← hexValue? d))

def simpleEscape? : Char → Option Char
  | '"' => some '"'
  | '\\' => some '\\'
  | '/' => some '/'
  | 'b' => some '\x08'
  | 'f' => some '\x0c'
  | 'n' => some '\n'
  | 'r' => some '\r'
  | 't' => some '\t'
  | _ => none

/-- The content of a string up to its closing quote, which is taken too. A line end or an unknown
escape inside is refused, and so is an escaped surrogate. -/
def stringBody : List Char → Option (List Char × List Char)
  | [] => none
  | '"' :: rest => some ([], rest)
  | '\\' :: 'u' :: a :: b :: c :: d :: rest =>
      match hexQuad? a b c d with
      | none => none
      | some code =>
          if 0xD800 ≤ code ∧ code ≤ 0xDFFF then none
          else (stringBody rest).map fun (content, left) => (Char.ofNat code :: content, left)
  | '\\' :: e :: rest =>
      match simpleEscape? e with
      | none => none
      | some c => (stringBody rest).map fun (content, left) => (c :: content, left)
  | c :: rest =>
      if c = '\\' ∨ isLineEnd c then none
      else (stringBody rest).map fun (content, left) => (c :: content, left)

/-- The raw content of a block string up to its closing quotes, which are taken too. Three quotes
after a backslash do not close it, and the backslash stays. -/
def blockBody : List Char → Option (List Char × List Char)
  | [] => none
  | '"' :: '"' :: '"' :: rest => some ([], rest)
  | '\\' :: '"' :: '"' :: '"' :: rest =>
      (blockBody rest).map fun (content, left) => ('\\' :: '"' :: '"' :: '"' :: content, left)
  | c :: rest => (blockBody rest).map fun (content, left) => (c :: content, left)

/-- A string after its opening quotes. Three quotes that open no closed block string are an empty
string and a quote. -/
def stringScan : List Char → Option (String × List Char)
  | '"' :: '"' :: '"' :: rest =>
      match blockBody rest with
      | some (raw, left) => some (String.ofList (BlockString.value raw), left)
      | none => some ("", '"' :: rest)
  | '"' :: rest => (stringBody rest).map fun (content, left) => (String.ofList content, left)
  | _ => none

namespace Reader

def nameStart : Reader Char := one isNameStart

def rawName : Reader Name := do
  let first ← nameStart
  let others ← run isNameChar
  pure (String.ofList (first :: others))

def name : Reader Name := token rawName

def digits : Reader (List Char) := do
  let first ← one isDigit
  let others ← run isDigit
  pure (first :: others)

def exponent : Reader Int := do
  word "E" <|> word "e"
  let negative ← (word "-" *> pure true) <|> (word "+" *> pure false) <|> pure false
  let value := (Numeral.digitsValue (← digits) : Int)
  pure (if negative then -value else value)

/-- A numeral as it stands. No name may follow it at once; another numeral may. -/
def numeral : Reader Numeral := do
  let negative ← (word "-" *> pure true) <|> pure false
  let whole ← (word "0" *> pure ['0']) <|> digits
  let fraction ← (word "." *> digits) <|> pure []
  let exponent ← maybe exponent
  notAhead nameStart
  pure { negative, whole, fraction, exponent }

/-- A number. One beyond the finite ones is a fault. -/
def number : Reader Number := token do
  let numeral ← numeral
  match Number.ofNumeral numeral with
  | some n => pure n
  | none =>
      blame .malformed
      pure (.integer 0)

def string : Reader String := token (scan stringScan)

def boolean : Reader Bool := (mark "true" *> pure true) <|> (mark "false" *> pure false)

def null : Reader Unit := mark "null"

/-- The name of an enum value: a name that does not start with the text of a boolean or of null. -/
def enumName : Reader Name := notAhead boolean *> notAhead null *> name

/-- A type reference as it stands, with lists nested to a given depth at most. -/
def rawTypeRef : Nat → Reader TypeRef
  | 0 => failure
  | depth + 1 => do
      let core ← (TypeRef.named <$> rawName) <|>
        (TypeRef.list <$> (word "[" *> rawTypeRef depth <* word "]"))
      let nonNull ← (word "!" *> pure true) <|> pure false
      pure (core nonNull)

/-- A type reference. Each list takes a character, so the characters left bound the nesting. -/
def typeRef : Reader TypeRef := token fun cursor => rawTypeRef (cursor.rest.length + 1) cursor

end Reader

end QueryAudit.Grammar
