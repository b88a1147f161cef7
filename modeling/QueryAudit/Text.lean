/-!
# Texts

Places in a text, the classes of its characters, and the two ways in which strings are written: in
quotes, and as blocks of lines.
-/

/-!
## Positions in a text

A position is a line and a column, both counted from one. Nodes of a text are located by the number
of bytes before them, and the look-up walks that many *characters*: in a text with characters of
more than one byte the position runs ahead, and it never runs past the end.
-/

namespace QueryAudit

/-- A line and a column, counted from one. -/
structure Position where
  line : Nat
  column : Nat
deriving DecidableEq, Repr, Inhabited

namespace Position

def start : Position := ⟨1, 1⟩

/-- The position after one more character: a line feed opens a line, a carriage return only goes
back to the first column. -/
def advance (p : Position) (c : Char) : Position :=
  if c = '\n' then ⟨p.line + 1, 1⟩
  else if c = '\r' then ⟨p.line, 1⟩
  else ⟨p.line, p.column + 1⟩

/-- Whether a position comes no later than another, by line and then by column. -/
def before (p q : Position) : Bool :=
  p.line < q.line || (p.line == q.line && p.column ≤ q.column)

/-- The positions met while walking a text, from a given one. -/
def trail : Position → List Char → List Position
  | p, [] => [p]
  | p, c :: rest => p :: trail (p.advance c) rest

/-- The position after walking `steps` characters of a text, or all of them if there are fewer. -/
def walk : Position → Nat → List Char → Position
  | p, 0, _ => p
  | p, _ + 1, [] => p
  | p, steps + 1, c :: rest => walk (p.advance c) steps rest

end Position

structure PositionMap where
  marks : Array Position

namespace PositionMap

def ofText (text : List Char) : PositionMap :=
  ⟨(Position.trail Position.start text).toArray⟩

/-- The position that belongs to a number of characters walked; the last one beyond the end. -/
def locate (map : PositionMap) (steps : Nat) : Position :=
  (map.marks[min steps (map.marks.size - 1)]?).getD Position.start

end PositionMap

theorem Position.trail_length (p : Position) (text : List Char) :
    (Position.trail p text).length = text.length + 1 := by
  induction text generalizing p with
  | nil => rfl
  | cons c rest ih => simp [Position.trail, ih]

theorem Position.trail_get? (p : Position) (text : List Char) (steps : Nat) :
    (Position.trail p text)[min steps text.length]? = some (Position.walk p steps text) := by
  induction text generalizing p steps with
  | nil => cases steps <;> simp [Position.trail, Position.walk]
  | cons c rest ih =>
      cases steps with
      | zero => simp [Position.trail, Position.walk]
      | succ steps =>
          simp only [Position.trail, Position.walk, List.length_cons]
          rw [Nat.add_min_add_right, List.getElem?_cons_succ]
          exact ih (p.advance c) steps

/-- The table answers with the position reached by walking from the start. -/
theorem PositionMap.locate_ofText (text : List Char) (steps : Nat) :
    (PositionMap.ofText text).locate steps = Position.walk Position.start steps text := by
  have hlookup := Position.trail_get? Position.start text steps
  have hsize : (Position.trail Position.start text).toArray.size - 1 = text.length := by
    rw [List.size_toArray, Position.trail_length]
    rfl
  unfold PositionMap.locate PositionMap.ofText
  rw [hsize, List.getElem?_toArray, hlookup]
  rfl

end QueryAudit

/-!
## White space

The characters with the property White_Space.
-/

namespace QueryAudit.Text

def isBlank (c : Char) : Bool :=
  let n := c.toNat
  (0x9 ≤ n && n ≤ 0xD) || n == 0x20 || n == 0x85 || n == 0xA0 || n == 0x1680 ||
    (0x2000 ≤ n && n ≤ 0x200A) || n == 0x2028 || n == 0x2029 || n == 0x202F || n == 0x205F ||
    n == 0x3000

end QueryAudit.Text

/-!
## Quoted text

A string stands in double quotes. Carriage return, line feed, tab, the quote and the backslash have
escapes of their own; any other control character is written as its code point in decimal, padded to
four digits; all else stands as it is.
-/

namespace QueryAudit.Quoted

def isControl (c : Char) : Bool := c.toNat < 0x20 || (0x7F ≤ c.toNat && c.toNat < 0xA0)

def fourDigits (n : Nat) : List Char :=
  let digits := Nat.toDigits 10 n
  List.replicate (4 - digits.length) '0' ++ digits

def escape (c : Char) : List Char :=
  match c with
  | '\r' => ['\\', 'r']
  | '\n' => ['\\', 'n']
  | '\t' => ['\\', 't']
  | '"' => ['\\', '"']
  | '\\' => ['\\', '\\']
  | c => if isControl c then '\\' :: 'u' :: fourDigits c.toNat else [c]

def quote (text : String) : String :=
  String.ofList ('"' :: text.toList.flatMap escape ++ ['"'])

end QueryAudit.Quoted

/-!
## Block strings

The raw text of a block string is split into lines. The lines after the first lose the indentation
that they share, blank lines at both ends are dropped, and the rest is joined by line feeds.
-/

namespace QueryAudit.BlockString

def isSpace (c : Char) : Bool := c == ' ' || c == '\t'

def isBlankLine (line : List Char) : Bool := line.all isSpace

/-- The lines of a text, which ends lines by line feed, carriage return, or both. -/
def lines : List Char → List (List Char)
  | [] => [[]]
  | '\r' :: '\n' :: rest => [] :: lines rest
  | '\r' :: rest => [] :: lines rest
  | '\n' :: rest => [] :: lines rest
  | c :: rest =>
      match lines rest with
      | [] => [[c]]
      | line :: others => (c :: line) :: others

def indentOf (line : List Char) : Nat := (line.takeWhile isSpace).length

/-- The least indentation of the lines that hold more than blanks; zero if there are none. -/
def commonIndent (indented : List (List Char)) : Nat :=
  let indents := (indented.filter fun line => !isBlankLine line).map indentOf
  indents.min?.getD 0

/-- A line without the common indentation, if it is long enough to have it. -/
def outdent (indent : Nat) (line : List Char) : List Char :=
  if indent ≤ line.length then line.drop indent else line

def trimBlank (all : List (List Char)) : List (List Char) :=
  ((all.dropWhile isBlankLine).reverse.dropWhile isBlankLine).reverse

def value (raw : List Char) : List Char :=
  match lines raw with
  | [] => []
  | first :: indented =>
      let indent := commonIndent indented
      List.intercalate ['\n'] (trimBlank (first :: indented.map (outdent indent)))

end QueryAudit.BlockString
