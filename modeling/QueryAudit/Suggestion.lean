import QueryAudit.NameTable

/-!
# Suggestions

For a name that is not known, the known names nearest to it are suggested: at most five, by edit
distance and then by name.
-/

namespace QueryAudit.Suggestion

/-! ## Edit distance -/

/-- Two rows of edit distances to the beginnings of a word: the last finished one, and the one that
is being filled. Column `j` is for the first `j` characters of the word. -/
structure Rows where
  finished : Array Nat
  current : Array Nat

namespace Rows

/-- The row of the empty word, and room for the next one. -/
def start (word : List Char) : Rows :=
  { finished := (List.range (word.length + 1)).toArray
    current := Array.replicate (word.length + 1) 0 }

/-- Write a cell of the current row; none if the column is out of range. -/
def write? (rows : Rows) (column cell : Nat) : Option Rows :=
  if h : column < rows.current.size then
    some { rows with current := rows.current.set column cell h }
  else none

/-- Fill the cell after a column from its three neighbours, where the row is for a word that ends in
`c` and the column for one that ends in `d`; none if a neighbour or the cell is out of range. -/
def fill? (c : Char) (rows : Rows) (d : Char) (column : Nat) : Option Rows := do
  let diagonal ← rows.finished[column]?
  let above ← rows.finished[column + 1]?
  let left ← rows.current[column]?
  rows.write? (column + 1) (min (min (diagonal + if c = d then 0 else 1) (above + 1)) (left + 1))

/-- Fill the row for one more character of the first word, which comes after `number` others. Then
the rows change places, and the next one is written over the one before this. -/
def next? (word : List Char) (rows : Rows) (c : Char) (number : Nat) : Option Rows := do
  let begun ← rows.write? 0 (number + 1)
  let filled ← word.zipIdx.foldlM (fun rows (d, column) => rows.fill? c d column) begun
  return { finished := filled.current, current := filled.finished }

end Rows

/-- The edit distance of two words: the last cell of the row for all characters of the first; none
if some index is out of range on the way. -/
def editDistance? (a b : String) : Option Nat := do
  let word := b.toList
  let rows ← a.toList.zipIdx.foldlM (fun rows (c, number) => rows.next? word c number)
    (Rows.start word)
  rows.finished[word.length]?

def editDistance (a b : String) : Nat := (editDistance? a b).getD 0

/-! ## The options near a name -/

/-- How far an option is from a name. Equal up to letter case is one; `lower` brings a text into
lower case. -/
def distanceBy (lower : String → String) (name option : String) : Nat :=
  if lower option = lower name then 1 else editDistance name option

/-- How far an option may be from a name: two fifths of its characters, and one. -/
def threshold (name : String) : Nat := name.length * 2 / 5 + 1

/-- The order of options: by distance, then by name. -/
def nearer (a b : Nat × String) : Bool := a.1 < b.1 || (a.1 == b.1 && a.2 ≤ b.2)

/-- A list without the items that equal the one before them. -/
def dropRepeats {α : Type} [DecidableEq α] : List α → List α
  | [] => []
  | [last] => [last]
  | first :: second :: rest =>
      if first = second then dropRepeats (second :: rest)
      else first :: dropRepeats (second :: rest)

/-- The options near a name, nearest first, each once, five at most. -/
def nearestBy (lower : String → String) (name : String) (options : List String) : List String :=
  let close := options.filterMap fun option =>
    let d := distanceBy lower name option
    if d ≤ threshold name then some (d, option) else none
  ((dropRepeats (close.mergeSort nearer)).take 5).map Prod.snd

/-- A name in lower case. Names are made of ASCII letters, so letter case is that of ASCII. -/
def lowercase (name : String) : String := String.ofList (name.toList.map Char.toLower)

def nearest (name : String) (options : List String) : List String :=
  nearestBy lowercase name options

/-! ## Questions -/

/-- An option in quotes, after a space. -/
def quote (option : String) : String := " \"" ++ option ++ "\""

/-- Options in quotes: commas between them, and `or` before the last. -/
def listed : List String → String
  | [] => ""
  | [last] => quote last
  | [first, last] => quote first ++ " or" ++ quote last
  | first :: rest => quote first ++ "," ++ listed rest

/-- The question that lists options after its opening words, if there are any options. -/
def question? (opening : String) : List String → Option String
  | [] => none
  | options => some (opening ++ listed options ++ "?")

def suggestion? (lower : String → String) (opening : String) (options : List String)
    (name : String) : Option String :=
  question? opening (nearestBy lower name options)

/-- The question after a message, if there is something to suggest. -/
def question (options : List String) : String := (question? " Did you mean" options).getD ""

end QueryAudit.Suggestion
