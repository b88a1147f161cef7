import QueryAudit.Number
import QueryAudit.Text
import QueryAudit.Value.Basic

/-!
# The text of values

Numbers are written with the fewest digits that read back, strings in quotes, and lists and objects
with brackets and braces around their parts.
-/

/-!
## Shortest decimals

The text of a double is made of the fewest decimal digits that read back as the same number. The
numbers that read back as it form an interval, from halfway to the neighbour below to halfway to
the neighbour above, ends included when the significand is even. For one digit, two digits and so
on, the two neighbours of the value on that decimal grid are tried; the first grid with a hit wins,
of two hits the nearer, and of two equally near ones the even one.
-/

namespace QueryAudit

/-- The decimal `digits * 10 ^ exponent`. -/
structure Decimal where
  digits : Nat
  exponent : Int
deriving DecidableEq, Repr, Inhabited

namespace Double

/-- Compare `a * 10 ^ i` with `b * 2 ^ j`. -/
def compareScaled (a : Nat) (i : Int) (b : Nat) (j : Int) : Ordering :=
  compare (a * power 10 i * power 2 (-j)) (b * power 2 j * power 10 (-i))

def readsBack (x : Double) (d : Decimal) : Bool :=
  let narrow := x.significand == Nat.pow 2 52 && x.exponent != leastExponent
  let low := if narrow then 4 * x.significand - 1 else 4 * x.significand - 2
  let high := 4 * x.significand + 2
  let closed := x.significand % 2 == 0
  let toLow := compareScaled d.digits d.exponent low (x.exponent - 2)
  let toHigh := compareScaled d.digits d.exponent high (x.exponent - 2)
  (toLow == .gt || (closed && toLow == .eq)) && (toHigh == .lt || (closed && toHigh == .eq))

/-- The decimal exponent of the leading digit of a double that is not zero: the value times 10^400
is at least one for every double, and the number of its digits tells the exponent. -/
def leadingExponent (x : Double) : Int :=
  let shifted := x.significand * Nat.pow 10 400 * power 2 x.exponent / power 2 (-x.exponent)
  (Nat.toDigits 10 shifted).length - 401

/-- The better of the two neighbours of a double on the grid of the given unit, if one reads back.
-/
def onGrid (x : Double) (unit : Int) : Option Decimal :=
  let num := x.significand * power 2 x.exponent * power 10 (-unit)
  let den := power 2 (-x.exponent) * power 10 unit
  let below : Decimal := ⟨num / den, unit⟩
  let above : Decimal := ⟨num / den + 1, unit⟩
  match x.readsBack below, x.readsBack above with
  | true, true =>
      let twice := 2 * (num % den)
      if twice < den then some below
      else if den < twice then some above
      else if below.digits % 2 = 0 then some below else some above
  | true, false => some below
  | false, true => some above
  | false, false => none

/-- The first hit on the grids of `used + 1`, `used + 2`, ... digits. -/
def searchGrids (x : Double) (leading : Int) : Nat → Nat → Option Decimal
  | 0, _ => none
  | more + 1, used =>
      match x.onGrid (leading - used) with
      | some d => some d
      | none => searchGrids x leading more (used + 1)

def exactDecimal (x : Double) : Decimal :=
  ⟨x.significand * power 2 x.exponent * power 5 (-x.exponent), min x.exponent 0⟩

/-- The shortest decimal that reads back as the magnitude of a double that is not zero. Seventeen
digits always suffice. -/
def shortest (x : Double) : Decimal :=
  (x.searchGrids x.leadingExponent 17 0).getD x.exactDecimal

structure Layout where
  leastPositional : Int
  greatestPositional : Int

/-- Numbers are written positionally from 0.00001 up to sixteen digits before the point, and with
an exponent that shows its sign beyond. -/
def Layout.standard : Layout := ⟨-5, 15⟩

def trimZeros (digits : List Char) : List Char :=
  (digits.reverse.dropWhile (· = '0')).reverse

/-- The text of a magnitude that is not zero. A positional number always has a point. -/
def magnitudeText (layout : Layout) (d : Decimal) : String :=
  let all := Nat.toDigits 10 d.digits
  let leading : Int := all.length - 1 + d.exponent
  let digits := trimZeros all
  if layout.leastPositional ≤ leading ∧ leading ≤ layout.greatestPositional then
    if leading < 0 then
      String.ofList ('0' :: '.' :: List.replicate (-leading - 1).toNat '0' ++ digits)
    else
      let whole := leading.toNat + 1
      let front := digits.take whole ++ List.replicate (whole - digits.length) '0'
      let back := digits.drop whole
      String.ofList (front ++ '.' :: (if back.isEmpty then ['0'] else back))
  else
    let tail := digits.drop 1
    let mantissa := digits.take 1 ++ (if tail.isEmpty then [] else '.' :: tail)
    let sign := if leading < 0 then '-' else '+'
    String.ofList (mantissa ++ 'e' :: sign :: Nat.toDigits 10 leading.natAbs)

/-- The text of a double: the shortest digits that read back, in the standard layout. -/
def text (x : Double) : String :=
  let magnitude :=
    if x.significand = 0 then "0.0" else magnitudeText Layout.standard x.shortest
  if x.negative then "-" ++ magnitude else magnitude

end Double

end QueryAudit

namespace QueryAudit.Number

def text : Number → String
  | .integer n => toString n
  | .double x => x.text

end QueryAudit.Number

/-!
## The text of constants

Lists and objects are written without a space after the comma: `[1,2]` and `{a: 1,b: 2}`.
-/

namespace QueryAudit.Value

mutual

def text : Constant → String
  | .null => "null"
  | .number n => n.text
  | .string s => Quoted.quote s
  | .boolean true => "true"
  | .boolean false => "false"
  | .enum e => e
  | .list items => "[" ++ ",".intercalate (itemTexts items) ++ "]"
  | .object fields => "\x7b" ++ ",".intercalate (fieldTexts fields) ++ "\x7d"

def itemTexts : List Constant → List String
  | [] => []
  | item :: rest => text item :: itemTexts rest

def fieldTexts : List (Name × Constant) → List String
  | [] => []
  | (name, value) :: rest => (name ++ ": " ++ text value) :: fieldTexts rest

end

/-- The text of supplied variables: sorted by name, with a space after each comma. -/
def variablesText (supplied : Variables) : String :=
  let sorted := supplied.mergeSort fun a b => a.1 ≤ b.1
  "\x7b" ++ ", ".intercalate (sorted.map fun (name, value) => name ++ ": " ++ text value) ++ "\x7d"

end QueryAudit.Value
