/-!
# Numbers

Numbers are exact data: integers, and doubles by their sign, significand and exponent.
-/

/-!
## Double precision numbers

A finite number of double precision is kept as exact data: a sign, a significand below 2^53 and a
binary exponent of at least -1074. Nothing here computes with machine floats; a decimal is read by
rounding an exact fraction to the nearest such number, a half to the even neighbour.
-/

namespace QueryAudit

/-- The number `± significand * 2 ^ exponent`. The significand is at least 2^52 unless the exponent
is the least one, so each number but zero has one form; zero keeps its sign. -/
structure Double where
  negative : Bool
  significand : Nat
  exponent : Int
deriving DecidableEq, Repr, Inhabited

namespace Double

def leastExponent : Int := -1074

def greatestExponent : Int := 971

def zero (negative : Bool) : Double := ⟨negative, 0, leastExponent⟩

/-- Equality as numbers: the two zeros are equal, and every other number only to itself. -/
def sameNumber (a b : Double) : Bool :=
  a.significand == b.significand && a.exponent == b.exponent &&
    (a.negative == b.negative || a.significand == 0)

/-- A quotient rounded to the nearest natural number, a half to the even one. -/
def roundQuotient (num den : Nat) : Nat :=
  let quotient := num / den
  let twice := 2 * (num % den)
  if twice < den then quotient
  else if den < twice then quotient + 1
  else if quotient % 2 = 0 then quotient else quotient + 1

/-- A power; one where the exponent is negative. -/
def power (base : Nat) (exponent : Int) : Nat := Nat.pow base exponent.toNat

/-- The fraction `num / den / 2 ^ exponent` with a natural numerator and denominator. -/
def scaled (num den : Nat) (exponent : Int) : Nat × Nat :=
  (num * power 2 (-exponent), den * power 2 exponent)

/-- The exponent at which a positive fraction has a significand of 53 bits, or the least one. -/
def fittingExponent (num den : Nat) : Int :=
  let guess : Int := (num.log2 : Int) - (den.log2 : Int) - 52
  let (n, d) := scaled num den guess
  let exact := if n < d * Nat.pow 2 52 then guess - 1 else guess
  max exact leastExponent

/-- The double nearest to the fraction `num / den`, or none when it lies beyond the finite ones. -/
def nearest (negative : Bool) (num den : Nat) : Option Double :=
  if num = 0 then some (zero negative)
  else
    let exponent := fittingExponent num den
    let (n, d) := scaled num den exponent
    let significand := roundQuotient n d
    let result : Double :=
      if significand = Nat.pow 2 53 then ⟨negative, Nat.pow 2 52, exponent + 1⟩
      else ⟨negative, significand, exponent⟩
    if greatestExponent < result.exponent then none else some result

/-- The double nearest to `digits * 10 ^ exponent`, or none when it lies beyond the finite ones.
Exponents so large or so small that they decide alone are settled without computing the power. -/
def ofDecimal (negative : Bool) (digits : Nat) (exponent : Int) : Option Double :=
  if digits = 0 then some (zero negative)
  else
    let magnitude : Int := (Nat.toDigits 10 digits).length + exponent
    if 310 < magnitude then none
    else if magnitude < -330 then some (zero negative)
    else nearest negative (digits * power 10 exponent) (power 10 (-exponent))

/-- The double nearest to an integer. Integers of 64 bits always have one. -/
def ofInt (n : Int) : Double :=
  (nearest (n < 0) n.natAbs 1).getD (zero false)

theorem sameNumber_refl (a : Double) : a.sameNumber a = true := by
  simp [sameNumber]

theorem sameNumber_symm (a b : Double) : a.sameNumber b = b.sameNumber a := by
  rw [Bool.eq_iff_iff]
  simp only [sameNumber, Bool.and_eq_true, Bool.or_eq_true, beq_iff_eq]
  constructor
  · rintro ⟨⟨h₁, h₂⟩, h₃⟩
    refine ⟨⟨h₁.symm, h₂.symm⟩, ?_⟩
    rcases h₃ with h | h
    · exact Or.inl h.symm
    · exact Or.inr (h₁ ▸ h)
  · rintro ⟨⟨h₁, h₂⟩, h₃⟩
    refine ⟨⟨h₁.symm, h₂.symm⟩, ?_⟩
    rcases h₃ with h | h
    · exact Or.inl h.symm
    · exact Or.inr (h₁ ▸ h)

end Double

end QueryAudit

/-!
## Integers and doubles

A number is an integer of 64 bits or a double. A numeral without point and exponent is an integer
when it fits (unsigned, or signed when it is negative); every other numeral, and `-0`, is a double.
-/

namespace QueryAudit

inductive Number where
  /-- An integer from -2^63 to 2^64 - 1. -/
  | integer (n : Int)
  | double (x : Double)
deriving DecidableEq, Repr

/-- A numeral: its sign, the digits before and after the point, and its exponent. -/
structure Numeral where
  negative : Bool
  whole : List Char
  fraction : List Char
  exponent : Option Int
deriving DecidableEq, Repr

namespace Numeral

def digitsValue (digits : List Char) : Nat :=
  digits.foldl (fun n c => 10 * n + (c.toNat - '0'.toNat)) 0

def isIntegral (n : Numeral) : Bool := n.fraction.isEmpty && n.exponent.isNone

end Numeral

namespace Number

def greatestInteger : Nat := 18446744073709551615

def leastMagnitude : Nat := 9223372036854775808

/-- The number that a numeral writes, or none when it lies beyond the finite doubles. -/
def ofNumeral (n : Numeral) : Option Number :=
  let digits := Numeral.digitsValue (n.whole ++ n.fraction)
  let asDouble := (Double.ofDecimal n.negative digits
    (n.exponent.getD 0 - n.fraction.length)).map Number.double
  if n.isIntegral then
    if n.negative then
      if 0 < digits ∧ digits ≤ leastMagnitude then some (.integer (-(digits : Int))) else asDouble
    else if digits ≤ greatestInteger then some (.integer digits)
    else asDouble
  else asDouble

/-- Equality as numbers; an integer never equals a double. -/
def same : Number → Number → Bool
  | .integer a, .integer b => a == b
  | .double a, .double b => a.sameNumber b
  | _, _ => false

def signedInteger? : Number → Option Int
  | .integer n => if n ≤ 9223372036854775807 then some n else none
  | .double _ => none

/-- The double of a number; an integer goes to the nearest one. -/
def toDouble : Number → Double
  | .integer n => Double.ofInt n
  | .double x => x

theorem same_refl (a : Number) : a.same a = true := by
  cases a with
  | integer n => simp [same]
  | double x => exact x.sameNumber_refl

theorem same_symm (a b : Number) : a.same b = b.same a := by
  cases a with
  | integer m =>
      cases b with
      | integer n => simp [same, Bool.beq_comm]
      | double y => rfl
  | double x =>
      cases b with
      | integer n => rfl
      | double y => exact x.sameNumber_symm y

end Number

end QueryAudit
