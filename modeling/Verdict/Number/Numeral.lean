import Verdict.Number.Binary64
import Verdict.Operand

/-!
# Numerals

A numeral is a number as it is written: digits with an optional point, fraction and power of ten.
Two grammars write numerals, the loose one of literals here and the strict one of JSON. Literals are
read exactly and JSON numerals in machine steps.
-/

namespace Verdict

/-- A written number. -/
structure Numeral where
  negative : Bool
  /-- The digits before the point. -/
  whole : List Char
  /-- The digits after the point; none when there is no point. -/
  fraction : Option (List Char)
  /-- The power of ten; none when none is written. -/
  power : Option Int
deriving DecidableEq

namespace Numeral

/-- The number that a run of digits writes. -/
def value (digits : List Char) : Nat :=
  Nat.ofDigitChars 10 digits 0

/-- The digits after the point. -/
def fractionDigits (n : Numeral) : List Char :=
  n.fraction.getD []

/-- The exact number. -/
def decimal (n : Numeral) : Decimal :=
  ⟨n.negative, value (n.whole ++ n.fractionDigits), n.power.getD 0 - n.fractionDigits.length⟩

/-! ## The grammar of literals -/

/-- A sign at the front and what follows it; without one the number is not negative. -/
def readSign : List Char → Bool × List Char
  | [] => (false, [])
  | c :: rest =>
    if c = '-' then (true, rest) else if c = '+' then (false, rest) else (false, c :: rest)

/-- A signed run of digits with nothing after it. -/
def readPower? (text : List Char) : Option Int :=
  let (negative, digits) := readSign text
  if digits.isEmpty || !digits.all Char.isDigit then none
  else some (if negative then -(value digits : Int) else value digits)

/-- The end of a numeral: nothing, or the mark of a power of ten and the power. -/
def readEnd? : List Char → Option (Option Int)
  | [] => some none
  | c :: rest => if c = 'e' ∨ c = 'E' then (readPower? rest).map some else none

/-- Reads a numeral as literals write it: an optional sign, digits with a point anywhere among
them or none, and an optional power of ten. Only ASCII digits count. -/
def ofChars? (text : List Char) : Option Numeral :=
  let (negative, unsigned) := readSign text
  let whole := unsigned.takeWhile Char.isDigit
  let (fraction, rest) :=
    match unsigned.dropWhile Char.isDigit with
    | [] => (none, [])
    | c :: rest =>
      if c = '.' then (some (rest.takeWhile Char.isDigit), rest.dropWhile Char.isDigit)
      else (none, c :: rest)
  if whole.isEmpty && (fraction.getD []).isEmpty then none
  else (readEnd? rest).map fun power => ⟨negative, whole, fraction, power⟩

end Numeral

/-- The number that a text writes, white space around it apart. A number too large for the format
is none. -/
def numberOfText? (text : String) : Option Binary64 :=
  (Numeral.ofChars? (Text.trim text.toList)).bind fun n => n.decimal.toBinary64?

/-! ## Machine steps

A JSON numeral that is no 64-bit integer is read in a few roundings: as many of its digits as fit
64 bits make a whole number, which is rounded to binary64 and then multiplied or divided by the
power of ten, itself rounded to binary64. Each step goes to the nearest number; the result may
miss the nearest number to the numeral by a little. -/

namespace Binary64

/-- The rounded product. -/
def mul? (x y : Binary64) : Option Binary64 :=
  ofRatio? (x.negative != y.negative) (x.units * y.units) (one * one)

/-- The rounded quotient; the divisor is no zero. -/
def div? (x y : Binary64) : Option Binary64 :=
  ofRatio? (x.negative != y.negative) x.units y.units

/-- A power of ten, rounded. -/
def powerOfTen? (power : Nat) : Option Binary64 :=
  ofRatio? false (Nat.pow 10 power) 1

/-- The number times a power of ten. Powers beyond `10^308` are no numbers of the format: upward
they take any number but zero out of range, and downward the number is divided by `10^308` first.
After `divisions` such divisions nothing is left of it. -/
def scale? : (divisions : Nat) → Binary64 → Int → Option Binary64
  | divisions, x, power =>
    if power.natAbs ≤ 308 then
      (powerOfTen? power.natAbs).bind fun p => if power < 0 then x.div? p else x.mul? p
    else if x.units = 0 then some x
    else if 0 < power then none
    else match divisions with
      | 0 => some (zero x.negative)
      | divisions + 1 =>
        ((powerOfTen? 308).bind x.div?).bind fun y => scale? divisions y (power + 308)

end Binary64

namespace Numeral

/-- Takes digits into a whole number as long as it stays below `2^64`, and gives back the digits
that no longer fit. -/
def absorb (number : Nat) : List Char → Nat × List Char
  | [] => (number, [])
  | c :: rest =>
    let next := Nat.ofDigitChars 10 [c] number
    if next < Nat.pow 2 64 then absorb next rest else (number, c :: rest)

/-- The number of a numeral, in machine steps; none when a step leaves the range. -/
def scaled? (n : Numeral) : Option Binary64 :=
  let (whole, dropped) := absorb 0 n.whole
  let (significand, unread) := absorb whole n.fractionDigits
  let taken := n.fractionDigits.length - unread.length
  (Binary64.ofRatio? n.negative significand 1).bind fun x =>
    x.scale? 2 (n.power.getD 0 + dropped.length - taken)

end Numeral

end Verdict
