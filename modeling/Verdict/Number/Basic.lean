import Verdict.Number.Numeral

/-!
# Numbers of a record

A number of a record is a whole number of 64 bits or a finite binary64 number, and has a canonical
text.
-/

namespace Verdict

/-! ## Shortest decimal text

A binary64 number is written with the fewest digits that read back to it; of two such decimals the
nearer one is taken, and halfway between them the one with the even last digit. Numbers whose
leading digit stands for `10^-5` up to `10^15` are written positionally, all others with a power
of ten. -/

namespace Binary64

/-- The number as an exact decimal. -/
def exact (x : Binary64) : Decimal :=
  ⟨x.negative, x.units * Nat.pow 5 1074, -1074⟩

/-- A decimal whose nearest binary64 number is this one. -/
def readsBack (x : Binary64) (d : Decimal) : Bool :=
  d.toBinary64? == some x

/-- The nearest decimal that reads back among the two neighbours of the number once the last `cut`
digits of its exact form are given up. -/
def neighbour? (x : Binary64) (cut : Nat) : Option Decimal :=
  let step := Nat.pow 10 cut
  let low := x.exact.coefficient / step
  let rest := x.exact.coefficient % step
  let lowIsNearer := 2 * rest < step ∨ (2 * rest = step ∧ low % 2 = 0)
  let decimal (coefficient : Nat) : Decimal := ⟨x.negative, coefficient, cut - 1074⟩
  let candidates := if lowIsNearer then [low, low + 1] else [low + 1, low]
  (candidates.map decimal).find? x.readsBack

/-- The shortest decimal that reads back. Seventeen digits always suffice; the exact form stands in
where they would not. -/
def shortest (x : Binary64) : Decimal :=
  let length := x.exact.digits.length
  (((List.range 17).findSome? fun n => x.neighbour? (length - (n + 1))).getD x.exact).stripped

end Binary64

namespace Decimal

/-- Digits with the point where it belongs; `lead` is the exponent of the first digit. -/
def positional (digits : List Char) (lead : Int) : List Char :=
  if lead < 0 then '0' :: '.' :: List.replicate (-lead - 1).toNat '0' ++ digits
  else
    let before := lead.toNat + 1
    if digits.length ≤ before then
      digits ++ List.replicate (before - digits.length) '0' ++ ['.', '0']
    else digits.take before ++ '.' :: digits.drop before

/-- Digits with the point after the first and the power of ten behind, its sign always written. -/
def scientific (digits : List Char) (lead : Int) : List Char :=
  let significand := match digits with
    | [] => []
    | [digit] => [digit]
    | digit :: rest => digit :: '.' :: rest
  significand ++ 'e' :: (if lead < 0 then '-' else '+') :: Nat.toDigits 10 lead.natAbs

/-- The text of a decimal without zeros at the end. -/
def layout (x : Decimal) : List Char :=
  let lead := x.leadingExponent
  let body := if -5 ≤ lead ∧ lead ≤ 15 then positional x.digits lead else scientific x.digits lead
  if x.negative then '-' :: body else body

end Decimal

/-! ## Numbers

A number is a whole number that fits 64 bits, signed or unsigned, or a finite binary64 number. The
whole numbers are those from `-2^63` up to, but not including, `2^64`. -/

/-- A number. -/
inductive Number where
  /-- A whole number that fits 64 bits, signed or unsigned. -/
  | integer (value : Int) (lower : -9223372036854775808 ≤ value)
    (upper : value < 18446744073709551616)
  /-- A finite binary64 number. -/
  | real (value : Binary64)
deriving DecidableEq

namespace Number

/-- A whole number, if it fits 64 bits. -/
def ofInt? (n : Int) : Option Number :=
  if h : -9223372036854775808 ≤ n ∧ n < 18446744073709551616 then some (.integer n h.1 h.2)
  else none

/-- The number of a JSON numeral: a whole number where one is written that fits 64 bits, a binary64
number otherwise. The negative zero is a binary64 number. Out of range there is none. -/
def ofNumeral? (n : Numeral) : Option Number :=
  let magnitude := Numeral.value n.whole
  let whole :=
    if n.fraction.isNone && n.power.isNone && !(n.negative && magnitude == 0) then
      ofInt? (if n.negative then -(magnitude : Int) else magnitude)
    else none
  match whole with
  | some number => some number
  | none => n.scaled?.map .real

/-- The nearest binary64 number. -/
def toBinary64 : Number → Binary64
  | .integer value lower upper =>
    Binary64.ofInt value (show value.natAbs ≤ 18446744073709551616 by omega)
  | .real value => value

/-- The digits of a whole number, with its sign. -/
def integerText (n : Int) : List Char :=
  (if n < 0 then ['-'] else []) ++ Nat.toDigits 10 n.natAbs

/-- The canonical text. A number without a fraction below `10^21` is written in full, so that a
whole number and the equal binary64 number have one text; the negative zero keeps its sign. -/
def text : Number → String
  | .integer value _ _ => String.ofList (integerText value)
  | .real x =>
    if x.isWhole && decide (x.wholePart < Nat.pow 10 21) then
      String.ofList ((if x.negative then ['-'] else []) ++ Nat.toDigits 10 x.wholePart)
    else String.ofList x.shortest.layout

end Number

end Verdict
