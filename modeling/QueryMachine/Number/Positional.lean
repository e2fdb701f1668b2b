import QueryMachine.Number.Shortest

/-!
# Positional decimal text

Numbers are written without an exponent: zeros are written out on either side of the point,
and an integral number has no point. `Binary64.text` is the text of a floating-point number
inside a value, where the three classes that have no positional form get a form of their own.
-/

namespace QueryMachine

/-- `count` copies of the digit zero. -/
def zeros (count : Nat) : String :=
  String.ofList (List.replicate count '0')

/-- A text filled up on the left with a character until it has `width` characters. -/
def padLeft (fill : Char) (width : Nat) (s : String) : String :=
  String.ofList (List.replicate (width - s.length) fill) ++ s

namespace Decimal

/-- All digits in their places, with a point only where there is a fraction. -/
def positional (d : Decimal) : String :=
  let digits := toString d.digits
  match d.exponent with
  | .ofNat up => if d.digits = 0 then "0" else digits ++ zeros up
  | .negSucc n =>
    let places := n + 1
    if places < digits.length then
      let whole := digits.length - places
      String.ofList (digits.toList.take whole) ++ "." ++ String.ofList (digits.toList.drop whole)
    else
      "0." ++ zeros (places - digits.length) ++ digits

end Decimal

namespace Binary64

/-- The text of an infinity's magnitude: the largest finite double, in scientific form. -/
def infinityText : String := "1.7976931348623157e308"

/-- A NaN is written as a missing value, an infinity as the largest finite number, and every
finite number by the shortest decimal that reads back. The sign of zero is kept. -/
def text (x : Binary64) : String :=
  if x.isNaN then "null"
  else
    let sign := if x.isNegative then "-" else ""
    let magnitude := if x.isFinite then (Decimal.shortest x).positional else infinityText
    sign ++ magnitude

end Binary64

end QueryMachine
