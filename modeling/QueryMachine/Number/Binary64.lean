/-!
# 64-bit binary floating-point numbers

A `Binary64` is the bit pattern of an IEEE 754 double: one sign bit, eleven exponent bits,
fifty-two fraction bits. Everything below is integer arithmetic on those fields, so each
definition can be evaluated and reasoned about without the hardware's own operations.

* `Binary64.significand` / `Binary64.exponent` give the magnitude of a finite number exactly,
  as `significand · 2 ^ exponent`;
* `Binary64.equal` is the IEEE comparison: NaN differs from itself, the two zeros agree;
* `Binary64.floor?` is the exact integral part of a finite number;
* `Binary64.ofNat` rounds a natural number to the nearest double, a half to the even one.
-/

namespace QueryMachine

/-- The bit pattern of an IEEE 754 double. -/
structure Binary64 where
  bits : UInt64
  deriving DecidableEq, Repr, Inhabited

namespace Binary64

/-! ## Fields -/

/-- The sign bit: set on negative numbers, and on `-0`. -/
def isNegative (x : Binary64) : Bool :=
  Nat.pow 2 63 ≤ x.bits.toNat

/-- The eleven exponent bits, before the bias is taken off. -/
def exponentField (x : Binary64) : Nat :=
  x.bits.toNat / Nat.pow 2 52 % Nat.pow 2 11

/-- The fifty-two bits after the binary point. -/
def fractionField (x : Binary64) : Nat :=
  x.bits.toNat % Nat.pow 2 52

/-! ## Classes -/

/-- An exponent field of ones marks the values that are not finite numbers. -/
def isFinite (x : Binary64) : Bool :=
  x.exponentField != 2047

/-- Not finite, with a fraction: not a number. -/
def isNaN (x : Binary64) : Bool :=
  x.exponentField == 2047 && x.fractionField != 0

/-- Either of the two zeros. -/
def isZero (x : Binary64) : Bool :=
  x.exponentField == 0 && x.fractionField == 0

/-! ## Exact value -/

/-- The integer significand of a finite number; the leading one is implicit unless the
exponent field is zero. -/
def significand (x : Binary64) : Nat :=
  if x.exponentField = 0 then x.fractionField else Nat.pow 2 52 + x.fractionField

/-- The power of two that scales the significand of a finite number. -/
def exponent (x : Binary64) : Int :=
  (max x.exponentField 1 : Nat) - 1075

/-- IEEE equality: a NaN equals nothing, the two zeros equal each other, all other numbers
equal only themselves. -/
def equal (x y : Binary64) : Bool :=
  !x.isNaN && !y.isNaN && (x.bits == y.bits || (x.isZero && y.isZero))

/-- The greatest integer that is not above a finite number; nothing for the others. -/
def floor? (x : Binary64) : Option Int :=
  if x.isFinite then
    let scaled : Int :=
      match x.exponent with
      | .ofNat up => x.significand * Nat.pow 2 up
      | .negSucc _ => x.significand
    let signed := if x.isNegative then -scaled else scaled
    -- with a fraction the division must round down also below zero
    match x.exponent with
    | .ofNat _ => some signed
    | .negSucc down => some (signed.fdiv (Nat.pow 2 (down + 1)))
  else
    none

/-! ## Rounding a natural number -/

/-- A quotient by `2 ^ shift`, rounded to the nearest integer and from a half to the even
neighbour. -/
def roundShift (n shift : Nat) : Nat :=
  let quotient := n / Nat.pow 2 shift
  let twice := 2 * (n % Nat.pow 2 shift)
  if twice > Nat.pow 2 shift ∨ (twice = Nat.pow 2 shift ∧ quotient % 2 = 1) then quotient + 1
  else quotient

/-- The double nearest to a natural number. Adding the rounded significand to the exponent
bits lets a carry out of the significand raise the exponent, which is the right result; what
is too large becomes infinity. -/
def ofNat (n : Nat) : Binary64 :=
  if n = 0 then ⟨0⟩
  else
    let width := n.log2 + 1
    if width > 1024 then ⟨0x7ff0000000000000⟩
    else
      let rounded := if width ≤ 53 then n * Nat.pow 2 (53 - width) else roundShift n (width - 53)
      ⟨UInt64.ofNat ((width + 1021) * Nat.pow 2 52 + rounded)⟩

end Binary64

end QueryMachine
