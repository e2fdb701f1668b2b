import QueryMachine.Toml.Node
import QueryMachine.Toml.Quoted

/-!
# Unquoted values

A boolean, a number, a date or a time is one word. An underscore may stand between two digits
of a number; whole numbers have 64 bits; dates exist in the calendar.
-/

namespace QueryMachine.Toml

/-! ## Digits -/

/-- The digits of a number without the underscores, each of which must stand between two
digits. -/
def digits? (isDigit : Char → Bool) : List Char → Option (List Char)
  | [] => none
  | [c] => if isDigit c then some [c] else none
  | c :: '_' :: r => if isDigit c then (digits? isDigit r).map (c :: ·) else none
  | c :: d :: r => if isDigit c then (digits? isDigit (d :: r)).map (c :: ·) else none

/-- Separates a sign from what it stands before; the sign is negative or not. -/
def splitSign : List Char → Bool × List Char
  | '-' :: r => (true, r)
  | '+' :: r => (false, r)
  | r => (false, r)

/-- The digits of a decimal whole number, which has no leading zeros. -/
def whole? (cs : List Char) : Option (List Char) := do
  let ds ← digits? Char.isDigit cs
  if ds.length > 1 ∧ ds.head? = some '0' then none else some ds

/-! ## Whole numbers -/

/-- A number that 64 bits hold, one of them for the sign. -/
def word? (n : Int) : Option Int :=
  if -Nat.pow 2 63 ≤ n ∧ n < Nat.pow 2 63 then some n else none

/-- A whole number: a signed decimal one, or an unsigned one of base sixteen, eight or two. -/
def integer? : List Char → Option Int
  | '0' :: 'x' :: r => (digits? isHexDigit r).bind fun ds => word? (numberOf 16 ds)
  | '0' :: 'o' :: r =>
    (digits? (fun c => '0' ≤ c && c ≤ '7') r).bind fun ds => word? (numberOf 8 ds)
  | '0' :: 'b' :: r =>
    (digits? (fun c => c = '0' || c = '1') r).bind fun ds => word? (numberOf 2 ds)
  | cs => do
    let (negative, r) := splitSign cs
    let n : Int := numberOf 10 (← whole? r)
    word? (if negative then -n else n)

/-! ## Numbers with a fraction -/

/-- The least number that is too large for a finite double, halfway to the one that would
follow the last. -/
def tooLarge : Nat := Nat.pow 2 1024 - Nat.pow 2 970

/-- Whether digits, scaled by a power of ten, are too large for a finite double. Far from the
boundary the count of digits decides. -/
def overflows (digits : List Char) (scale : Int) : Bool :=
  -- the number lies between two powers of ten, of which this is the exponent of the upper one
  let significant := digits.dropWhile (· = '0')
  let magnitude := significant.length + scale
  if significant = [] ∨ magnitude < 300 then false
  else if magnitude > 400 then true
  else numberOf 10 significant * Nat.pow 10 scale.toNat ≥ tooLarge * Nat.pow 10 (-scale).toNat

/-- Whether a word is a number with a fraction, an exponent or both, or one of the words for
infinity and for no number. A positive number must be finite. -/
def isFloat (cs : List Char) : Bool :=
  let (negative, r) := splitSign cs
  if r = ['i', 'n', 'f'] ∨ r = ['n', 'a', 'n'] then true
  else
    let isMark (c : Char) : Bool := c = '.' || c = 'e' || c = 'E'
    let isExponentMark (c : Char) : Bool := c = 'e' || c = 'E'
    let tail := r.dropWhile (!isMark ·)
    let (fraction, exponent) :=
      match tail with
      | '.' :: t => (digits? Char.isDigit (t.takeWhile (!isExponentMark ·)),
          t.dropWhile (!isExponentMark ·))
      | _ => (some [], tail)
    let power : Option Int :=
      match exponent with
      | [] => some 0
      | _ :: e =>
        let (below, ds) := splitSign e
        (digits? Char.isDigit ds).map fun ds =>
          if below then -(numberOf 10 ds : Int) else numberOf 10 ds
    match whole? (r.takeWhile (!isMark ·)), fraction, power with
    | some w, some f, some p => tail ≠ [] && (negative || !overflows (w ++ f) (p - f.length))
    | _, _, _ => false

/-! ## Dates and times -/

/-- Reads exactly so many digits, and the text after them. -/
def fixed? (count : Nat) (cs : List Char) : Option (Nat × List Char) :=
  let ds := cs.take count
  if ds.length = count ∧ ds.all Char.isDigit then some (numberOf 10 ds, cs.drop count) else none

/-- The text after a given first character. -/
def after? (c : Char) : List Char → Option (List Char)
  | d :: r => if d = c then some r else none
  | [] => none

/-- The number of days of a month. -/
def daysOf (year month : Nat) : Nat :=
  if month = 2 then if year % 4 = 0 ∧ (year % 100 ≠ 0 ∨ year % 400 = 0) then 29 else 28
  else if month = 4 ∨ month = 6 ∨ month = 9 ∨ month = 11 then 30
  else 31

/-- The text after a date: four digits for the year, two each for the month and the day. -/
def afterDate? (cs : List Char) : Option (List Char) := do
  let (year, cs) ← fixed? 4 cs
  let (month, cs) ← fixed? 2 (← after? '-' cs)
  let (day, cs) ← fixed? 2 (← after? '-' cs)
  if 1 ≤ month ∧ month ≤ 12 ∧ 1 ≤ day ∧ day ≤ daysOf year month then some cs else none

/-- The text after a time of day, with an optional fraction of a second. A minute may have a
leap second. -/
def afterTime? (cs : List Char) : Option (List Char) := do
  let (hour, cs) ← fixed? 2 cs
  let (minute, cs) ← fixed? 2 (← after? ':' cs)
  let (second, cs) ← fixed? 2 (← after? ':' cs)
  if hour ≤ 23 ∧ minute ≤ 59 ∧ second ≤ 60 then
    match cs with
    | '.' :: r => if r.takeWhile Char.isDigit = [] then none else some (r.dropWhile Char.isDigit)
    | r => some r
  else none

/-- Whether a text is a distance from universal time. -/
def isOffset : List Char → Bool
  | ['Z'] => true
  | ['z'] => true
  | c :: r =>
    (c = '+' || c = '-') &&
      match fixed? 2 r with
      | some (hour, ':' :: r) =>
        match fixed? 2 r with
        | some (minute, []) => hour ≤ 23 && minute ≤ 59
        | _ => false
      | _ => false
  | [] => false

/-- Whether a text is a date and nothing else. -/
def isDate (cs : List Char) : Bool := afterDate? cs = some []

/-- Whether a text is a date, a time of day, or both, then perhaps with a distance from
universal time. -/
def isMoment (cs : List Char) : Bool :=
  match afterDate? cs with
  | some [] => true
  | some (c :: r) =>
    (c = 'T' || c = 't' || c = ' ') &&
      match afterTime? r with
      | some [] => true
      | some rest => isOffset rest
      | none => false
  | none => afterTime? cs = some []

/-! ## Words -/

/-- The characters of unquoted values. -/
def isWordChar (c : Char) : Bool :=
  c.isAlphanum || c = '+' || c = '-' || c = '_' || c = '.' || c = ':'

/-- The value that a word stands for. -/
def Node.ofWord? (w : List Char) : Option Node :=
  if w = ['t', 'r', 'u', 'e'] then some (.boolean true)
  else if w = ['f', 'a', 'l', 's', 'e'] then some (.boolean false)
  else
    match integer? w with
    | some n => some (.integer n)
    | none =>
      if isFloat w then some (.float (String.ofList w))
      else if isMoment w then some (.moment (String.ofList w))
      else none

/-- Reads an unquoted value. A blank may stand between a date and a time of day. -/
def Node.scalar? (cs : List Char) : Option (Reading Node cs) := do
  let w ← Reading.while? isWordChar cs
  let alone := (Node.ofWord? w.value).map fun n => w.map fun _ => n
  if isDate w.value then
    match h : w.rest with
    | ' ' :: r =>
      -- a word after the blank must belong to the date: nothing else may follow a value
      match Reading.while? isWordChar r with
      | some time =>
        (Node.ofWord? (w.value ++ ' ' :: time.value)).map fun n =>
          (w.followed (time.within (by simp [h]))).map fun _ => n
      | none => alone
    | _ => alone
  else alone

end QueryMachine.Toml
