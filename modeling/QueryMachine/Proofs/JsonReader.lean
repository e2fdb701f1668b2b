import QueryMachine.Toml.Quoted
import QueryMachine.Value.Basic

/-!
# A reader of JSON texts

Programs write values as JSON and never read them. What such a text means is said here by a reader
for the whole of JSON: white space between the parts, all escapes of strings with pairs of
surrogates among them, and numbers with a fraction and an exponent. It is the measure for what is
written, and not a part of the machine.

A number with neither fraction nor exponent that fits into 64 bits is an integer. What the other
numbers become depends on how they are rounded, and is left open: every reading takes a function for
them.
-/

namespace QueryMachine.Json

open Toml (Reading isHexDigit numberOf)

/-! ## Parts of a text -/

section

variable {α β γ : Type} {cs : List Char}

/-- Reads one character that means something. -/
def one? (meaning : Char → Option α) (cs : List Char) : Option (Reading α cs) :=
  match cs with
  | [] => none
  | c :: r => (meaning c).map fun a => ⟨a, r, Nat.lt_succ_self r.length⟩

/-- Reads one given character. -/
def this? (c : Char) (cs : List Char) : Option (Reading Unit cs) :=
  one? (fun d => if d = c then some () else none) cs

/-- Reads a part and the one right behind it, and puts together what they mean. -/
def both (f : α → β → γ) (r : Option (Reading α cs))
    (next : (rest : List Char) → rest.length < cs.length → Option (Reading β rest)) :
    Option (Reading γ cs) :=
  r.bind fun a => (next a.rest a.shorter).map fun b => (a.followed b).map fun (a, b) => f a b

/-- The four characters that may stand between the parts of a text. -/
def isSpace (c : Char) : Bool := c = ' ' || c = '\t' || c = '\n' || c = '\r'

/-- The text after the white space at its front. -/
def skipSpace (cs : List Char) : List Char := cs.dropWhile isSpace

theorem length_skipSpace_le (cs : List Char) : (skipSpace cs).length ≤ cs.length :=
  (List.dropWhile_sublist isSpace).length_le

/-- Reads one given character, with the white space before it. -/
def mark? (c : Char) (cs : List Char) : Option (Reading Unit cs) :=
  (this? c (skipSpace cs)).map fun r => r.within (length_skipSpace_le cs)

end

/-! ## Strings -/

/-- The character that a letter after a backslash stands for. -/
def letter? : Char → Option Char
  | '"' => some '"'
  | '\\' => some '\\'
  | '/' => some '/'
  | 'b' => some '\x08'
  | 'f' => some '\x0c'
  | 'n' => some '\n'
  | 'r' => some '\r'
  | 't' => some '\t'
  | _ => none

/-- A character that stands for itself: any but the quote, the backslash and the controls. -/
def plain? (c : Char) : Option Char :=
  if c = '"' ∨ c = '\\' ∨ c.toNat < 0x20 then none else some c

/-- Reads the number that four hexadecimal digits spell. -/
def codeUnit? (cs : List Char) : Option (Reading Nat cs) :=
  match cs with
  | a :: b :: c :: d :: r =>
    if [a, b, c, d].all isHexDigit then
      some ⟨numberOf 16 [a, b, c, d], r, by simp only [List.length_cons]; omega⟩
    else none
  | _ => none

/-- The character that two surrogates stand for. -/
def paired? (high low : Nat) : Option Char :=
  if 0xd800 ≤ high ∧ high < 0xdc00 ∧ 0xdc00 ≤ low ∧ low < 0xe000 then
    some (Char.ofNat (0x10000 + (high - 0xd800) * 0x400 + (low - 0xdc00)))
  else none

/-- Reads the character that a code names, or two codes that are surrogates. -/
def codePoint? (cs : List Char) : Option (Reading Char cs) := do
  let unit ← codeUnit? cs
  if unit.value.isValidChar then return unit.map Char.ofNat
  else
    let pair ← both Prod.mk (some unit) fun rest _ => both (fun _ low => low) (this? '\\' rest)
      fun rest _ => both (fun _ low => low) (this? 'u' rest) fun rest _ => codeUnit? rest
    (paired? pair.value.1 pair.value.2).map fun c => pair.map fun _ => c

/-- Reads what follows a backslash. -/
def escape? (cs : List Char) : Option (Reading Char cs) :=
  one? letter? cs <|> both (fun _ c => c) (this? 'u' cs) fun rest _ => codePoint? rest

/-- Reads one character of a string. -/
def char? (cs : List Char) : Option (Reading Char cs) :=
  one? plain? cs <|> both (fun _ c => c) (this? '\\' cs) fun rest _ => escape? rest

/-- Reads the characters of a string and the closing quote. -/
def chars? (cs : List Char) : Option (Reading (List Char) cs) :=
  (both List.cons (char? cs) fun rest _ => chars? rest) <|>
    (this? '"' cs).map (Reading.map fun _ => [])
termination_by cs.length

/-- Reads a string, with the white space before it. -/
def string? (cs : List Char) : Option (Reading String cs) :=
  both (fun _ chars => String.ofList chars) (mark? '"' cs) fun rest _ => chars? rest

/-! ## Numbers -/

/-- A number as it is written: the digits before the point and after it, and the exponent's sign and
digits. -/
structure Numeral where
  negative : Bool := false
  whole : List Char
  fraction : List Char := []
  exponent : Option (Bool × List Char) := none

/-- Reads digits, as many as there are. -/
def digits? (cs : List Char) : Option (Reading (List Char) cs) :=
  Reading.while? Char.isDigit cs

/-- Reads the digits before the point. None follow a zero. -/
def whole? (cs : List Char) : Option (Reading (List Char) cs) :=
  (this? '0' cs).map (Reading.map fun _ => ['0']) <|> digits? cs

/-- Reads the sign of a number and the digits before the point. -/
def signed? (cs : List Char) : Option (Reading Numeral cs) :=
  (whole? cs).map (Reading.map fun digits => { whole := digits }) <|>
    both (fun _ digits => { negative := true, whole := digits }) (this? '-' cs) fun rest _ =>
      whole? rest

/-- Goes on with a fraction, if there is one. -/
def fraction? {cs : List Char} (n : Reading Numeral cs) : Option (Reading Numeral cs) :=
  if n.rest.head? = some '.' then
    both (fun n fraction => { n with fraction }) (some n) fun rest _ =>
      both (fun _ digits => digits) (this? '.' rest) fun rest _ => digits? rest
  else some n

/-- The letter before an exponent. -/
def exponentMark? (c : Char) : Option Unit :=
  if c = 'e' ∨ c = 'E' then some () else none

/-- The sign of an exponent, as whether it is below zero. -/
def exponentSign? : Char → Option Bool
  | '-' => some true
  | '+' => some false
  | _ => none

/-- Goes on with an exponent, if there is one. -/
def exponent? {cs : List Char} (n : Reading Numeral cs) : Option (Reading Numeral cs) :=
  if (n.rest.head?.bind exponentMark?).isSome then
    both (fun n exponent => { n with exponent }) (some n) fun rest _ =>
      both (fun _ exponent => some exponent) (one? exponentMark? rest) fun rest _ =>
        (digits? rest).map (Reading.map fun digits => (false, digits)) <|>
          both Prod.mk (one? exponentSign? rest) fun rest _ => digits? rest
  else some n

/-- Reads a number. -/
def number? (cs : List Char) : Option (Reading Numeral cs) :=
  ((signed? cs).bind fraction?).bind exponent?

/-- The value of a number: an integer, or what the given function makes of it. -/
def Numeral.value (other : Numeral → Value) (n : Numeral) : Value :=
  let magnitude : Int := numberOf 10 n.whole
  let k := if n.negative then -magnitude else magnitude
  if n.fraction = [] ∧ n.exponent.isNone ∧ Int64.minValue.toInt ≤ k ∧ k ≤ Int64.maxValue.toInt then
    .int (Int64.ofInt k)
  else other n

/-! ## Members -/

section

variable {α : Type}

/-- Reads the members after the first, each after a comma, and the mark that closes them. A member
is read by the given function. -/
def moreMembers? (close : Char) (cs : List Char)
    (member? : (rest : List Char) → rest.length < cs.length → Option (Reading α rest)) :
    Option (Reading (List α) cs) :=
  (both (fun _ members => members) (mark? ',' cs) fun rest hcomma =>
    both List.cons (member? rest hcomma) fun rest hmember =>
      moreMembers? close rest fun rest hrest => member? rest (by omega)) <|>
    (mark? close cs).map (Reading.map fun _ => [])
termination_by cs.length

/-- Reads all the members of a container and the mark that closes them. -/
def members? (close : Char) (cs : List Char)
    (member? : (rest : List Char) → rest.length ≤ cs.length → Option (Reading α rest)) :
    Option (Reading (List α) cs) :=
  (both List.cons (member? cs (Nat.le_refl _)) fun rest hmember =>
    moreMembers? close rest fun rest hrest => member? rest (by omega)) <|>
    (mark? close cs).map (Reading.map fun _ => [])

/-- Reads an entry of an object, whose value is read by the given function. -/
def pair? (cs : List Char)
    (value? : (rest : List Char) → rest.length < cs.length → Option (Reading α rest)) :
    Option (Reading (String × α) cs) :=
  both Prod.mk (string? cs) fun rest hkey =>
    both (fun _ value => value) (mark? ':' rest) fun rest hcolon => value? rest (by omega)

end

/-! ## Values -/

/-- Reads one of the three words that are values. -/
def word? (cs : List Char) : Option (Reading Value cs) :=
  match cs with
  | 'n' :: 'u' :: 'l' :: 'l' :: r => some ⟨.null, r, by simp only [List.length_cons]; omega⟩
  | 't' :: 'r' :: 'u' :: 'e' :: r => some ⟨.bool true, r, by simp only [List.length_cons]; omega⟩
  | 'f' :: 'a' :: 'l' :: 's' :: 'e' :: r =>
    some ⟨.bool false, r, by simp only [List.length_cons]; omega⟩
  | _ => none

section

variable (other : Numeral → Value)

/-- Reads a value that is a number or a word. -/
def bare? (cs : List Char) : Option (Reading Value cs) :=
  (number? cs).map (Reading.map (Numeral.value other)) <|> word? cs

/-- Reads a value without members, with the white space before it. -/
def scalar? (cs : List Char) : Option (Reading Value cs) :=
  ((bare? other (skipSpace cs)).map fun v => v.within (length_skipSpace_le cs)) <|>
    (string? cs).map (Reading.map Value.string)

/-- Reads a value, with the white space before it. -/
def value? (cs : List Char) : Option (Reading Value cs) :=
  scalar? other cs <|>
    (both (fun _ items => .array items.toArray) (mark? '[' cs) fun rest _ =>
      members? ']' rest fun member _ => value? member) <|>
    both (fun _ pairs => .ofEntries pairs) (mark? '\x7b' cs) fun rest _ =>
      members? '\x7d' rest fun member _ => pair? member fun value _ => value? value
termination_by cs.length

/-- The value of a whole text; only white space may follow it. -/
def ofText? (text : String) : Option Value :=
  (value? other text.toList).bind fun v => if skipSpace v.rest = [] then some v.value else none

end

end QueryMachine.Json
