import QueryMachine.Toml.Reading

/-!
# Quoted strings

A string stands between double quotes, with escapes, or between apostrophes, without. Between
threefold marks it may span lines, and then one or two marks of its own may stand right before
the closing three.
-/

namespace QueryMachine.Toml

/-- The value of a digit of any base up to sixteen. -/
def digitValue (c : Char) : Nat :=
  if c.isDigit then c.toNat - '0'.toNat
  else if c.isLower then c.toNat - 'a'.toNat + 10
  else c.toNat - 'A'.toNat + 10

/-- A digit of base sixteen, in either case. -/
def isHexDigit (c : Char) : Bool :=
  c.isDigit || ('a' ≤ c && c ≤ 'f') || ('A' ≤ c && c ≤ 'F')

/-- The number that digits spell in a base. -/
def numberOf (base : Nat) (digits : List Char) : Nat :=
  digits.foldl (fun n c => n * base + digitValue c) 0

namespace Quoted

/-- The character that an exact count of hexadecimal digits names. -/
def codePoint? (count : Nat) (cs : List Char) : Option Char :=
  let digits := cs.take count
  if digits.length = count ∧ digits.all isHexDigit ∧ (numberOf 16 digits).isValidChar then
    some (Char.ofNat (numberOf 16 digits))
  else none

/-- The character that a letter after a backslash stands for. -/
def letter? : Char → Option Char
  | 'b' => some '\x08'
  | 't' => some '\t'
  | 'n' => some '\n'
  | 'f' => some '\x0c'
  | 'r' => some '\r'
  | '"' => some '"'
  | '\\' => some '\\'
  | _ => none

/-- How many hexadecimal digits follow a letter after a backslash. -/
def codeLength : Char → Nat
  | 'u' => 4
  | 'U' => 8
  | _ => 0

/-- Reads what follows a backslash. -/
def escape? (cs : List Char) : Option (Reading Char cs) :=
  match cs with
  | [] => none
  | c :: r =>
    match letter? c, codeLength c with
    | some d, _ => some ⟨d, r, by simp⟩
    | none, 0 => none
    | none, count => (codePoint? count r).map fun d =>
      ⟨d, r.drop count, by simp only [List.length_drop, List.length_cons]; omega⟩

/-- Reads a backslash at the end of a line, with all the blanks and line ends that follow. -/
def continuation? (cs : List Char) : Option (Reading (List Char) cs) :=
  match cs with
  | '\\' :: r =>
    if (newline? (skipBlanks r)).isSome then
      some ⟨[], skipLines r, Nat.lt_succ_of_le (length_skipLines_le r)⟩
    else none
  | _ => none

/-- Reads the closing mark, with the marks of the string itself that stand right before a
threefold one. -/
def closing? (mark : Char) (threefold : Bool) (cs : List Char) :
    Option (Reading (List Char) cs) :=
  -- of a run of marks the last three close, and at most two stand before them
  let marks := (cs.takeWhile (· = mark)).length
  let wanted := if threefold then 3 else 1
  let own := if threefold then min (marks - 3) 2 else 0
  if h : wanted ≤ marks then
    some ⟨List.replicate own mark, cs.drop (wanted + own), by
      have := (List.takeWhile_sublist (· = mark) (l := cs)).length_le
      simp only [List.length_drop]
      grind⟩
  else none

/-- Reads the next piece of the text of a string: an escape, a continued line, a line end, or
one plain character. -/
def piece? (mark : Char) (threefold : Bool) (cs : List Char) :
    Option (Reading (List Char) cs) :=
  match cs with
  | [] => none
  | c :: r =>
    if c = '\\' ∧ mark = '"' then
      -- at the end of a line the backslash stands for nothing at all
      match if threefold then continuation? (c :: r) else none with
      | some skipped => some skipped
      | none => (escape? r).map fun e => (e.map ([·])).within (by simp)
    else if isPlain c then some ⟨[c], r, by simp⟩
    else if threefold then
      match h : newline? (c :: r) with
      | some rest => some ⟨['\n'], rest, length_lt_of_newline? h⟩
      | none => none
    else none

/-- Reads the text of a string and its closing mark. -/
def body? (mark : Char) (threefold : Bool) (cs : List Char) :
    Option (Reading (List Char) cs) :=
  match closing? mark threefold cs with
  | some last => some last
  | none => do
    let p ← piece? mark threefold cs
    let t ← body? mark threefold p.rest
    return (p.followed t).map fun (first, more) => first ++ more
termination_by cs.length
decreasing_by exact p.shorter

/-- Reads a string on one line. -/
def oneLine? (cs : List Char) : Option (Reading String cs) :=
  match cs with
  | [] => none
  | mark :: r =>
    if mark = '"' ∨ mark = '\'' then
      (body? mark false r).map fun t => (t.map String.ofList).within (by simp)
    else none

/-- Reads a string between threefold marks; a line end right after the opening one is not part
of it. -/
def manyLines? (cs : List Char) : Option (Reading String cs) :=
  match cs with
  | a :: b :: c :: r =>
    if (a = '"' ∨ a = '\'') ∧ b = a ∧ c = a then
      match h : newline? r with
      | some rest => (body? a true rest).map fun t =>
        (t.map String.ofList).within (by have := length_lt_of_newline? h; simp; omega)
      | none => (body? a true r).map fun t => (t.map String.ofList).within (by simp; omega)
    else none
  | _ => none

/-- Whether the first three characters are the same. -/
def startsThreefold : List Char → Bool
  | a :: b :: c :: _ => b = a && c = a
  | _ => false

/-- Reads a string of any of the four kinds. Threefold marks are never an empty string followed
by a mark. -/
def string? (cs : List Char) : Option (Reading String cs) :=
  if startsThreefold cs then manyLines? cs else oneLine? cs

end Quoted

end QueryMachine.Toml
