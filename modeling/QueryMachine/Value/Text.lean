import QueryMachine.Value.Basic
import QueryMachine.Number.Positional

/-!
# The text of a value

A value is written as compact JSON. `Value.write` hands the text piece by piece to a sink of
any kind, so that a consumer which keeps only part of it need not hold the whole;
`Value.text` is what all pieces make together.

Numbers follow `Binary64.text`, and a foreign handle stands as a string that holds its type
name between angle brackets.
-/

namespace QueryMachine

/-! ## Strings -/

/-- One lower-case hexadecimal digit. -/
def hexDigit (n : Nat) : Char :=
  if n < 10 then Char.ofNat ('0'.toNat + n) else Char.ofNat ('a'.toNat + (n - 10))

/-- A character inside a quoted string. Quote, backslash and the three common breaks have
two-character forms; the other controls are given by their code. -/
def escapeChar (c : Char) : String :=
  match c with
  | '"' => "\\\""
  | '\\' => "\\\\"
  | '\n' => "\\n"
  | '\r' => "\\r"
  | '\t' => "\\t"
  | c =>
    if c.toNat < 0x20 ∨ c.toNat = 0x7f then
      "\\u00" ++ String.ofList [hexDigit (c.toNat / 16), hexDigit (c.toNat % 16)]
    else c.toString

/-- Hand a quoted string to a sink, one character at a time. -/
def writeQuoted {σ : Type} (put : σ → String → σ) (s : String) (sink : σ) : σ :=
  put (s.toList.foldl (fun sink c => put sink (escapeChar c)) (put sink "\"")) "\""

namespace Value

/-! ## Values -/

mutual

/-- Hand the text of a value to a sink, in order. -/
def write {σ : Type} (put : σ → String → σ) : Value → σ → σ
  | .null, sink => put sink "null"
  | .bool true, sink => put sink "true"
  | .bool false, sink => put sink "false"
  | .int n, sink => put sink (toString n.toInt)
  | .float x, sink => put sink x.text
  | .string s, sink => writeQuoted put s sink
  | .array ⟨[]⟩, sink => put (put sink "[") "]"
  | .array ⟨item :: rest⟩, sink =>
    put (writeItems put rest (item.write put (put sink "["))) "]"
  | .object [], sink => put (put sink "\x7b") "\x7d"
  | .object ((key, value) :: rest), sink =>
    put (writeEntries put rest
      (value.write put (put (writeQuoted put key (put sink "\x7b")) ":"))) "\x7d"
  | .foreign handle, sink => put sink ("\"<" ++ handle.typeName ++ ">\"")

/-- Hand the items after the first to a sink, each after a comma. -/
def writeItems {σ : Type} (put : σ → String → σ) : List Value → σ → σ
  | [], sink => sink
  | item :: rest, sink => writeItems put rest (item.write put (put sink ","))

/-- Hand the entries after the first to a sink, each after a comma. -/
def writeEntries {σ : Type} (put : σ → String → σ) : List (String × Value) → σ → σ
  | [], sink => sink
  | (key, value) :: rest, sink =>
    writeEntries put rest
      (value.write put (put (writeQuoted put key (put sink ",")) ":"))

end

/-- The whole text of a value. -/
def text (v : Value) : String :=
  v.write (· ++ ·) ""

instance : ToString Value := ⟨Value.text⟩

end Value

end QueryMachine
