import QueryMachine.Value.Text

/-!
# Previews

Error messages quote the value at fault, but only its first two bytes: enough to tell a
string from an array, too little to give away the data. `Value.preview` writes the value into
a text that stops taking pieces once one of them does not fit.

A value that holds the same part many times has a text far longer than itself, so a preview
must not write all of it. `Value.clip` keeps of a value what the first characters of its text
can show, which makes the cost of a preview independent of the size of the value.
-/

namespace QueryMachine

/-- The characters from the front of a list that encode into at most `room` bytes. -/
def takeBytes (room : Nat) : List Char → List Char
  | [] => []
  | c :: rest => if c.utf8Size ≤ room then c :: takeBytes (room - c.utf8Size) rest else []

/-- A text of bounded size: what it kept, and whether it had to refuse anything. -/
structure BoundedText where
  kept : String := ""
  overflowed : Bool := false
  deriving DecidableEq, Repr

namespace BoundedText

/-- Add a piece, or as much of it as there is room for. What comes after a piece that was cut
is dropped. -/
def put (limit : Nat) (t : BoundedText) (piece : String) : BoundedText :=
  if t.overflowed then t
  else
    let room := limit - t.kept.utf8ByteSize
    if piece.utf8ByteSize ≤ room then { t with kept := t.kept ++ piece }
    else
      { kept := t.kept ++ String.ofList (takeBytes room piece.toList)
        overflowed := true }

end BoundedText

namespace Value

/-- How many bytes of a value's text a preview shows. -/
def previewWidth : Nat := 2

/-- The mark of a shortened text, closed like the value it stands for. -/
def ellipsis : Value → String
  | .string _ => " ...\""
  | .array _ => " ...]"
  | .object _ => " ...\x7d"
  | _ => " ..."

/-- The first characters of a string. -/
def clipString (count : Nat) (s : String) : String :=
  String.ofList (s.toList.take count)

/-- A value whose text starts with the same `count` characters, but that holds no more than
these can show: every level, entry and character of a string takes one of them at least. -/
def clip : Nat → Value → Value
  | 0, _ => .null
  | count + 1, .string s => .string (clipString (count + 1) s)
  | count + 1, .array items => .array ((items.take (count + 1)).map (clip count))
  | count + 1, .object entries =>
    .object ((entries.take (count + 1)).map fun entry =>
      (clipString (count + 1) entry.1, clip count entry.2))
  | _, v => v

/-- The first bytes of a value's text, cut at a character. Only a text of one byte is shown
bare; anything longer carries the mark, even when nothing was cut off. -/
def preview (v : Value) : String :=
  let shown := (v.clip (previewWidth + 1)).write (BoundedText.put previewWidth) {}
  if shown.overflowed || 1 < shown.kept.utf8ByteSize then shown.kept ++ v.ellipsis else shown.kept

end Value

end QueryMachine
