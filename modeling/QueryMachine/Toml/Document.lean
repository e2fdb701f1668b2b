import QueryMachine.Toml.Node
import QueryMachine.Toml.Quoted
import QueryMachine.Toml.Scalar

/-!
# Reading documents

A document is a sequence of statements, each on lines of its own: a pair, the header of a
table, or the header of the next table of an array. The statements are read first, and then
added up to one table.
-/

namespace QueryMachine.Toml

/-! ## Keys -/

/-- A dotted key: the names on the way, and the last one. -/
structure Key where
  path : List String
  name : String

/-- How many parts a key may have, and how deep values may nest, at most. -/
def depthLimit : Nat := 79

/-- The characters of names that need no quotes. -/
def isBare (c : Char) : Bool := c.isAlphanum || c = '_' || c = '-'

/-- Reads one part of a key. -/
def keyPart? (cs : List Char) : Option (Reading String cs) :=
  match Reading.while? isBare cs with
  | some w => some (w.map String.ofList)
  | none => Quoted.oneLine? cs

theorem length_lt_of_skipBlanks {cs r : List Char} {c : Char} (h : skipBlanks cs = c :: r) :
    r.length < cs.length := by
  have hle := length_skipBlanks_le cs
  rw [h, List.length_cons] at hle
  omega

/-- Reads a key of any number of parts; blanks may stand around each part. -/
def keyParts? (cs : List Char) : Option (Reading Key cs) := do
  let part ← keyPart? (skipBlanks cs)
  let part := part.within (length_skipBlanks_le cs)
  match h : skipBlanks part.rest with
  | '.' :: r =>
    have hr : r.length < part.rest.length := length_lt_of_skipBlanks h
    let more ← keyParts? r
    return (part.followed (more.within (Nat.le_of_lt hr))).map fun (first, key) =>
      ⟨first :: key.path, key.name⟩
  | r => return (part.map fun name => ⟨[], name⟩).upTo r (h ▸ length_skipBlanks_le part.rest)
termination_by cs.length
decreasing_by exact Nat.lt_trans hr part.shorter

/-- Reads a key. -/
def key? (cs : List Char) : Option (Reading Key cs) := do
  let key ← keyParts? cs
  if key.value.path.length < depthLimit then some key else none

/-- Reads a key and the equals sign after it. -/
def keyEquals? (cs : List Char) : Option (Reading Key cs) := do
  let key ← key? cs
  match h : key.rest with
  | '=' :: r => some (key.upTo r (by simp [h]))
  | _ => none

/-! ## Values -/

mutual

/-- Reads a value in which so many levels of arrays and tables may still be opened. -/
def value? (depth : Nat) (cs : List Char) : Option (Reading Node cs) :=
  match depth, cs with
  | 0, '[' :: _ => none
  | 0, '\x7b' :: _ => none
  | depth + 1, '[' :: r =>
    (items? depth r).map fun items => (items.map Node.array).within (by simp)
  | depth + 1, '\x7b' :: r =>
    match h : skipBlanks r with
    | '\x7d' :: rest =>
      some ⟨.inline [], rest, by
        have := length_skipBlanks_le r
        rw [h, List.length_cons] at this
        simp only [List.length_cons]
        omega⟩
    | _ => (pairs? depth [] r).map fun es => (es.map Node.inline).within (by simp)
  | _, cs =>
    match Quoted.string? cs with
    | some s => some (s.map Node.string)
    | none => Node.scalar? cs
termination_by 2 * cs.length

/-- Reads the items of an array up to its closing bracket; a comma may follow the last one, and
line ends and comments may stand anywhere between. -/
def items? (depth : Nat) (cs : List Char) : Option (Reading (List Node) cs) :=
  have ht := length_skipTrivia_le false cs
  match h : skipTrivia false cs with
  | ']' :: r => some ⟨[], r, by rw [h] at ht; exact ht⟩
  | trimmed => do
    have ht : trimmed.length ≤ cs.length := h ▸ ht
    let item ← value? depth trimmed
    have hi := length_skipTrivia_le false item.rest
    match hs : skipTrivia false item.rest with
    | ']' :: r =>
      have hr : r.length ≤ item.rest.length := by
        rw [hs, List.length_cons] at hi; omega
      return ((item.map fun n => [n]).upTo r hr).within ht
    | ',' :: r =>
      have hr : r.length ≤ item.rest.length := by
        rw [hs, List.length_cons] at hi; omega
      have hc : r.length < cs.length :=
        Nat.lt_of_le_of_lt hr (Nat.lt_of_lt_of_le item.shorter ht)
      let more ← items? depth r
      return ((item.followed (more.within hr)).map fun (n, ns) => n :: ns).within ht
    | _ => none
termination_by 2 * cs.length + 1

/-- Reads the pairs of an inline table up to its closing brace, adding them to those already
read. They stand on one line, with commas only between them. -/
def pairs? (depth : Nat) (done : Entries) (cs : List Char) : Option (Reading Entries cs) := do
  let key ← keyEquals? cs
  have hk := Nat.lt_of_le_of_lt (length_skipBlanks_le key.rest) key.shorter
  let item ← value? depth (skipBlanks key.rest)
  let item := item.within (length_skipBlanks_le key.rest)
  let es ← done.addPair key.value.path key.value.name item.value
  have hi := length_skipBlanks_le item.rest
  match hs : skipBlanks item.rest with
  | '\x7d' :: r =>
    have hr : r.length ≤ item.rest.length := by rw [hs, List.length_cons] at hi; omega
    return ((key.followed item).map fun _ => es).upTo r hr
  | ',' :: r =>
    have hr : r.length ≤ item.rest.length := by rw [hs, List.length_cons] at hi; omega
    have hc : r.length < cs.length :=
      Nat.lt_of_le_of_lt hr (Nat.lt_trans item.shorter key.shorter)
    let all ← pairs? depth es r
    return ((key.followed item).followed (all.within hr)).map fun (_, es) => es
  | _ => none
termination_by 2 * cs.length + 1

end

/-! ## Statements -/

/-- One statement of a document. -/
inductive Statement where
  | pair (key : Key) (n : Node)
  /-- The header of a table. -/
  | table (key : Key)
  /-- The header of the next table of an array. -/
  | next (key : Key)

namespace Statement

/-- Reads a statement up to the end of its line. -/
def bare? (cs : List Char) : Option (Reading Statement cs) :=
  match cs with
  | '[' :: '[' :: r => do
    let key ← key? r
    match h : key.rest with
    | ']' :: ']' :: rest =>
      some (((key.upTo rest (by simp [h]; omega)).map Statement.next).within (by simp; omega))
    | _ => none
  | '[' :: r => do
    let key ← key? r
    match h : key.rest with
    | ']' :: rest => some (((key.upTo rest (by simp [h])).map Statement.table).within (by simp))
    | _ => none
  | cs => do
    let key ← keyEquals? cs
    let n ← value? depthLimit (skipBlanks key.rest)
    return (key.followed (n.within (length_skipBlanks_le key.rest))).map fun (key, n) =>
      .pair key n

/-- Reads a statement and the end of its line. -/
def line? (cs : List Char) : Option (Reading Statement cs) := do
  let s ← bare? cs
  match h : lineEnd? s.rest with
  | some rest => some (s.upTo rest (length_le_of_lineEnd? h))
  | none => none

/-- All statements of a text. -/
def ofChars? (cs : List Char) : Option (List Statement) :=
  match _h : skipTrivia false cs with
  | [] => some []
  | c :: r => do
    let s ← line? (c :: r)
    return s.value :: (← ofChars? s.rest)
termination_by cs.length
decreasing_by
  have ht := length_skipTrivia_le false cs
  rw [_h] at ht
  exact Nat.lt_of_lt_of_le s.shorter ht

end Statement

/-! ## Documents -/

/-- A document that is being added up: its table so far, and the path to the table of the last
header. -/
structure Draft where
  root : Entries := []
  header : List String := []

namespace Draft

/-- Adds a statement. A pair goes into the table of the last header. -/
def add (d : Draft) : Statement → Option Draft
  | .pair key n => do
    let root ← d.root.through .implied (fun _ es => es.addPair key.path key.name n)
      d.header .explicit
    return { d with root }
  | .table key => do
    return ⟨← d.root.openTable key.path key.name, key.path ++ [key.name]⟩
  | .next key => do
    return ⟨← d.root.openNext key.path key.name, key.path ++ [key.name]⟩

end Draft

/-- The table that a text describes, if it is a document. A byte order mark may stand in front. -/
def Entries.ofText? (text : String) : Option Entries := do
  let cs := match text.toList with
    | '\ufeff' :: r => r
    | cs => cs
  let draft ← (← Statement.ofChars? cs).foldlM Draft.add {}
  return draft.root

end QueryMachine.Toml
