/-!
# TOML documents

A document is a table of named nodes. Which later lines may still add to a table depends on
how the table came to be, so each one records its origin: under its own header, on the way to
a deeper header, or on the way to a dotted key.
-/

namespace QueryMachine.Toml

/-- How a table came to be. -/
inductive Origin where
  /-- It has a header of its own. -/
  | explicit
  /-- It stands on the path of another header. -/
  | implied
  /-- It stands on the path of a dotted key. -/
  | dotted
  deriving DecidableEq, Repr

/-- What a name stands for. Numbers with a fraction and moments are kept as they are written. -/
inductive Node where
  | boolean (b : Bool)
  | integer (n : Int)
  | float (text : String)
  | moment (text : String)
  | string (text : String)
  | array (items : List Node)
  /-- A table between braces: nothing outside the braces adds to it. -/
  | inline (entries : List (String × Node))
  | table (origin : Origin) (entries : List (String × Node))
  /-- An array of tables: the finished ones, and the one that is still open. -/
  | series (closed : List (List (String × Node))) (last : List (String × Node))
  deriving Inhabited

/-- The entries of a table. No name occurs twice. -/
abbrev Entries := List (String × Node)

namespace Entries

/-- The node under a name. -/
def get? (es : Entries) (name : String) : Option Node :=
  (es.find? (·.1 = name)).map (·.2)

/-- Replaces what a name stands for by its image, or adds the image of nothing at the end. -/
def modify (name : String) (f : Option Node → Option Node) : Entries → Option Entries
  | [] => (f none).map fun n => [(name, n)]
  | (k, n) :: es =>
    if k = name then (f (some n)).map fun n => (k, n) :: es
    else (modify name f es).map ((k, n) :: ·)

/-- Changes the table at the end of a path. Missing tables on the way are made, with the given
origin; of an array of tables the last one is meant. A dotted path does not enter a table that
has a header, and no path enters a finished value. -/
def through (origin : Origin) (f : Origin → Entries → Option Entries) :
    List String → Origin → Entries → Option Entries
  | [], here, es => f here es
  | name :: path, _, es =>
    es.modify name fun
      | none => (through origin f path origin []).map (.table origin)
      | some (.table o es) =>
        if origin = .dotted ∧ o = .explicit then none
        else (through origin f path o es).map (.table o)
      | some (.series closed last) =>
        (through origin f path .explicit last).map (.series closed)
      | some _ => none

/-- Adds a name that is new. -/
def addNew (name : String) (n : Node) (es : Entries) : Option Entries :=
  es.modify name fun
    | none => some n
    | some _ => none

/-- Adds a pair with a dotted key. The table that receives the name is the starting one if the
path is empty, and one made for dotted keys otherwise. -/
def addPair (path : List String) (name : String) (n : Node) (es : Entries) : Option Entries :=
  es.through .dotted
    (fun here es => if (here = .dotted) = (path = []) then none else es.addNew name n)
    path .explicit

/-- Opens the table of a header: a new one, or one that so far only stood on a path. -/
def openTable (path : List String) (name : String) (es : Entries) : Option Entries :=
  es.through .implied
    (fun _ es => es.modify name fun
      | none => some (.table .explicit [])
      | some (.table .implied inner) => some (.table .explicit inner)
      | some _ => none)
    path .explicit

/-- Opens the next table of an array of tables. -/
def openNext (path : List String) (name : String) (es : Entries) : Option Entries :=
  es.through .implied
    (fun _ es => es.modify name fun
      | none => some (.series [] [])
      | some (.series closed last) => some (.series (closed ++ [last]) [])
      | some _ => none)
    path .explicit

end Entries

end QueryMachine.Toml
