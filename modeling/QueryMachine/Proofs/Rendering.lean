import QueryMachine.Proofs.Navigation

/-!
# Rendering

A value hands its text to a sink piece by piece, and all that a sink sees of the value are these
pieces: `Value.write_eq_foldl`. So the text of a value is the sum of its pieces, and it is built
from the texts of its members as its shape says:

* `toList_text_string`: a string is written as its escaped characters between quotes;
* `toList_text_array`, `toList_text_object`: the texts of the members stand between brackets, with
  a comma before each but the first;
* `toList_text_ne_nil`: no text is empty.
-/

namespace QueryMachine

/-! ## Sinks -/

/-- A view of one sink that takes each piece like another sink does. -/
def IsView {σ τ : Type} (put : σ → String → σ) (put' : τ → String → τ) (view : σ → τ) : Prop :=
  ∀ sink piece, view (put sink piece) = put' (view sink) piece

namespace IsView

variable {σ τ : Type} {put : σ → String → σ} {put' : τ → String → τ} {view : σ → τ}

theorem writeQuoted (h : IsView put put' view) (s : String) (sink : σ) :
    view (writeQuoted put s sink) = QueryMachine.writeQuoted put' s (view sink) := by
  have hchars : view (s.toList.foldl (fun sink c => put sink (escapeChar c)) (put sink "\"")) =
      s.toList.foldl (fun sink c => put' sink (escapeChar c)) (view (put sink "\"")) :=
    (List.foldl_hom view fun sink c => (h sink (escapeChar c)).symm).symm
  rw [QueryMachine.writeQuoted, QueryMachine.writeQuoted, h, hchars, h]

theorem writeItems (h : IsView put put' view) {items : List Value}
    (hitems : ∀ v ∈ items, ∀ sink, view (v.write put sink) = v.write put' (view sink)) (sink : σ) :
    view (Value.writeItems put items sink) = Value.writeItems put' items (view sink) := by
  induction items generalizing sink with
  | nil => rfl
  | cons item rest ih =>
    obtain ⟨hitem, hrest⟩ := List.forall_mem_cons.mp hitems
    rw [Value.writeItems, Value.writeItems, ih hrest, hitem, h]

theorem writeEntries (h : IsView put put' view) {entries : List (String × Value)}
    (hentries : ∀ entry ∈ entries, ∀ sink,
      view (entry.2.write put sink) = entry.2.write put' (view sink)) (sink : σ) :
    view (Value.writeEntries put entries sink) = Value.writeEntries put' entries (view sink) := by
  induction entries generalizing sink with
  | nil => rfl
  | cons entry rest ih =>
    obtain ⟨hentry, hrest⟩ := List.forall_mem_cons.mp hentries
    rw [Value.writeEntries, Value.writeEntries, ih hrest, hentry, h, h.writeQuoted, h]

/-- A view takes all values like the other sink. -/
theorem write (h : IsView put put' view) (v : Value) (sink : σ) :
    view (v.write put sink) = v.write put' (view sink) := by
  induction v using Value.members_induction generalizing sink with
  | step v hitems hentries =>
    cases v with
    | bool b => cases b <;> exact h _ _
    | string s => exact h.writeQuoted s sink
    | array items =>
      obtain ⟨items⟩ := items
      cases items with
      | nil => rw [Value.write, Value.write, h, h]
      | cons item rest =>
        obtain ⟨hitem, hrest⟩ := List.forall_mem_cons.mp (hitems _ rfl)
        rw [Value.write, Value.write, h, h.writeItems hrest, hitem, h]
    | object entries =>
      cases entries with
      | nil => rw [Value.write, Value.write, h, h]
      | cons entry rest =>
        obtain ⟨hentry, hrest⟩ := List.forall_mem_cons.mp (hentries _ rfl)
        rw [Value.write, Value.write, h, h.writeEntries hrest, hentry, h, h.writeQuoted, h]
    | null | int | float | foreign => exact h _ _

end IsView

namespace Value

/-- The pieces of a value's text, in order. -/
def pieces (v : Value) : List String :=
  v.write (fun pieces piece => pieces ++ [piece]) []

/-- All that a sink sees of a value are its pieces. -/
theorem write_eq_foldl {σ : Type} (put : σ → String → σ) (v : Value) (sink : σ) :
    v.write put sink = v.pieces.foldl put sink := by
  have hview : IsView (fun pieces piece => pieces ++ [piece]) put
      fun pieces => pieces.foldl put sink := by
    intro pieces piece
    show (pieces ++ [piece]).foldl put sink = _
    rw [List.foldl_append, List.foldl_cons, List.foldl_nil]
  exact (hview.write v []).symm

/-! ## The text -/

/-- The text comes after whatever the sink has already. -/
theorem write_append (v : Value) (s : String) : v.write (· ++ ·) s = s ++ v.text := by
  have hview : IsView (· ++ ·) (· ++ ·) (s ++ ·) := fun _ _ => String.append_assoc.symm
  rw [text, hview.write v "", String.append_empty]

/-- The text is all pieces together. -/
theorem join_pieces (v : Value) : String.join v.pieces = v.text :=
  (write_eq_foldl (· ++ ·) v "").symm

/-- The characters of a quoted string. -/
def quoted (s : String) : List Char :=
  '"' :: (s.toList.flatMap (fun c => (escapeChar c).toList) ++ ['"'])

/-- The characters of an entry: the quoted key, a colon, and the text of the value. -/
def entryChars (entry : String × Value) : List Char :=
  quoted entry.1 ++ ':' :: entry.2.text.toList

/-- Texts in a row, with a comma before each but the first. -/
def separated : List (List Char) → List Char
  | [] => []
  | first :: rest => first ++ rest.flatMap (',' :: ·)

theorem toList_writeQuoted (s sink : String) :
    (writeQuoted (· ++ ·) s sink).toList = sink.toList ++ quoted s := by
  have hfold : ∀ (cs : List Char) (sink : String),
      (cs.foldl (fun sink c => sink ++ escapeChar c) sink).toList =
        sink.toList ++ cs.flatMap fun c => (escapeChar c).toList := by
    intro cs
    induction cs with
    | nil => simp
    | cons c cs ih => simp [ih]
  rw [writeQuoted, String.toList_append, hfold, String.toList_append, quoted]
  simp

theorem toList_writeItems (items : List Value) (sink : String) :
    (writeItems (· ++ ·) items sink).toList =
      sink.toList ++ items.flatMap fun item => ',' :: item.text.toList := by
  induction items generalizing sink with
  | nil => simp [writeItems]
  | cons item rest ih => simp [writeItems, ih, write_append]

theorem toList_writeEntries (entries : List (String × Value)) (sink : String) :
    (writeEntries (· ++ ·) entries sink).toList =
      sink.toList ++ entries.flatMap fun entry => ',' :: entryChars entry := by
  induction entries generalizing sink with
  | nil => simp [writeEntries]
  | cons entry rest ih =>
    simp [writeEntries, ih, write_append, toList_writeQuoted, entryChars]

theorem text_int (n : Int64) : (int n).text = toString n.toInt :=
  String.empty_append

theorem toList_text_string (s : String) : (string s).text.toList = quoted s := by
  rw [text, write, toList_writeQuoted]
  rfl

theorem toList_text_array (items : Array Value) :
    (array items).text.toList =
      '[' :: (separated (items.toList.map fun item => item.text.toList) ++ [']']) := by
  obtain ⟨items⟩ := items
  cases items with
  | nil => rfl
  | cons item rest =>
    rw [text, write]
    simp [toList_writeItems, write_append, separated, List.flatMap_map]

theorem toList_text_object (entries : List (String × Value)) :
    (object entries).text.toList =
      '\x7b' :: (separated (entries.map entryChars) ++ ['\x7d']) := by
  cases entries with
  | nil => rfl
  | cons entry rest =>
    rw [text, write]
    simp [toList_writeEntries, toList_writeQuoted, write_append, separated, List.flatMap_map,
      entryChars]

/-! ## No text is empty -/

theorem toList_positional_ne_nil (d : Decimal) : d.positional.toList ≠ [] := by
  have hdigits : (toString d.digits).toList ≠ [] := by
    rw [Nat.toString_eq_repr, Nat.toList_repr]
    exact Nat.toDigits_ne_nil
  rw [Decimal.positional]
  cases d.exponent with
  | ofNat up =>
    dsimp only
    split
    · decide
    · rw [String.toList_append]
      exact List.append_ne_nil_of_left_ne_nil hdigits _
  | negSucc n =>
    dsimp only
    split <;> simp

theorem toList_floatText_ne_nil (x : Binary64) : x.text.toList ≠ [] := by
  rw [Binary64.text]
  split
  · decide
  · rw [String.toList_append]
    apply List.append_ne_nil_of_right_ne_nil
    split
    · exact toList_positional_ne_nil _
    · decide

theorem toList_text_ne_nil (v : Value) : v.text.toList ≠ [] := by
  cases v with
  | null => decide
  | bool b => cases b <;> decide
  | int n =>
    cases hn : n.toInt <;>
      simp [text_int, hn, Int.toString_eq_repr, Int.repr, Nat.toDigits_ne_nil]
  | float x =>
    rw [text, write, String.empty_append]
    exact toList_floatText_ne_nil x
  | string s => simp [toList_text_string, quoted]
  | array items => simp [toList_text_array]
  | object entries => simp [toList_text_object]
  | foreign handle => simp [text, write]

end Value

end QueryMachine
