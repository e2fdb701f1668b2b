/-!
# Reading from the front of a text

A reading is what the front of a text means together with the text after it, which is shorter.
That each reading consumes something is what makes every loop over a text end.
-/

namespace QueryMachine.Toml

/-- What the front of a text means, and the shorter text that follows. -/
structure Reading (α : Type) (cs : List Char) where
  value : α
  rest : List Char
  shorter : rest.length < cs.length

namespace Reading

variable {α β : Type}

/-- A reading of a suffix, as a reading of the whole text. -/
def within {cs inner : List Char} (r : Reading α inner)
    (h : inner.length ≤ cs.length) : Reading α cs :=
  ⟨r.value, r.rest, Nat.lt_of_lt_of_le r.shorter h⟩

/-- The same reading with another meaning. -/
def map {cs : List Char} (f : α → β) (r : Reading α cs) : Reading β cs :=
  ⟨f r.value, r.rest, r.shorter⟩

/-- A reading followed by another one. -/
def followed {cs : List Char} (r : Reading α cs) (s : Reading β r.rest) : Reading (α × β) cs :=
  ⟨(r.value, s.value), s.rest, Nat.lt_trans s.shorter r.shorter⟩

/-- Moves on to a suffix of what follows. -/
def upTo {cs : List Char} (r : Reading α cs) (rest : List Char)
    (h : rest.length ≤ r.rest.length) : Reading α cs :=
  ⟨r.value, rest, Nat.lt_of_le_of_lt h r.shorter⟩

/-- Reads the longest front of characters of a class; it must not be empty. -/
def while? (p : Char → Bool) (cs : List Char) : Option (Reading (List Char) cs) :=
  match cs with
  | [] => none
  | c :: r =>
    if p c then
      some ⟨c :: r.takeWhile p, r.dropWhile p,
        Nat.lt_succ_of_le (List.dropWhile_sublist p).length_le⟩
    else none

end Reading

/-! ## What separates -/

/-- The two characters that separate within a line. -/
def isBlank (c : Char) : Bool := c = ' ' || c = '\t'

/-- The characters that may stand in a comment or a one-line string: no control character but
the tab. -/
def isPlain (c : Char) : Bool := c = '\t' || (0x20 ≤ c.toNat && c.toNat ≠ 0x7f)

/-- The text after the blanks at its front. -/
def skipBlanks (cs : List Char) : List Char := cs.dropWhile isBlank

/-- Skips blanks, ends of lines and comments, from inside a comment or outside. It stops at a
character that no comment may hold; nothing else accepts such a character either. -/
def skipTrivia (inComment : Bool) : List Char → List Char
  | [] => []
  | '\r' :: '\n' :: r => skipTrivia false r
  | '\n' :: r => skipTrivia false r
  | c :: r =>
    if inComment then (if isPlain c then skipTrivia true r else c :: r)
    else if isBlank c then skipTrivia false r
    else if c = '#' then skipTrivia true r
    else c :: r

/-- Skips blanks and ends of lines. -/
def skipLines : List Char → List Char
  | [] => []
  | '\r' :: '\n' :: r => skipLines r
  | c :: r => if c = '\n' || isBlank c then skipLines r else c :: r

/-- The text after the end of a line, if there is one at the front. -/
def newline? : List Char → Option (List Char)
  | '\n' :: r => some r
  | '\r' :: '\n' :: r => some r
  | _ => none

/-- The text after the end of the current line, which may hold blanks and a comment. -/
def lineEnd? (cs : List Char) : Option (List Char) :=
  match skipBlanks cs with
  | [] => some []
  | '#' :: r => if r.dropWhile isPlain = [] then some [] else newline? (r.dropWhile isPlain)
  | r => newline? r

theorem length_skipBlanks_le (cs : List Char) : (skipBlanks cs).length ≤ cs.length :=
  (List.dropWhile_sublist isBlank).length_le

theorem length_skipTrivia_le (b : Bool) (cs : List Char) :
    (skipTrivia b cs).length ≤ cs.length := by
  fun_induction skipTrivia b cs <;> simp_all <;> omega

theorem length_skipLines_le (cs : List Char) : (skipLines cs).length ≤ cs.length := by
  fun_induction skipLines cs <;> simp_all <;> omega

theorem length_lt_of_newline? {cs r : List Char} (h : newline? cs = some r) :
    r.length < cs.length := by
  unfold newline? at h
  split at h <;> cases h <;> simp only [List.length_cons] <;> omega

theorem length_le_of_lineEnd? {cs r : List Char} (h : lineEnd? cs = some r) :
    r.length ≤ cs.length := by
  have hb := length_skipBlanks_le cs
  unfold lineEnd? at h
  split at h
  · grind
  · rename_i s hs
    have := (List.dropWhile_sublist isPlain (l := s)).length_le
    split at h
    · grind
    · have := length_lt_of_newline? h
      grind
  · have := length_lt_of_newline? h
    omega

end QueryMachine.Toml
