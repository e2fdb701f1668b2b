import QueryMachine.Proofs.JsonReader
import QueryMachine.Proofs.Rendering

/-!
# Texts read back

The text of a value without floating-point numbers and handles is read back as that value, however
deep its members lie. So two such values have different texts, unless they are the same.

Each part of a text is read up to the part that comes next:

* `Reads` says that a reading gives a meaning and leaves a text, and `Reads.both` puts two readings
  together as `both` does;
* `reads_quoted` reads strings back, one character after the other, in whichever of the three forms
  of `escapeChar_cases` it is written;
* `reads_int` reads integers back, whose last digit is followed by a mark that closes a value;
* `reads_members` reads containers back when their members are, so that `IsData.reads` follows by
  induction on the value.
-/

namespace QueryMachine

open Toml (Reading isHexDigit numberOf)

namespace Json

/-! ## Readings of parts -/

section

variable {α β γ : Type} {cs : List Char}

/-- Something was read, and a given text is left. -/
def Reads (r : Option (Reading α cs)) (a : α) (rest : List Char) : Prop :=
  r.map (fun r => (r.value, r.rest)) = some (a, rest)

namespace Reads

variable {r s : Option (Reading α cs)} {a : α} {rest : List Char}

theorem eq_some (h : Reads r a rest) : ∃ hshorter, r = some ⟨a, rest, hshorter⟩ := by
  obtain ⟨⟨_, _, hshorter⟩, rfl, hr⟩ := Option.map_eq_some_iff.mp h
  cases hr
  exact ⟨hshorter, rfl⟩

theorem map (h : Reads r a rest) (f : α → β) : Reads (r.map (Reading.map f)) (f a) rest := by
  obtain ⟨_, rfl⟩ := h.eq_some
  rfl

theorem within {inner : List Char} {r : Option (Reading α inner)} (h : Reads r a rest)
    (hle : inner.length ≤ cs.length) : Reads (r.map fun r => r.within hle) a rest := by
  obtain ⟨_, rfl⟩ := h.eq_some
  rfl

/-- A part is read, and then the one behind it. -/
theorem both {f : α → β → γ}
    {next : (rest : List Char) → rest.length < cs.length → Option (Reading β rest)}
    {mid : List Char} {b : β} (h : Reads r a mid)
    (hnext : ∀ hshorter, Reads (next mid hshorter) b rest) :
    Reads (both f r next) (f a b) rest := by
  obtain ⟨hshorter, rfl⟩ := h.eq_some
  obtain ⟨_, hb⟩ := (hnext hshorter).eq_some
  rw [Json.both, Option.bind_some, hb]
  rfl

theorem orElse (h : Reads r a rest) : Reads (r <|> s) a rest := by
  obtain ⟨_, rfl⟩ := h.eq_some
  rfl

theorem orElse_of_none (hr : r = none) (h : Reads s a rest) : Reads (r <|> s) a rest := by
  rw [hr]
  exact h

end Reads

theorem both_none {f : α → β → γ}
    {next : (rest : List Char) → rest.length < cs.length → Option (Reading β rest)} :
    both f (none : Option (Reading α cs)) next = none := rfl

end

/-! ## Marks -/

section

variable {c d : Char} {r : List Char}

theorem reads_one {α : Type} {meaning : Char → Option α} {a : α} (h : meaning c = some a) :
    Reads (one? meaning (c :: r)) a r := by
  rw [Reads, one?, h]
  rfl

theorem reads_this (c : Char) (r : List Char) : Reads (this? c (c :: r)) () r :=
  reads_one (if_pos rfl)

theorem this?_of_ne (h : d ≠ c) : this? c (d :: r) = none := by
  rw [this?, one?, if_neg h]
  rfl

theorem skipSpace_cons (h : isSpace c = false) : skipSpace (c :: r) = c :: r :=
  List.dropWhile_cons_of_neg (by rw [h]; exact Bool.false_ne_true)

theorem reads_mark (h : isSpace c = false) : Reads (mark? c (c :: r)) () r := by
  have hskip : Reads (this? c (skipSpace (c :: r))) () r := by
    rw [skipSpace_cons h]
    exact reads_this c r
  exact hskip.within _

end

/-! ## Strings -/

/-- A character is written as it is, by a letter, or by its code. -/
theorem escapeChar_cases (c : Char) :
    (escapeChar c).toList = [c] ∧ plain? c = some c ∧ c.toNat ≠ 0x7f ∨
    (∃ d, (escapeChar c).toList = ['\\', d] ∧ letter? d = some c) ∨
    (escapeChar c).toList =
      ['\\', 'u', '0', '0', hexDigit (c.toNat / 16), hexDigit (c.toNat % 16)] ∧ c.toNat < 0x80 := by
  unfold escapeChar
  split
  case h_6 hquote hslash _ _ _ =>
    split
    · right; right
      exact ⟨by simp, by omega⟩
    · left
      refine ⟨String.toList_singleton c, if_neg ?_, by omega⟩
      rintro (h | h | h)
      · exact hquote h
      · exact hslash h
      · omega
  case h_1 => exact .inr (.inl ⟨'"', rfl, rfl⟩)
  case h_2 => exact .inr (.inl ⟨'\\', rfl, rfl⟩)
  case h_3 => exact .inr (.inl ⟨'n', rfl, rfl⟩)
  case h_4 => exact .inr (.inl ⟨'r', rfl, rfl⟩)
  case h_5 => exact .inr (.inl ⟨'t', rfl, rfl⟩)

theorem isHexDigit_hexDigit : ∀ n < 16, isHexDigit (hexDigit n) = true := by
  decide

theorem digitValue_hexDigit : ∀ n < 16, Toml.digitValue (hexDigit n) = n := by
  decide

/-- The code of a character that has two digits is read as that character. -/
theorem reads_codePoint {c : Char} (h : c.toNat < 0x80) (rest : List Char) :
    Reads (codePoint? ('0' :: '0' :: hexDigit (c.toNat / 16) :: hexDigit (c.toNat % 16) :: rest))
      c rest := by
  have hdigits : [ '0', '0', hexDigit (c.toNat / 16), hexDigit (c.toNat % 16)].all isHexDigit := by
    have hhigh := isHexDigit_hexDigit (c.toNat / 16) (by omega)
    have hlow := isHexDigit_hexDigit (c.toNat % 16) (by omega)
    simp only [List.all_cons, List.all_nil, hhigh, hlow]
    rfl
  have hnumber :
      numberOf 16 [ '0', '0', hexDigit (c.toNat / 16), hexDigit (c.toNat % 16)] = c.toNat := by
    have hhigh := digitValue_hexDigit (c.toNat / 16) (by omega)
    have hlow := digitValue_hexDigit (c.toNat % 16) (by omega)
    have hzero : Toml.digitValue '0' = 0 := rfl
    simp only [numberOf, List.foldl_cons, List.foldl_nil, hhigh, hlow, hzero]
    omega
  have hvalid : c.toNat.isValidChar := c.valid
  rw [codePoint?, codeUnit?, if_pos hdigits]
  simp only [Reads, Option.bind_eq_bind, Option.bind_some, hnumber, if_pos hvalid, Reading.map,
    Char.ofNat_toNat, Option.pure_def, Option.map_some]

/-- A character of a string is read as itself, however it is written. -/
theorem reads_escapeChar (c : Char) (rest : List Char) :
    Reads (char? ((escapeChar c).toList ++ rest)) c rest := by
  -- the backslash does not stand for itself
  have hescape : ∀ {cs}, Reads (escape? cs) c rest → Reads (char? ('\\' :: cs)) c rest :=
    fun h => .orElse_of_none rfl (.both (reads_this _ _) fun _ => h)
  obtain ⟨hc, hplain, -⟩ | ⟨d, hd, hletter⟩ | ⟨hcode, hlt⟩ := escapeChar_cases c
  · rw [hc, List.singleton_append]
    exact .orElse (reads_one hplain)
  · rw [hd]
    exact hescape (.orElse (reads_one hletter))
  · rw [hcode]
    exact hescape (.orElse_of_none rfl (.both (reads_this _ _) fun _ => reads_codePoint hlt rest))

theorem reads_chars (cs rest : List Char) :
    Reads (chars? (cs.flatMap (fun c => (escapeChar c).toList) ++ '"' :: rest)) cs rest := by
  induction cs with
  | nil =>
    rw [List.flatMap_nil, List.nil_append, chars?]
    exact .orElse_of_none rfl ((reads_this _ _).map _)
  | cons c cs ih =>
    rw [List.flatMap_cons, List.append_assoc, chars?]
    exact .orElse ((reads_escapeChar c _).both fun _ => ih)

/-- A quoted string is read as that string. -/
theorem reads_quoted (s : String) (rest : List Char) :
    Reads (string? (Value.quoted s ++ rest)) s rest := by
  have hchars : Reads (string? (Value.quoted s ++ rest)) (String.ofList s.toList) rest := by
    rw [Value.quoted, List.cons_append, List.append_assoc, List.singleton_append]
    exact .both (reads_mark rfl) fun _ => reads_chars s.toList rest
  rwa [String.ofList_toList] at hchars

/-! ## Integers -/

section

variable {rest : List Char}

/-- What follows a value in a text: nothing, or one of the marks that may stand there. -/
def Closes (rest : List Char) : Prop :=
  ∀ c ∈ rest.head?, c = ',' ∨ c = ']' ∨ c = '\x7d'

/-- A mark that closes a value belongs to no number. -/
theorem Closes.not_numeric (h : Closes rest) : ∀ c ∈ rest.head?,
    c.isDigit = false ∧ c ≠ '.' ∧ exponentMark? c = none := by
  intro c hc
  rcases h c hc with rfl | rfl | rfl <;> decide

theorem reads_digits {ds : List Char} (hne : ds ≠ []) (hds : ∀ c ∈ ds, c.isDigit = true)
    (hrest : Closes rest) : Reads (digits? (ds ++ rest)) ds rest := by
  obtain ⟨c, ds, rfl⟩ := List.exists_cons_of_ne_nil hne
  obtain ⟨hc, hds⟩ := List.forall_mem_cons.mp hds
  have hstop : rest.takeWhile Char.isDigit = [] ∧ rest.dropWhile Char.isDigit = rest := by
    cases rest with
    | nil => exact ⟨rfl, rfl⟩
    | cons d rest =>
      have hd : ¬ d.isDigit = true := by rw [(hrest.not_numeric d rfl).1]; exact Bool.false_ne_true
      exact ⟨List.takeWhile_cons_of_neg hd, List.dropWhile_cons_of_neg hd⟩
  have htake : (ds ++ rest).takeWhile Char.isDigit = ds := by
    rw [List.takeWhile_append_of_pos hds, hstop.1, List.append_nil]
  have hdrop : (ds ++ rest).dropWhile Char.isDigit = rest := by
    rw [List.dropWhile_append_of_pos hds, hstop.2]
  rw [Reads, List.cons_append, digits?, Reading.while?, if_pos hc, Option.map_some]
  exact congrArg some (Prod.ext (congrArg (c :: ·) htake) hdrop)

/-- Only zero begins with the digit zero. -/
theorem head?_toDigits_ne_zero {n : ℕ} (h : n ≠ 0) : (Nat.toDigits 10 n).head? ≠ some '0' := by
  induction n using Nat.strong_induction_on with
  | _ n ih =>
    by_cases hlt : n < 10
    · rw [Nat.toDigits_of_lt_base hlt, List.head?_cons, ne_eq, Option.some_inj,
        Nat.digitChar_eq_zero]
      exact h
    · have hhead := ih (n / 10) (by omega) (by omega)
      rw [Nat.toDigits_of_base_le (by decide) (by omega),
        List.head?_append_of_ne_nil _ Nat.toDigits_ne_nil]
      exact hhead

theorem reads_whole (n : ℕ) (hrest : Closes rest) :
    Reads (whole? (Nat.toDigits 10 n ++ rest)) (Nat.toDigits 10 n) rest := by
  by_cases hn : n = 0
  · rw [hn, Nat.toDigits_zero]
    exact .orElse ((reads_this _ _).map _)
  · have hdigits : ∀ c ∈ Nat.toDigits 10 n, c.isDigit = true := fun c =>
      Nat.isDigit_of_mem_toDigits (by decide) (by decide)
    refine .orElse_of_none ?_ (reads_digits Nat.toDigits_ne_nil hdigits hrest)
    have hhead := head?_toDigits_ne_zero hn
    obtain ⟨c, ds, hds⟩ := List.exists_cons_of_ne_nil (Nat.toDigits_ne_nil (b := 10) (n := n))
    rw [hds] at hhead ⊢
    rw [List.cons_append, this?_of_ne fun hc => hhead (congrArg some hc)]
    rfl

/-- An integer as it is written. -/
def numeral (k : ℤ) : Numeral where
  negative := k < 0
  whole := Nat.toDigits 10 k.natAbs

theorem reads_signed (k : ℤ) (hrest : Closes rest) :
    Reads (signed? ((toString k).toList ++ rest)) (numeral k) rest := by
  rw [Int.toString_eq_repr]
  cases k with
  | ofNat m =>
    rw [Int.repr, Nat.toList_repr]
    exact .orElse ((reads_whole m hrest).map _)
  | negSucc m =>
    have htext : (Int.repr (.negSucc m)).toList ++ rest =
        '-' :: (Nat.toDigits 10 (m + 1) ++ rest) := by
      simp [Int.repr]
    have hnegative : numeral (.negSucc m) =
        { negative := true, whole := Nat.toDigits 10 (m + 1) } := by
      simp [numeral]
    rw [htext, hnegative]
    exact .orElse_of_none rfl (.both (reads_this '-' _) fun _ => reads_whole (m + 1) hrest)

theorem reads_number (k : ℤ) (hrest : Closes rest) :
    Reads (number? ((toString k).toList ++ rest)) (numeral k) rest := by
  obtain ⟨_, hsigned⟩ := (reads_signed k hrest).eq_some
  have hdot : ¬ rest.head? = some '.' := fun h => (hrest.not_numeric '.' h).2.1 rfl
  have hmark : ¬ (rest.head?.bind exponentMark?).isSome = true := by
    cases hhead : rest.head? with
    | none => exact Bool.false_ne_true
    | some c => rw [Option.bind_some, (hrest.not_numeric c hhead).2.2]; exact Bool.false_ne_true
  rw [number?, hsigned, Option.bind_some, fraction?, if_neg hdot, Option.bind_some, exponent?,
    if_neg hmark]
  rfl

theorem mem_toString {k : ℤ} {c : Char} (h : c ∈ (toString k).toList) :
    c.isDigit = true ∨ c = '-' := by
  have hdigits : ∀ n, c ∈ Nat.toDigits 10 n → c.isDigit = true := fun n =>
    Nat.isDigit_of_mem_toDigits (by decide) (by decide)
  rw [Int.toString_eq_repr] at h
  cases k with
  | ofNat m =>
    rw [Int.repr, Nat.toList_repr] at h
    exact .inl (hdigits m h)
  | negSucc m =>
    rw [Int.repr, String.toList_append, Nat.toList_repr, List.mem_append] at h
    exact h.symm.imp (hdigits (m + 1)) List.mem_singleton.mp

theorem isSpace_of_numeric {c : Char} (h : c.isDigit = true ∨ c = '-') : isSpace c = false := by
  rw [Bool.eq_false_iff]
  intro hspace
  simp only [isSpace, Bool.or_eq_true, decide_eq_true_eq] at hspace
  rcases hspace with ((rfl | rfl) | rfl) | rfl <;> revert h <;> decide

theorem numberOf_toDigits (n : ℕ) : numberOf 10 (Nat.toDigits 10 n) = n := by
  have hdigits : numberOf 10 (Nat.toDigits 10 n) = Nat.ofDigitChars 10 (Nat.toDigits 10 n) 0 := by
    refine List.foldl_ext _ _ _ fun k c hc => ?_
    have hdigit : c.isDigit = true := Nat.isDigit_of_mem_toDigits (by decide) (by decide) hc
    rw [Toml.digitValue, if_pos hdigit, Nat.mul_comm]
  rw [hdigits, Nat.ofDigitChars_toDigits (by decide) (by decide)]

/-- Every 64-bit integer has its own value when it is read. -/
theorem value_numeral (other : Numeral → Value) (n : Int64) :
    (numeral n.toInt).value other = .int n := by
  have hsign : (if decide (n.toInt < 0) then -(n.toInt.natAbs : ℤ) else n.toInt.natAbs) =
      n.toInt := by
    by_cases hneg : n.toInt < 0
    · rw [if_pos (decide_eq_true hneg)]
      omega
    · rw [if_neg (by simpa using hneg)]
      omega
  rw [Numeral.value, numeral]
  simp only [numberOf_toDigits, hsign, n.minValue_le_toInt, n.toInt_le, Int64.ofInt_toInt,
    Option.isNone_none, and_self, if_true]

end

/-! ## Members -/

section

variable {α : Type} {close : Char} {rest : List Char} {members : List α}
  {render : α → List Char}

/-- After a member come the others, and then the mark that closes them. -/
theorem closes_more (hclose : close = ']' ∨ close = '\x7d') :
    Closes (members.flatMap (fun member => ',' :: render member) ++ close :: rest) := by
  intro c hc
  cases members with
  | nil =>
    obtain rfl := Option.some.inj hc
    exact .inr hclose
  | cons member members =>
    obtain rfl := Option.some.inj hc
    exact .inl rfl

theorem isSpace_of_close (hclose : close = ']' ∨ close = '\x7d') : isSpace close = false := by
  rcases hclose with rfl | rfl <;> rfl

/-- If every member is read from its text, then they all are. -/
theorem reads_moreMembers (hclose : close = ']' ∨ close = '\x7d') {cs : List Char}
    (hcs : cs = members.flatMap (fun member => ',' :: render member) ++ close :: rest)
    {member? : (rest : List Char) → rest.length < cs.length → Option (Reading α rest)}
    (hmembers : ∀ member ∈ members, ∀ rest, Closes rest → ∀ hshorter,
      Reads (member? (render member ++ rest) hshorter) member rest) :
    Reads (moreMembers? close cs member?) members rest := by
  induction members generalizing cs with
  | nil =>
    rw [List.flatMap_nil, List.nil_append] at hcs
    subst hcs
    have hcomma : mark? ',' (close :: rest) = none := by
      obtain rfl | rfl := hclose <;> rfl
    rw [moreMembers?, hcomma]
    exact .orElse_of_none both_none ((reads_mark (isSpace_of_close hclose)).map _)
  | cons member members ih =>
    obtain ⟨hmember, hmore⟩ := List.forall_mem_cons.mp hmembers
    rw [List.flatMap_cons, List.append_assoc, List.cons_append] at hcs
    subst hcs
    rw [moreMembers?]
    refine .orElse (.both (reads_mark rfl) fun _ =>
      .both (hmember _ (closes_more hclose) _) fun _ => ?_)
    exact ih rfl fun member hmem rest hrest hshorter => hmore member hmem rest hrest _

theorem reads_members (hclose : close = ']' ∨ close = '\x7d') {cs : List Char}
    (hcs : cs = Value.separated (members.map render) ++ close :: rest)
    {member? : (rest : List Char) → rest.length ≤ cs.length → Option (Reading α rest)}
    (hmembers : ∀ member ∈ members, ∀ rest, Closes rest → ∀ hle,
      Reads (member? (render member ++ rest) hle) member rest)
    (hnone : ∀ hle, member? (close :: rest) hle = none) :
    Reads (members? close cs member?) members rest := by
  cases members with
  | nil =>
    rw [List.map_nil, Value.separated, List.nil_append] at hcs
    subst hcs
    rw [members?, hnone]
    exact .orElse_of_none both_none ((reads_mark (isSpace_of_close hclose)).map _)
  | cons member members =>
    obtain ⟨hmember, hmore⟩ := List.forall_mem_cons.mp hmembers
    rw [List.map_cons, Value.separated, List.flatMap_map, List.append_assoc] at hcs
    subst hcs
    refine .orElse (.both (hmember _ (closes_more hclose) _) fun _ => ?_)
    exact reads_moreMembers hclose rfl fun member hmem rest hrest hshorter =>
      hmore member hmem rest hrest _

end

/-! ## Values -/

section

variable {other : Numeral → Value} {v : Value} {rest : List Char}

theorem value?_closing (rest : List Char) : value? other (']' :: rest) = none := by
  rw [value?]
  rfl

/-- Numbers and words are read before all other values. -/
theorem reads_of_bare {c : Char} {cs : List Char} (hc : isSpace c = false)
    (h : Reads (bare? other (c :: cs)) v rest) : Reads (value? other (c :: cs)) v rest := by
  have hskip : Reads (bare? other (skipSpace (c :: cs))) v rest := by
    rw [skipSpace_cons hc]
    exact h
  rw [value?]
  exact .orElse (.orElse (hskip.within _))

theorem reads_int (n : Int64) (hrest : Closes rest) :
    Reads (value? other ((Value.int n).text.toList ++ rest)) (.int n) rest := by
  have hnumber := ((reads_number n.toInt hrest).map (Numeral.value other)).orElse (s := word? _)
  rw [value_numeral, ← Value.text_int] at hnumber
  obtain ⟨c, cs, hcs⟩ := List.exists_cons_of_ne_nil (Value.toList_text_ne_nil (.int n))
  have hc : c.isDigit = true ∨ c = '-' := by
    apply mem_toString (k := n.toInt)
    rw [← Value.text_int, hcs]
    exact List.mem_cons_self
  rw [hcs] at hnumber ⊢
  exact reads_of_bare (isSpace_of_numeric hc) hnumber

/-- An array is read if its items are. -/
theorem reads_array {items : Array Value} (hitems : ∀ v ∈ items, ∀ rest, Closes rest →
      Reads (value? other (v.text.toList ++ rest)) v rest) (rest : List Char) :
    Reads (value? other ((Value.array items).text.toList ++ rest)) (.array items) rest := by
  have hread : Reads (value? other ((Value.array items).text.toList ++ rest))
      (.array items.toList.toArray) rest := by
    rw [Value.toList_text_array, List.cons_append, List.append_assoc, List.singleton_append, value?]
    refine .orElse_of_none rfl (.orElse (.both (reads_mark rfl) fun _ => ?_))
    exact reads_members (.inl rfl) rfl
      (fun v hv rest hrest _ => hitems v (Array.mem_toList_iff.mp hv) rest hrest)
      fun _ => value?_closing rest
  rwa [Array.toArray_toList] at hread

theorem reads_pair {entry : String × Value} (hentry : ∀ rest, Closes rest →
      Reads (value? other (entry.2.text.toList ++ rest)) entry.2 rest) (hrest : Closes rest) :
    Reads (pair? (Value.entryChars entry ++ rest) fun value _ => value? other value) entry rest := by
  rw [Value.entryChars, List.append_assoc, List.cons_append]
  exact (reads_quoted entry.1 _).both fun _ => .both (reads_mark rfl) fun _ => hentry rest hrest

/-- An object is read if its values are. -/
theorem reads_object {entries : List (String × Value)}
    (hkeys : (entries.map (·.1)).Pairwise (· < ·))
    (hentries : ∀ entry ∈ entries, ∀ rest, Closes rest →
      Reads (value? other (entry.2.text.toList ++ rest)) entry.2 rest) (rest : List Char) :
    Reads (value? other ((Value.object entries).text.toList ++ rest)) (.object entries) rest := by
  rw [Value.toList_text_object, List.cons_append, List.append_assoc, List.singleton_append, value?,
    ← Value.ofEntries_of_ascending hkeys]
  refine .orElse_of_none rfl (.orElse_of_none rfl (.both (reads_mark rfl) fun _ => ?_))
  exact reads_members (.inr rfl) rfl
    (fun entry hentry rest hrest _ => reads_pair (hentries entry hentry) hrest) fun _ => rfl

end

end Json

namespace Value

/-- A value of nulls, booleans, integers, strings, arrays and objects only. -/
inductive IsData : Value → Prop where
  | null : IsData .null
  | bool (b : Bool) : IsData (.bool b)
  | int (n : Int64) : IsData (.int n)
  | string (s : String) : IsData (.string s)
  | array {items : Array Value} (h : ∀ v ∈ items, IsData v) : IsData (.array items)
  | object {entries : List (String × Value)} (hkeys : (entries.map (·.1)).Pairwise (· < ·))
      (h : ∀ entry ∈ entries, IsData entry.2) : IsData (.object entries)

theorem IsData.reads {v : Value} (hv : v.IsData) (other : Json.Numeral → Value) :
    ∀ rest, Json.Closes rest → Json.Reads (Json.value? other (v.text.toList ++ rest)) v rest := by
  induction hv with
  | null => exact fun rest _ => Json.reads_of_bare rfl (.orElse_of_none rfl rfl)
  | bool b => cases b <;> exact fun rest _ => Json.reads_of_bare rfl (.orElse_of_none rfl rfl)
  | int n => exact fun rest => Json.reads_int n
  | string s =>
    intro rest _
    rw [toList_text_string, Json.value?]
    refine .orElse (.orElse_of_none ?_ ((Json.reads_quoted s rest).map _))
    rfl
  | array _ ih => exact fun rest _ => Json.reads_array ih rest
  | object hkeys _ ih => exact fun rest _ => Json.reads_object hkeys ih rest

/-! ## No control characters -/

/-- No control character, which may not stand in a text as it is. -/
def Printable (c : Char) : Prop := 0x20 ≤ c.toNat ∧ c.toNat ≠ 0x7f

instance (c : Char) : Decidable (Printable c) := inferInstanceAs (Decidable (_ ∧ _))

theorem printable_escapeChar {c : Char} : ∀ d ∈ (escapeChar c).toList, Printable d := by
  obtain ⟨hc, hplain, hdelete⟩ | ⟨d, hd, hletter⟩ | ⟨hcode, hlt⟩ := Json.escapeChar_cases c
  · rw [hc, List.forall_mem_singleton]
    refine ⟨?_, hdelete⟩
    rw [Json.plain?] at hplain
    split at hplain
    · cases hplain
    · omega
  · have hprintable : Printable d := by
      unfold Json.letter? at hletter
      split at hletter
      case h_9 => cases hletter
      all_goals decide
    rw [hd, List.forall_mem_cons, List.forall_mem_singleton]
    exact ⟨by decide, hprintable⟩
  · have hdigit : ∀ n < 16, Printable (hexDigit n) := by decide
    rw [hcode]
    simp only [List.forall_mem_cons]
    exact ⟨by decide, by decide, by decide, by decide, hdigit _ (by omega), hdigit _ (by omega),
      List.forall_mem_nil _⟩

/-- What stands between two marks may be anything that can be printed. -/
theorem printable_between {opening closing : Char} {cs : List Char} (hopening : Printable opening)
    (hclosing : Printable closing) (hcs : ∀ c ∈ cs, Printable c) :
    ∀ c ∈ opening :: (cs ++ [closing]), Printable c := by
  rw [List.forall_mem_cons, List.forall_mem_append, List.forall_mem_singleton]
  exact ⟨hopening, hcs, hclosing⟩

theorem printable_quoted (s : String) : ∀ c ∈ quoted s, Printable c := by
  refine printable_between (by decide) (by decide) fun c hc => ?_
  obtain ⟨_, -, hc⟩ := List.mem_flatMap.mp hc
  exact printable_escapeChar c hc

theorem printable_separated {parts : List (List Char)}
    (h : ∀ part ∈ parts, ∀ c ∈ part, Printable c) : ∀ c ∈ separated parts, Printable c := by
  cases parts with
  | nil => exact List.forall_mem_nil _
  | cons first rest =>
    obtain ⟨hfirst, hrest⟩ := List.forall_mem_cons.mp h
    intro c hc
    rw [separated, List.mem_append, List.mem_flatMap] at hc
    obtain hc | ⟨part, hpart, hc⟩ := hc
    · exact hfirst c hc
    · obtain rfl | hc := List.mem_cons.mp hc
      · decide
      · exact hrest part hpart c hc

theorem IsData.printable {v : Value} (hv : v.IsData) : ∀ c ∈ v.text.toList, Printable c := by
  have hword : ∀ {cs : List Char}, cs.all (fun c => decide (Printable c)) = true →
      ∀ c ∈ cs, Printable c :=
    fun h c hc => of_decide_eq_true (List.all_eq_true.mp h c hc)
  induction hv with
  | null => exact hword rfl
  | bool b => cases b <;> exact hword rfl
  | int n =>
    intro c hc
    rw [text_int] at hc
    obtain hdigit | rfl := Json.mem_toString hc
    · obtain ⟨hlow, hhigh⟩ := Char.isDigit_iff_toNat.mp hdigit
      exact ⟨le_trans (by decide) hlow, ne_of_lt (lt_of_le_of_lt hhigh (by decide))⟩
    · decide
  | string s =>
    rw [toList_text_string]
    exact printable_quoted s
  | array _ ih =>
    rw [toList_text_array]
    refine printable_between (by decide) (by decide) (printable_separated ?_)
    rw [List.forall_mem_map]
    exact fun v hv => ih v (Array.mem_toList_iff.mp hv)
  | object _ _ ih =>
    rw [toList_text_object]
    refine printable_between (by decide) (by decide) (printable_separated ?_)
    rw [List.forall_mem_map]
    intro entry hentry
    rw [entryChars, List.forall_mem_append, List.forall_mem_cons]
    exact ⟨printable_quoted entry.1, by decide, ih entry hentry⟩

/-! ## Texts are faithful -/

/-- The text of data is read back completely, as the value it came from. -/
theorem IsData.ofText?_text {v : Value} (hv : v.IsData) (other : Json.Numeral → Value) :
    Json.ofText? other v.text = some v := by
  have hread := hv.reads other [] fun c hc => by cases hc
  rw [List.append_nil] at hread
  obtain ⟨_, heq⟩ := hread.eq_some
  rw [Json.ofText?, heq]
  rfl

/-- The text of data is JSON: read as such, whatever becomes of numbers that are no integers, it
gives the value back, and nothing is left over. So no other data has this text. No control character
stands in it as it is. -/
theorem text_reads_back {v : Value} (hv : v.IsData) :
    (∀ other, Json.ofText? other v.text = some v) ∧
    (∀ w, w.IsData → w.text = v.text → w = v) ∧
    (∀ c ∈ v.text.toList, 0x20 ≤ c.toNat ∧ c.toNat ≠ 0x7f) := by
  refine ⟨hv.ofText?_text, fun w hw htext => ?_, hv.printable⟩
  have hsame := hw.ofText?_text fun _ => .null
  rw [htext, hv.ofText?_text] at hsame
  exact (Option.some.inj hsame).symm

/-- A text with all three forms of characters and the least integer. -/
theorem text_reads_back_escaped :
    (object [("\"é", array #[int Int64.minValue, string "\x7f\n"])]).IsData ∧
      Json.ofText? (fun _ => .null)
          "\x7b\"\\\"é\":[-9223372036854775808,\"\\u007f\\n\"]\x7d" =
        some (object [("\"é", array #[int Int64.minValue, string "\x7f\n"])]) := by
  have hitems : ∀ v ∈ #[int Int64.minValue, string "\x7f\n"], v.IsData := by
    simp only [List.mem_toArray, List.forall_mem_cons]
    exact ⟨.int _, .string _, List.forall_mem_nil _⟩
  have hdata : (object [("\"é", array #[int Int64.minValue, string "\x7f\n"])]).IsData :=
    .object (List.pairwise_singleton _ _) (List.forall_mem_singleton.mpr (.array hitems))
  have htext : (object [("\"é", array #[int Int64.minValue, string "\x7f\n"])]).text =
      "\x7b\"\\\"é\":[-9223372036854775808,\"\\u007f\\n\"]\x7d" := by decide
  refine ⟨hdata, ?_⟩
  rw [← htext]
  exact (text_reads_back hdata).1 _

end Value

end QueryMachine
