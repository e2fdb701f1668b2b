import Mathlib.Data.String.Basic
import QueryMachine.Proofs.Rendering

/-!
# Previews are cut texts

A preview shows the longest front of a value's text that ends with a character and has no more than
two bytes, with a mark behind it unless the text has only one byte. Neither the pieces that the text
comes in nor the short cut through `Value.clip` can be seen in it.

* `BoundedText.ofChars` is what a bounded text keeps of characters, and `foldl_put` says that it
  keeps just that, in whatever pieces the characters come;
* `take_text_clip`: a clipped value has a text with the same first characters;
* `BoundedText.ofChars_congr_bytes`: what is kept depends only on the first bytes;
* `preview_of_pieces` and `preview_congr` say the same of the preview.
-/

namespace QueryMachine

open String (utf8Len utf8EncodeChar)

/-! ## Taking bytes -/

section

variable {room : ℕ} {cs ds : List Char}

/-- Characters that fit are all taken, and leave so much less room. -/
theorem takeBytes_append_of_le (h : utf8Len cs ≤ room) (ds : List Char) :
    takeBytes room (cs ++ ds) = cs ++ takeBytes (room - utf8Len cs) ds := by
  induction cs generalizing room with
  | nil => rfl
  | cons c cs ih =>
    rw [String.utf8Len_cons] at h
    have hroom : room - utf8Len (c :: cs) = room - c.utf8Size - utf8Len cs := by
      rw [String.utf8Len_cons]
      omega
    rw [List.cons_append, takeBytes, if_pos (by omega), ih (by omega), hroom, List.cons_append]

theorem takeBytes_of_le (h : utf8Len cs ≤ room) : takeBytes room cs = cs := by
  have happend := takeBytes_append_of_le h []
  rwa [takeBytes, List.append_nil] at happend

/-- What comes after characters that do not fit is not reached. -/
theorem takeBytes_append_of_lt (h : room < utf8Len cs) (ds : List Char) :
    takeBytes room (cs ++ ds) = takeBytes room cs := by
  induction cs generalizing room with
  | nil => exact absurd h (Nat.not_lt_zero room)
  | cons c cs ih =>
    rw [List.cons_append, takeBytes, takeBytes]
    split
    · rw [String.utf8Len_cons] at h
      rw [ih (by omega)]
    · rfl

theorem takeBytes_prefix (room : ℕ) (cs : List Char) : takeBytes room cs <+: cs := by
  induction cs generalizing room with
  | nil => exact List.prefix_refl _
  | cons c cs ih =>
    rw [takeBytes]
    split
    · exact List.prefix_cons_inj c |>.mpr (ih _)
    · exact List.nil_prefix

theorem utf8Len_takeBytes_le (room : ℕ) (cs : List Char) : utf8Len (takeBytes room cs) ≤ room := by
  induction cs generalizing room with
  | nil => exact Nat.zero_le room
  | cons c cs ih =>
    rw [takeBytes]
    split
    · have hrest := ih (room - c.utf8Size)
      rw [String.utf8Len_cons]
      omega
    · exact Nat.zero_le room

/-- Every front of the characters that fits is a front of what is taken. -/
theorem prefix_takeBytes (hfront : ds <+: cs) (h : utf8Len ds ≤ room) :
    ds <+: takeBytes room cs := by
  obtain ⟨rest, rfl⟩ := hfront
  rw [takeBytes_append_of_le h]
  exact List.prefix_append _ _

theorem length_le_utf8Len (cs : List Char) : cs.length ≤ utf8Len cs := by
  induction cs with
  | nil => exact Nat.le_refl 0
  | cons c cs ih =>
    have hpos := c.utf8Size_pos
    rw [List.length_cons, String.utf8Len_cons]
    omega

end

/-! ## Bounded texts -/

namespace BoundedText

/-- What a bounded text keeps of characters. -/
def ofChars (limit : ℕ) (cs : List Char) : BoundedText where
  kept := String.ofList (takeBytes limit cs)
  overflowed := limit < utf8Len cs

/-- One more piece adds its characters. -/
theorem put_ofChars (limit : ℕ) (cs : List Char) (piece : String) :
    put limit (ofChars limit cs) piece = ofChars limit (cs ++ piece.toList) := by
  by_cases hover : limit < utf8Len cs
  · have hlonger : limit < utf8Len (cs ++ piece.toList) := by
      rw [String.utf8Len_append]
      omega
    simp only [put, ofChars, hover, hlonger, takeBytes_append_of_lt hover, decide_true, if_true]
  · have hle : utf8Len cs ≤ limit := Nat.not_lt.mp hover
    have hroom : limit - (String.ofList cs).utf8ByteSize = limit - utf8Len cs := by
      rw [String.utf8ByteSize_ofList]
    have happend := takeBytes_append_of_le hle piece.toList
    simp only [put, ofChars, hover, takeBytes_of_le hle, hroom, decide_false, if_false,
      Bool.false_eq_true, happend, String.utf8Len_append, String.utf8Len_toList]
    split
    · rename_i hfits
      have hnot : ¬ limit < utf8Len cs + piece.utf8ByteSize := by omega
      rw [takeBytes_of_le (by rwa [String.utf8Len_toList]), String.ofList_append,
        String.ofList_toList]
      simp only [hnot, decide_false]
    · have hlt : limit < utf8Len cs + piece.utf8ByteSize := by omega
      rw [String.ofList_append]
      simp only [hlt, decide_true]

/-- Whatever pieces the characters come in, a bounded text keeps the same of them. -/
theorem foldl_put (limit : ℕ) (pieces : List String) :
    pieces.foldl (put limit) {} = ofChars limit (String.join pieces).toList := by
  suffices h : ∀ cs, pieces.foldl (put limit) (ofChars limit cs) =
      ofChars limit (cs ++ pieces.flatMap String.toList) by
    rw [String.toList_join]
    exact h []
  induction pieces with
  | nil => intro cs; rw [List.foldl_nil, List.flatMap_nil, List.append_nil]
  | cons piece pieces ih =>
    intro cs
    rw [List.foldl_cons, put_ofChars, ih, List.flatMap_cons, List.append_assoc]

/-- There is never less than no room. -/
theorem kept_le (limit : ℕ) (pieces : List String) :
    (pieces.foldl (put limit) {}).kept.utf8ByteSize ≤ limit := by
  rw [foldl_put, ofChars, String.utf8ByteSize_ofList]
  exact utf8Len_takeBytes_le _ _

/-- Once a piece has been cut, no piece adds anything. -/
theorem foldl_put_of_overflowed {limit : ℕ} {t : BoundedText} (h : t.overflowed = true)
    (pieces : List String) : pieces.foldl (put limit) t = t := by
  induction pieces with
  | nil => rfl
  | cons piece pieces ih => rw [List.foldl_cons, put, if_pos h, ih]

/-- What is kept depends only on one character more than there may be bytes. -/
theorem ofChars_take (limit : ℕ) (cs : List Char) :
    ofChars limit (cs.take (limit + 1)) = ofChars limit cs := by
  by_cases hshort : cs.length ≤ limit + 1
  · rw [List.take_of_length_le hshort]
  · -- the first characters alone are too many
    have hmany : limit < utf8Len (cs.take (limit + 1)) := by
      have hlength := length_le_utf8Len (cs.take (limit + 1))
      rw [List.length_take] at hlength
      omega
    have hmore := String.utf8Len_le_of_prefix (List.take_prefix (limit + 1) cs)
    have hkept := takeBytes_append_of_lt hmany (cs.drop (limit + 1))
    rw [List.take_append_drop] at hkept
    rw [ofChars, ofChars, hkept]
    simp only [hmany, hmany.trans_le hmore]

end BoundedText

/-! ## First bytes -/

/-- The bytes that encode a character tell it, whatever comes after them. -/
theorem eq_of_encodeChar_append {c d : Char} {a b : List UInt8}
    (h : utf8EncodeChar c ++ a = utf8EncodeChar d ++ b) : c = d := by
  have hdecode : ∀ (c : Char) (rest : List UInt8),
      (utf8EncodeChar c ++ rest).toByteArray.utf8DecodeChar? 0 = some c := by
    intro c rest
    rw [List.toByteArray_append]
    exact ByteArray.utf8DecodeChar?_utf8EncodeChar_append
  have hc := hdecode c a
  rw [h, hdecode d b] at hc
  exact (Option.some.inj hc).symm

/-- A character whose bytes are among the first ones is the first character. -/
theorem exists_cons_of_take_bytes {limit : ℕ} {c : Char} {cs ds : List Char}
    (hfits : c.utf8Size ≤ limit)
    (h : ((c :: cs).flatMap utf8EncodeChar).take limit = (ds.flatMap utf8EncodeChar).take limit) :
    ∃ rest, ds = c :: rest := by
  have hlength : (utf8EncodeChar c).length = c.utf8Size := String.length_utf8EncodeChar c
  have hpos := c.utf8Size_pos
  cases ds with
  | nil =>
    rw [List.flatMap_nil, List.take_nil, List.take_eq_nil_iff, List.flatMap_cons,
      List.append_eq_nil_iff, ← List.length_eq_zero_iff] at h
    omega
  | cons d ds =>
    refine ⟨ds, congrArg (· :: ds) (Eq.symm ?_)⟩
    rw [List.flatMap_cons, List.take_append, List.take_of_length_le (by omega)] at h
    -- the bytes of both are the first ones, and then those that follow
    have hall := List.take_append_drop limit ((d :: ds).flatMap utf8EncodeChar)
    rw [← h, List.append_assoc, List.flatMap_cons] at hall
    exact eq_of_encodeChar_append hall

/-- Characters whose first bytes agree have the same front within these bytes. -/
theorem takeBytes_congr_bytes {limit : ℕ} {cs ds : List Char}
    (h : (cs.flatMap utf8EncodeChar).take (limit + 1) =
      (ds.flatMap utf8EncodeChar).take (limit + 1)) :
    takeBytes limit cs = takeBytes limit ds := by
  induction cs generalizing limit ds with
  | nil =>
    cases ds with
    | nil => rfl
    | cons d ds =>
      have hpos := d.utf8Size_pos
      rw [List.flatMap_nil, List.take_nil, eq_comm, List.take_eq_nil_iff, List.flatMap_cons,
        List.append_eq_nil_iff, ← List.length_eq_zero_iff, String.length_utf8EncodeChar] at h
      omega
  | cons c cs ih =>
    by_cases hfits : c.utf8Size ≤ limit
    · obtain ⟨ds, rfl⟩ := exists_cons_of_take_bytes (by omega) h
      have hlength : (utf8EncodeChar c).length = c.utf8Size := String.length_utf8EncodeChar c
      have hleft : limit + 1 - c.utf8Size = limit - c.utf8Size + 1 := by omega
      rw [List.flatMap_cons, List.flatMap_cons, List.take_append, List.take_append, hlength,
        hleft] at h
      rw [takeBytes, if_pos hfits, takeBytes, if_pos hfits, ih (List.append_cancel_left h)]
    · rw [takeBytes, if_neg hfits]
      cases ds with
      | nil => rfl
      | cons d ds =>
        have hlonger : ¬ d.utf8Size ≤ limit := by
          intro hd
          obtain ⟨_, heq⟩ := exists_cons_of_take_bytes (by omega) h.symm
          obtain rfl := (List.cons.inj heq).1
          exact hfits hd
        rw [takeBytes, if_neg hlonger]

theorem toList_extract_toUTF8 (n : ℕ) (s : String) :
    (s.toUTF8.extract 0 n).data.toList = (s.toList.flatMap utf8EncodeChar).take n := by
  rw [String.toUTF8_eq_toByteArray, ← String.utf8Encode_toList, List.utf8Encode,
    ByteArray.data_extract, Array.toList_extract, List.toList_data_toByteArray, List.extract,
    List.drop_zero, Nat.sub_zero]

theorem length_flatMap_encodeChar (cs : List Char) :
    (cs.flatMap utf8EncodeChar).length = utf8Len cs := by
  induction cs with
  | nil => rfl
  | cons c cs ih =>
    rw [List.flatMap_cons, List.length_append, String.length_utf8EncodeChar, ih,
      String.utf8Len_cons, Nat.add_comm]

/-- A bounded text depends only on one byte more than it may keep. -/
theorem BoundedText.ofChars_congr_bytes {limit : ℕ} {cs ds : List Char}
    (h : (cs.flatMap utf8EncodeChar).take (limit + 1) =
      (ds.flatMap utf8EncodeChar).take (limit + 1)) :
    ofChars limit cs = ofChars limit ds := by
  have hlength := congrArg List.length h
  rw [List.length_take, List.length_take, length_flatMap_encodeChar,
    length_flatMap_encodeChar] at hlength
  have hover : limit < utf8Len cs ↔ limit < utf8Len ds := by omega
  rw [ofChars, ofChars, takeBytes_congr_bytes h]
  simp only [hover]

namespace Value

/-! ## Clipped values -/

section

variable {α β : Type} {n : ℕ}

/-- The first elements of two lists in a row come from the first elements of both. -/
theorem take_append_congr {a b r s : List α} (hfirst : a.take n = b.take n)
    (hrest : r.take n = s.take n) : (a ++ r).take n = (b ++ s).take n := by
  have hboth : ∀ xs ys : List α, (xs ++ ys).take n = (xs.take n ++ ys.take n).take n := by
    intro xs ys
    rw [List.take_append, List.take_append, List.take_take, List.take_take, List.length_take,
      Nat.min_self]
    congr 2
    omega
  rw [hboth a r, hboth b s, hfirst, hrest]

theorem take_flatMap_congr {f g : β → List α} {xs : List β} (tail : List α)
    (h : ∀ x ∈ xs, (f x).take n = (g x).take n) :
    (xs.flatMap f ++ tail).take n = (xs.flatMap g ++ tail).take n := by
  induction xs with
  | nil => rfl
  | cons x xs ih =>
    obtain ⟨hx, hxs⟩ := List.forall_mem_cons.mp h
    rw [List.flatMap_cons, List.flatMap_cons, List.append_assoc, List.append_assoc]
    exact take_append_congr hx (ih hxs)

/-- Of lists that are not empty, so many are enough for the first elements of them all. -/
theorem take_flatMap_take {f : β → List α} (hf : ∀ x, f x ≠ []) {m : ℕ} (h : n ≤ m) (xs : List β)
    (tail : List α) : ((xs.take m).flatMap f ++ tail).take n = (xs.flatMap f ++ tail).take n := by
  induction xs generalizing n m with
  | nil => rw [List.take_nil]
  | cons x xs ih =>
    cases m with
    | zero => rw [Nat.le_zero.mp h, List.take_zero, List.take_zero]
    | succ m =>
      have hpos : 0 < (f x).length := List.length_pos_iff.mpr (hf x)
      have happend : ∀ rest, (f x ++ rest).take n = (f x).take n ++ rest.take (n - (f x).length) :=
        fun rest => List.take_append
      rw [List.take_succ_cons, List.flatMap_cons, List.flatMap_cons, List.append_assoc,
        List.append_assoc, happend, happend, ih (by omega)]

/-- Of texts in a row, so many are enough, and so much of each. -/
theorem take_separated_congr {f g : β → List Char} {xs : List β} (tail : List Char)
    (h : ∀ x ∈ xs, (f x).take n = (g x).take n) :
    (separated ((xs.take (n + 1)).map f) ++ tail).take n =
      (separated (xs.map g) ++ tail).take n := by
  cases xs with
  | nil => rfl
  | cons x rest =>
    obtain ⟨hx, hrest⟩ := List.forall_mem_cons.mp h
    have hcomma : ∀ y ∈ rest, (',' :: f y).take n = (',' :: g y).take n := fun y hy =>
      take_append_congr (a := [',']) rfl (hrest y hy)
    rw [List.take_succ_cons, List.map_cons, List.map_cons, separated, separated, List.flatMap_map,
      List.flatMap_map, List.append_assoc, List.append_assoc]
    refine take_append_congr hx ?_
    rw [take_flatMap_take (fun y => List.cons_ne_nil _ _) (le_refl n)]
    exact take_flatMap_congr tail hcomma

end

theorem toList_escapeChar_ne_nil (c : Char) : (escapeChar c).toList ≠ [] := by
  unfold escapeChar
  split
  case h_6 => split <;> simp
  all_goals decide

theorem take_quoted_clip {n m : ℕ} (h : n ≤ m) (s : String) :
    (quoted (clipString m s)).take n = (quoted s).take n := by
  have hchars := take_flatMap_take toList_escapeChar_ne_nil h s.toList ['"']
  rw [quoted, quoted, clipString, String.toList_ofList]
  exact take_append_congr (a := ['"']) rfl hchars

/-- A clipped value has a text with the same first characters. -/
theorem take_text_clip (n : ℕ) (v : Value) :
    (v.clip n).text.toList.take n = v.text.toList.take n := by
  induction v using members_induction generalizing n with
  | step v hitems hentries =>
    cases n with
    | zero => rw [List.take_zero, List.take_zero]
    | succ n =>
      cases v with
      | string s =>
        rw [clip, toList_text_string, toList_text_string]
        exact take_quoted_clip (le_refl (n + 1)) s
      | array items =>
        have hclip := take_separated_congr [']'] fun v hv => hitems items rfl v hv n
        have htake : (items.take (n + 1)).toList = items.toList.take (n + 1) := by simp
        rw [clip, toList_text_array, toList_text_array, List.take_succ_cons, List.take_succ_cons,
          ← hclip, Array.toList_map, htake, List.map_map]
        rfl
      | object entries =>
        have hclip : (separated ((entries.take (n + 1)).map fun entry =>
              entryChars (clipString (n + 1) entry.1, clip n entry.2)) ++ ['\x7d']).take n =
            (separated (entries.map entryChars) ++ ['\x7d']).take n :=
          take_separated_congr _ fun entry hentry =>
            take_append_congr (take_quoted_clip (Nat.le_succ n) entry.1)
              (take_append_congr (a := [':']) rfl (hentries entries rfl entry hentry n))
        rw [clip, toList_text_object, toList_text_object, List.take_succ_cons, List.take_succ_cons,
          ← hclip, List.map_map]
        rfl
      | _ => rfl

/-! ## Previews -/

/-- The longest front of a text that ends with a character and has so many bytes at most. -/
structure LongestFront (limit : ℕ) (s front : String) : Prop where
  isFront : front.toList <+: s.toList
  fits : front.utf8ByteSize ≤ limit
  longest : ∀ other : String, other.toList <+: s.toList → other.utf8ByteSize ≤ limit →
    other.toList <+: front.toList

/-- Both are strings, both arrays, both objects, or neither is any of these. -/
structure SameKind (v w : Value) : Prop where
  strings : v.string?.isSome = w.string?.isSome
  arrays : v.items?.isSome = w.items?.isSome
  objects : v.entries?.isSome = w.entries?.isSome

/-- The mark closes like the value. -/
theorem ellipsis_eq_ite (v : Value) : v.ellipsis =
    if v.string?.isSome then " ...\""
    else if v.items?.isSome then " ...]"
    else if v.entries?.isSome then " ...\x7d"
    else " ..." := by
  cases v <;> rfl

theorem SameKind.ellipsis_eq {v w : Value} (h : SameKind v w) : v.ellipsis = w.ellipsis := by
  rw [ellipsis_eq_ite, ellipsis_eq_ite, h.strings, h.arrays, h.objects]

/-- A bounded text as a preview shows it. -/
def shown (t : BoundedText) (v : Value) : String :=
  if t.overflowed || 1 < t.kept.utf8ByteSize then t.kept ++ v.ellipsis else t.kept

/-- The whole text, cut off, is what a preview shows. -/
theorem preview_eq (v : Value) :
    v.preview = shown (.ofChars previewWidth v.text.toList) v := by
  have hkept : (v.clip (previewWidth + 1)).write (BoundedText.put previewWidth) {} =
      .ofChars previewWidth v.text.toList := by
    rw [write_eq_foldl, BoundedText.foldl_put, join_pieces, ← BoundedText.ofChars_take,
      take_text_clip, BoundedText.ofChars_take]
  rw [preview, hkept, shown]

theorem longestFront_takeBytes (limit : ℕ) (s : String) :
    LongestFront limit s (String.ofList (takeBytes limit s.toList)) := by
  refine ⟨?_, ?_, fun other hother hfits => ?_⟩
  · rw [String.toList_ofList]
    exact takeBytes_prefix limit s.toList
  · rw [String.utf8ByteSize_ofList]
    exact utf8Len_takeBytes_le limit s.toList
  · rw [String.toList_ofList]
    exact prefix_takeBytes hother (by rwa [String.utf8Len_toList])

/-- A text of one byte is shown bare. -/
theorem preview_of_one {v : Value} (h : v.text.utf8ByteSize = 1) : v.preview = v.text := by
  have hfits : utf8Len v.text.toList ≤ previewWidth := by
    rw [String.utf8Len_toList, h]
    decide
  have hkept : takeBytes previewWidth v.text.toList = v.text.toList := takeBytes_of_le hfits
  rw [preview_eq, shown, BoundedText.ofChars, hkept, String.ofList_toList, h]
  exact if_neg (by simpa using hfits)

/-- Every other text is shown with the mark, whether or not something was cut off. -/
theorem preview_of_more {v : Value} (h : v.text.utf8ByteSize ≠ 1) :
    v.preview = String.ofList (takeBytes previewWidth v.text.toList) ++ v.ellipsis := by
  rw [preview_eq, shown, BoundedText.ofChars]
  refine if_pos ?_
  by_cases hover : previewWidth < utf8Len v.text.toList
  · rw [decide_eq_true hover, Bool.true_or]
  · -- the text has two bytes exactly
    have hkept := takeBytes_of_le (Nat.not_lt.mp hover)
    have hpos : v.text.utf8ByteSize ≠ 0 := fun hzero =>
      toList_text_ne_nil v (by rw [String.utf8ByteSize_eq_zero_iff.mp hzero]; rfl)
    have hmore : 1 < v.text.utf8ByteSize := by omega
    rw [hkept, String.ofList_toList, decide_eq_true hmore, Bool.or_true]

/-- Any pieces of the text give the preview, and none is missed after one that was cut. -/
theorem preview_of_pieces {v : Value} {written rest : List String}
    (hjoin : String.join (written ++ rest) = v.text)
    (hdone : rest = [] ∨ (written.foldl (BoundedText.put previewWidth) {}).overflowed = true) :
    v.preview = shown (written.foldl (BoundedText.put previewWidth) {}) v := by
  have hall : written.foldl (BoundedText.put previewWidth) {} =
      .ofChars previewWidth v.text.toList := by
    rw [← hjoin, ← BoundedText.foldl_put, List.foldl_append]
    obtain rfl | hover := hdone
    · rfl
    · exact (BoundedText.foldl_put_of_overflowed hover rest).symm
  rw [preview_eq, hall]

/-- One byte more than is shown decides the preview. -/
theorem preview_congr {v w : Value} (hkind : SameKind v w)
    (hbytes : v.text.toUTF8.extract 0 (previewWidth + 1) =
      w.text.toUTF8.extract 0 (previewWidth + 1)) : v.preview = w.preview := by
  have hfirst := congrArg (fun bytes => bytes.data.toList) hbytes
  rw [toList_extract_toUTF8, toList_extract_toUTF8] at hfirst
  rw [preview_eq, preview_eq, BoundedText.ofChars_congr_bytes hfirst, shown, shown,
    hkind.ellipsis_eq]

/-- The preview of a value is its text, cut: all of a text of one byte; else the longest front with
no more than two bytes, and a mark closed like the value. It is the same however the text is cut
into pieces, and whether or not pieces are still handed over after one had to be cut; no piece comes
when more is kept than there may be; and nothing past the first three bytes can be told from it. -/
theorem preview_cuts_text (v : Value) :
    (v.text.utf8ByteSize = 1 → v.preview = v.text) ∧
    (v.text.utf8ByteSize ≠ 1 → ∃ front, LongestFront 2 v.text front ∧
      v.preview = front ++ match v with
        | string _ => " ...\""
        | array _ => " ...]"
        | object _ => " ...\x7d"
        | _ => " ...") ∧
    (∀ written rest : List String, String.join (written ++ rest) = v.text →
      rest = [] ∨ (written.foldl (BoundedText.put 2) {}).overflowed = true →
      v.preview = shown (written.foldl (BoundedText.put 2) {}) v) ∧
    (∀ written : List String, (written.foldl (BoundedText.put 2) {}).kept.utf8ByteSize ≤ 2) ∧
    (∀ w, SameKind v w → v.text.toUTF8.extract 0 3 = w.text.toUTF8.extract 0 3 →
      v.preview = w.preview) := by
  refine ⟨preview_of_one, fun h => ?_, fun _ _ => preview_of_pieces, BoundedText.kept_le 2,
    fun _ => preview_congr⟩
  refine ⟨_, longestFront_takeBytes 2 v.text, ?_⟩
  rw [preview_of_more h]
  cases v <;> rfl

/-- The second byte of this text is in the middle of a character, and it comes in three pieces, of
which the last is never written. -/
theorem preview_cuts_text_straddling :
    (string "é").text.utf8ByteSize ≠ 1 ∧ (int 7).text.utf8ByteSize = 1 ∧
    (∃ front, LongestFront 2 (string "é").text front ∧
      (string "é").preview = front ++ " ...\"") ∧
    (string "é").preview = shown (["\"", "é"].foldl (BoundedText.put 2) {}) (string "é") ∧
    (string "é").preview = (string "ém").preview ∧
    (int 7).preview = (int 7).text := by
  obtain ⟨-, hcut, hpieces, -, hbytes⟩ := preview_cuts_text (string "é")
  refine ⟨by decide, by decide, hcut (by decide), ?_, ?_, (preview_cuts_text (int 7)).1 (by decide)⟩
  · exact hpieces ["\"", "é"] ["\""] (by decide) (.inr (by decide))
  · exact hbytes (string "ém") ⟨rfl, rfl, rfl⟩ (by decide)

end Value

end QueryMachine
