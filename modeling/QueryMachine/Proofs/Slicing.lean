import Mathlib.Data.Rat.Floor
import Mathlib.Algebra.Order.Field.Power
import Mathlib.Tactic.FieldSimp
import Mathlib.Tactic.NormNum
import Mathlib.Tactic.Ring
import QueryMachine.Proofs.Navigation

/-!
# Slices by position

A slice holds the parts of its subject, the items of an array or the characters of a string, whose
positions lie between two bounds. What a bound stands for is said here without the machine's words:

* `Binary64.toRat` is the exact value of a floating-point number, and `Binary64.floor?` its floor;
* an `Ordinal` is a number that can stand for a position, and `counted` the position it stands for,
  from the end when it is negative;
* `bracket` is the position of a bound, which is null or such a number, cut off at both ends;
* `between` picks the parts by their positions.

No subject has more parts than a 64-bit integer can count. Then the sums that count from the end are
exact (`toInt_place`), both bounds lie within the subject (`bounds_eq`), and a slice is what
`between` picks (`slice_array`, `slice_string`).
-/

namespace QueryMachine

/-! ## The value of a floating-point number -/

namespace Binary64

/-- The magnitude that the exponent and the fraction encode: with an exponent field of zero there is
no leading one. -/
def magnitude (x : Binary64) : ℚ :=
  if x.exponentField = 0 then 2 ^ (-1022 : ℤ) * (x.fractionField / 2 ^ 52)
  else 2 ^ ((x.exponentField : ℤ) - 1023) * (1 + x.fractionField / 2 ^ 52)

/-- The exact value of a finite number. -/
def toRat (x : Binary64) : ℚ :=
  if x.isNegative then -x.magnitude else x.magnitude

theorem magnitude_eq (x : Binary64) : x.magnitude = x.significand * 2 ^ x.exponent := by
  have hplaces : (2 : ℚ) ^ (-52 : ℤ) = 1 / 2 ^ 52 := by norm_num
  rw [magnitude, significand, exponent]
  split
  · rename_i hzero
    have hexp : ((max x.exponentField 1 : ℕ) : ℤ) - 1075 = -1022 + -52 := by omega
    rw [hexp, zpow_add₀ two_ne_zero, hplaces]
    generalize (2 : ℚ) ^ (-1022 : ℤ) = base
    ring
  · rename_i hnonzero
    have hexp : ((max x.exponentField 1 : ℕ) : ℤ) - 1075 = (x.exponentField - 1023) + -52 := by
      omega
    rw [hexp, zpow_add₀ two_ne_zero, hplaces, Nat.pow_eq]
    generalize (2 : ℚ) ^ ((x.exponentField : ℤ) - 1023) = base
    push_cast
    ring

/-- Rounding down a finite number gives the greatest integer that is not above it. -/
theorem floor?_eq {x : Binary64} (h : x.isFinite = true) : x.floor? = some ⌊x.toRat⌋ := by
  rw [toRat, magnitude_eq]
  cases hexp : x.exponent with
  | ofNat up =>
    have hvalue : (x.significand : ℚ) * 2 ^ (Int.ofNat up) =
        ((x.significand * Nat.pow 2 up : ℤ) : ℚ) := by
      rw [Int.ofNat_eq_natCast, zpow_natCast, Nat.pow_eq]
      push_cast
      rfl
    simp only [floor?, if_pos h, hexp, hvalue]
    split
    · rw [← Int.cast_neg, Int.floor_intCast]
    · rw [Int.floor_intCast]
  | negSucc down =>
    have hvalue : (x.significand : ℚ) * 2 ^ (Int.negSucc down) =
        ((x.significand : ℤ) : ℚ) / ((Nat.pow 2 (down + 1) : ℕ) : ℚ) := by
      rw [zpow_negSucc, Nat.pow_eq, div_eq_mul_inv]
      push_cast
      rfl
    simp only [floor?, if_pos h, hexp, hvalue,
      Int.fdiv_eq_ediv_of_nonneg _ (Int.natCast_nonneg (Nat.pow 2 (down + 1)))]
    split
    · rw [← neg_div, ← Int.cast_neg, Rat.floor_intCast_div_natCast]
    · rw [Rat.floor_intCast_div_natCast]

end Binary64

/-! ## Positions -/

/-- A number that can stand for a position: an integer, or a finite floating-point number. -/
inductive Ordinal where
  | int (n : Int64)
  | float (x : Binary64) (finite : x.isFinite = true)

namespace Ordinal

/-- The number as a value. -/
def value : Ordinal → Value
  | int n => .int n
  | float x _ => .float x

/-- The integer that the number counts as: the floor, cut off at the ends of the 64-bit range. -/
def number : Ordinal → ℤ
  | int n => n.toInt
  | float x _ => max (-2 ^ 63) (min (2 ^ 63 - 1) ⌊x.toRat⌋)

/-- The position that the number stands for among `n`, which may lie outside. -/
def counted (k : Ordinal) (n : ℕ) : ℤ :=
  if k.number < 0 then k.number + n else k.number

end Ordinal

/-- A slice bound as a value: null when there is none. -/
def boundValue (b : Option Ordinal) : Value :=
  b.elim .null Ordinal.value

/-- The position of a slice bound among `n`, cut off at both ends; `default` when there is none. -/
def bracket (b : Option Ordinal) (default n : ℕ) : ℤ :=
  b.elim (default : ℤ) fun k => max 0 (min n (k.counted n))

/-- The elements whose positions are at least `first` and below `last`, in order. -/
def between {α : Type} (xs : List α) (first last : ℤ) : List α :=
  (xs.zipIdx.filter fun entry => first ≤ entry.2 ∧ entry.2 < last).map (·.1)

theorem between_eq {α : Type} (xs : List α) (first last : ℕ) :
    between xs first last = (xs.drop first).take (last - first) := by
  -- the positions may start anywhere
  suffices h : ∀ offset : ℕ,
      ((xs.zipIdx offset).filter fun entry => (first : ℤ) ≤ entry.2 ∧ (entry.2 : ℤ) < last).map
        (·.1) = (xs.drop (first - offset)).take (last - max first offset) by
    rw [between, h 0, Nat.sub_zero, Nat.max_zero]
  induction xs with
  | nil => simp
  | cons x xs ih =>
    intro offset
    have ih := ih (offset + 1)
    rw [List.zipIdx_cons, List.filter_cons]
    by_cases hfirst : first ≤ offset
    · have hdrop : first - offset = 0 := Nat.sub_eq_zero_of_le hfirst
      have hdrop' : first - (offset + 1) = 0 := by omega
      rw [hdrop', Nat.max_eq_right (Nat.le_succ_of_le hfirst)] at ih
      rw [hdrop, Nat.max_eq_right hfirst]
      by_cases hlast : offset < last
      · have htake : last - offset = (last - (offset + 1)) + 1 := by omega
        rw [if_pos (by simp [hfirst, hlast]), List.map_cons, ih, htake, List.drop_zero,
          List.drop_zero, List.take_succ_cons]
      · have htake : last - offset = 0 := by omega
        have htake' : last - (offset + 1) = 0 := by omega
        rw [if_neg (by simp [hlast]), ih, htake, htake', List.take_zero, List.take_zero]
    · have hdrop : first - offset = (first - (offset + 1)) + 1 := by omega
      rw [Nat.max_eq_left (by omega)] at ih
      rw [if_neg (by simp [hfirst]), ih, hdrop, List.drop_succ_cons,
        Nat.max_eq_left (Nat.le_of_not_le hfirst)]

namespace Value

variable {n : ℕ}

/-- Counting from the end does not leave the 64-bit range. -/
theorem toInt_place (index : Int64) (hn : n < 2 ^ 63) :
    (place index n).toInt = if index.toInt < 0 then index.toInt + n else index.toInt := by
  have hle := index.le_toInt
  have hsign : index < 0 ↔ index.toInt < 0 := Int64.lt_iff_toInt_lt
  rw [place]
  by_cases hneg : index.toInt < 0
  · rw [if_pos (hsign.mpr hneg), if_pos hneg, Int64.toInt_add, Int64.toInt_ofNat_of_lt hn]
    apply Int.bmod_eq_of_le <;> omega
  · rw [if_neg (mt hsign.mp hneg), if_neg hneg]

theorem toInt_saturate (n : ℤ) : (saturate n).toInt = max (-2 ^ 63) (min (2 ^ 63 - 1) n) := by
  rw [saturate, Int64.toInt_minValue, Int64.toInt_maxValue]
  split
  · rw [Int64.toInt_minValue]
    omega
  · split
    · rw [Int64.toInt_maxValue]
      omega
    · rw [Int64.toInt_ofInt_of_le (by omega) (by omega)]
      omega

/-- The integral view of an ordinal is the integer that it counts as. -/
theorem exists_index?_ordinal (k : Ordinal) :
    ∃ index : Int64, k.value.index? = some index ∧ index.toInt = k.number := by
  cases k with
  | int n => exact ⟨n, rfl, rfl⟩
  | float x hfinite =>
    refine ⟨saturate ⌊x.toRat⌋, ?_, toInt_saturate _⟩
    rw [Ordinal.value, index?, Binary64.floor?_eq hfinite, Option.map_some]

theorem toInt_place_ordinal {k : Ordinal} {index : Int64} (h : index.toInt = k.number)
    (hn : n < 2 ^ 63) : (place index n).toInt = k.counted n := by
  rw [toInt_place index hn, h]
  rfl

theorem bracket_mem (b : Option Ordinal) {default : ℕ} (h : default ≤ n) :
    0 ≤ bracket b default n ∧ bracket b default n ≤ n := by
  cases b with
  | none => exact ⟨Int.natCast_nonneg _, Int.ofNat_le.mpr h⟩
  | some k =>
    have hbracket : bracket (some k) default n = max 0 (min (n : ℤ) (k.counted n)) := rfl
    omega

theorem bound_eq (b : Option Ordinal) (default : ℕ) (hn : n < 2 ^ 63) :
    bound (boundValue b) default n = .ok (bracket b default n).toNat := by
  cases b with
  | none => rfl
  | some k =>
    obtain ⟨index, hindex, hnumber⟩ := exists_index?_ordinal k
    have hcutoff : cutoff index n = (bracket (some k) default n).toNat := by
      have hbracket : bracket (some k) default n = max 0 (min (n : ℤ) (k.counted n)) := rfl
      have hplace := toInt_place_ordinal hnumber hn
      rw [cutoff, ← Int64.toNat_toInt, hplace, hbracket]
      omega
    rw [← hcutoff]
    show bound k.value default n = _
    cases k with
    | int n =>
      obtain rfl := Option.some.inj hindex
      rfl
    | float x hfinite =>
      rw [Ordinal.value] at hindex ⊢
      simp only [bound, hindex]

theorem bounds_eq (start stop : Option Ordinal) (hn : n < 2 ^ 63) :
    bounds (boundValue start) (boundValue stop) n =
      .ok ((bracket start 0 n).toNat, (bracket stop n n).toNat) := by
  rw [bounds, bound_eq start 0 hn]
  dsimp only
  rw [bound_eq stop n hn]

/-! ## Slices -/

/-- How a subject slices that consists of `parts`; `make` builds a value of its kind from parts. -/
structure SlicedByPosition {α : Type} (subject : Value) (parts : List α)
    (make : List α → Value) : Prop where
  /-- The 64-bit sums that count from the end are exact. -/
  exact : ∀ index : Int64, (place index parts.length).toInt =
    if index.toInt < 0 then index.toInt + parts.length else index.toInt
  /-- Both bounds lie within the subject. -/
  inside : ∀ start stop, ∃ first last,
    bounds (boundValue start) (boundValue stop) parts.length = .ok (first, last) ∧
      first ≤ parts.length ∧ last ≤ parts.length
  /-- A slice holds the parts whose positions lie between its bounds. -/
  range : ∀ start stop, slice subject (boundValue start) (boundValue stop) =
    .ok (make (between parts (bracket start 0 parts.length)
      (bracket stop parts.length parts.length)))
  /-- What comes before a position and what comes after it make the whole. -/
  halves : ∀ k : Ordinal, ∃ front back, slice subject .null k.value = .ok (make front) ∧
    slice subject k.value .null = .ok (make back) ∧ front ++ back = parts

section

variable {α : Type} {subject : Value} {parts : List α} {make : List α → Value}

/-- The positions of a bound, as natural numbers. -/
theorem exists_bracket (b : Option Ordinal) {default : ℕ} (h : default ≤ n) :
    ∃ p : ℕ, bracket b default n = p ∧ p ≤ n := by
  obtain ⟨hpos, hle⟩ := bracket_mem b h
  obtain ⟨p, hp⟩ := Int.eq_ofNat_of_zero_le hpos
  exact ⟨p, hp, by omega⟩

/-- It is enough that the range is right for bounds that lie within the subject. -/
theorem slicedByPosition (hlength : parts.length < 2 ^ 63)
    (h : ∀ {start stop : Value} {first last : ℕ},
      bounds start stop parts.length = .ok (first, last) →
        slice subject start stop = .ok (make ((parts.drop first).take (last - first)))) :
    SlicedByPosition subject parts make := by
  have hrange : ∀ start stop, slice subject (boundValue start) (boundValue stop) =
      .ok (make (between parts (bracket start 0 parts.length)
        (bracket stop parts.length parts.length))) := by
    intro start stop
    obtain ⟨first, hfirst, -⟩ := exists_bracket start (Nat.zero_le parts.length)
    obtain ⟨last, hlast, -⟩ := exists_bracket stop (le_refl parts.length)
    have hbounds := bounds_eq start stop hlength
    rw [hfirst, hlast] at hbounds ⊢
    rw [h hbounds, between_eq, Int.toNat_natCast, Int.toNat_natCast]
  refine ⟨fun index => toInt_place index hlength, fun start stop => ?_, hrange, fun k => ?_⟩
  · obtain ⟨first, hfirst, hfirst'⟩ := exists_bracket start (Nat.zero_le parts.length)
    obtain ⟨last, hlast, hlast'⟩ := exists_bracket stop (le_refl parts.length)
    refine ⟨first, last, ?_, hfirst', hlast'⟩
    rw [bounds_eq start stop hlength, hfirst, hlast, Int.toNat_natCast, Int.toNat_natCast]
  · obtain ⟨p, hp, hle⟩ := exists_bracket (some k) (Nat.zero_le parts.length)
    refine ⟨parts.take p, parts.drop p, ?_, ?_, List.take_append_drop p parts⟩
    · have hfront := hrange none (some k)
      have hstart : bracket none 0 parts.length = (0 : ℕ) := rfl
      have hstop : bracket (some k) parts.length parts.length = p := hp
      rw [hstart, hstop, between_eq, List.drop_zero, Nat.sub_zero] at hfront
      exact hfront
    · have hback := hrange (some k) none
      have hstop : bracket none parts.length parts.length = (parts.length : ℕ) := rfl
      rw [hp, hstop, between_eq, ← List.length_drop, List.take_length] at hback
      exact hback

end

variable {items : Array Value}

theorem slice_array (h : items.size < 2 ^ 63) :
    SlicedByPosition (.array items) items.toList fun part => .array part.toArray := by
  refine slicedByPosition h fun {start stop first last} hbounds => ?_
  rw [Array.length_toList] at hbounds
  simp only [slice, hbounds]
  rw [← List.extract_eq_take_drop, ← Array.toList_extract]

theorem slice_string {s : String} (h : s.length < 2 ^ 63) :
    SlicedByPosition (.string s) s.toList fun part => .string (String.ofList part) := by
  refine slicedByPosition (String.length_toList ▸ h) fun {start stop first last} hbounds => ?_
  simp only [slice, hbounds]
  rfl

/-! ## Items -/

/-- How an array is indexed, and how its slices are. -/
structure IndexedByPosition (items : Array Value) : Prop where
  /-- An index finds the item at the position it stands for, or null outside. -/
  item : ∀ k : Ordinal, index (.array items) k.value =
    .ok (if h : 0 ≤ k.counted items.size ∧ k.counted items.size < items.size then
      items[(k.counted items.size).toNat] else .null)
  /-- An item of a slice is the item of the array that lies as far behind the first bound. -/
  shifted : ∀ start stop part,
    slice (.array items) (boundValue start) (boundValue stop) = .ok (.array part) →
      ∀ i : ℕ, i < part.size → index (.array part) (.int (Int64.ofNat i)) =
        index (.array items) (.int (Int64.ofInt (bracket start 0 items.size + i)))

theorem index_ordinal (k : Ordinal) (h : items.size < 2 ^ 63) :
    index (.array items) k.value =
      .ok (if h : 0 ≤ k.counted items.size ∧ k.counted items.size < items.size then
        items[(k.counted items.size).toNat] else .null) := by
  obtain ⟨place, hplace, hnumber⟩ := exists_index?_ordinal k
  have hitem : index (.array items) k.value = .ok (itemAt items place) := by
    cases k <;> simp only [Ordinal.value] at hplace ⊢ <;> simp only [index, hplace]
  have hcounted := toInt_place_ordinal hnumber h
  have hpos : 0 ≤ Value.place place items.size ↔ 0 ≤ k.counted items.size := by
    rw [Int64.le_iff_toInt_le, hcounted, Int64.toInt_zero]
  rw [hitem, itemAt, position?, ← Int64.toNat_toInt, hcounted]
  by_cases hinside : 0 ≤ k.counted items.size
  · rw [if_pos (hpos.mpr hinside)]
    dsimp only
    split
    · rename_i hlt
      rw [Array.getD_eq_getD_getElem?, Array.getElem?_eq_getElem (by omega), Option.getD_some]
    · rw [Array.getD_eq_getD_getElem?, Array.getElem?_eq_none (by omega), Option.getD_none]
  · rw [if_neg (mt hpos.mp hinside), dif_neg fun hand => hinside hand.1]

/-- The index of a position inside an array finds the item there. -/
theorem index_inside {i : ℕ} (hi : i < items.size) (h : items.size < 2 ^ 63) :
    index (.array items) (.int (Int64.ofNat i)) = .ok items[i] := by
  have hindex := index_ofNat hi h.le
  rwa [ofNat, if_pos (show i < Nat.pow 2 63 from hi.trans h)] at hindex

theorem indexedByPosition (h : items.size < 2 ^ 63) : IndexedByPosition items := by
  refine ⟨fun k => index_ordinal k h, fun start stop part hpart i hi => ?_⟩
  obtain ⟨first, hfirst, -⟩ := exists_bracket start (Nat.zero_le items.size)
  obtain ⟨last, hlast, hle⟩ := exists_bracket stop (le_refl items.size)
  have hslice := (slice_array h).range start stop
  rw [Array.length_toList, hfirst, hlast, between_eq, ← List.extract_eq_take_drop,
    ← Array.toList_extract, hpart] at hslice
  obtain rfl : part = items.extract first last := Value.array.inj (Except.ok.inj hslice)
  have hsize : i < min last items.size - first := by rwa [Array.size_extract] at hi
  have hshift : Int64.ofInt (bracket start 0 items.size + i) = Int64.ofNat (first + i) := by
    rw [hfirst]
    rfl
  rw [hshift, index_inside hi (by rw [Array.size_extract]; omega), index_inside (by omega) h,
    Array.getElem_extract]

/-- Slices and indices go by position: an array or a string of no more parts than a 64-bit integer
counts gives for all bounds the parts between them, and an array for every index the item there. -/
theorem slices_by_position :
    (∀ items : Array Value, items.size < 2 ^ 63 →
      SlicedByPosition (.array items) items.toList (fun part => .array part.toArray) ∧
        IndexedByPosition items) ∧
    ∀ s : String, s.length < 2 ^ 63 →
      SlicedByPosition (.string s) s.toList fun part => .string (String.ofList part) :=
  ⟨fun _ h => ⟨slice_array h, indexedByPosition h⟩, fun _ h => slice_string h⟩

/-- The slice from the third item from the end up to the position 2.5, which is 2, and the one from
the least integer up to the last character. -/
theorem slices_by_position_fromEnd :
    (#[.int 10, .int 20, .int 30, .int 40] : Array Value).size < 2 ^ 63 ∧
      "wörter".length < 2 ^ 63 ∧
      slice (.array #[.int 10, .int 20, .int 30, .int 40]) (.int (-3))
        (.float ⟨0x4004000000000000⟩) = .ok (.array #[.int 20]) ∧
      slice (.string "wörter") (.int Int64.minValue) (.int (-1)) = .ok (.string "wörte") := by
  have hsize : (#[.int 10, .int 20, .int 30, .int 40] : Array Value).size < 2 ^ 63 := by decide
  have hlength : "wörter".length < 2 ^ 63 := by decide
  refine ⟨hsize, hlength, ?_, ?_⟩
  · have hfirst : bracket (some (.int (-3))) 0 4 = (1 : ℕ) := by decide
    have hlast : bracket (some (.float ⟨0x4004000000000000⟩ rfl)) 4 4 = (2 : ℕ) := by
      decide +kernel
    have hslice := (slices_by_position.1 _ hsize).1.range (some (.int (-3)))
      (some (.float ⟨0x4004000000000000⟩ rfl))
    dsimp only [List.length_cons, List.length_nil] at hslice
    rw [hfirst, hlast, between_eq] at hslice
    exact hslice
  · have hfirst : bracket (some (.int Int64.minValue)) 0 6 = (0 : ℕ) := by decide
    have hlast : bracket (some (.int (-1))) 6 6 = (5 : ℕ) := by decide
    have hslice := (slices_by_position.2 _ hlength).range (some (.int Int64.minValue))
      (some (.int (-1)))
    rw [String.length_toList, show "wörter".length = 6 by decide, hfirst, hlast,
      between_eq] at hslice
    exact hslice

end Value
end QueryMachine
