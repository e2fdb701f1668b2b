import QueryMachine.Proofs.Navigation

/-!
# Values that equal themselves

Equality on values is reflexive but for a NaN: a value equals itself exactly when no NaN occurs
anywhere inside it (`Value.equal_self_iff`). Navigation makes no NaN of its own, so whatever is
found in a value without one equals itself as well.
-/

namespace QueryMachine

theorem Binary64.equal_self (x : Binary64) : x.equal x = !x.isNaN := by
  simp [Binary64.equal]

namespace Value

/-- A NaN occurs somewhere in the value. -/
inductive HasNaN : Value → Prop where
  | float {x : Binary64} (h : x.isNaN = true) : HasNaN (.float x)
  | item {items : Array Value} {v : Value} (hmem : v ∈ items) (h : HasNaN v) :
      HasNaN (.array items)
  | entry {entries : List (String × Value)} {entry : String × Value} (hmem : entry ∈ entries)
      (h : HasNaN entry.2) : HasNaN (.object entries)

/-- A value equals itself exactly when there is no NaN in it. -/
theorem equal_self_iff {v : Value} : v.equal v = true ↔ ¬ v.HasNaN := by
  induction v using members_induction with
  | step v hitems hentries =>
    cases v with
    | float x =>
      rw [equal, Binary64.equal_self, Bool.not_eq_true']
      constructor
      · rintro hx ⟨hnan⟩
        rw [hx] at hnan
        cases hnan
      · exact fun hx => Bool.eq_false_iff.mpr fun hnan => hx (.float hnan)
    | array items =>
      rw [equal_array_iff, List.forall₂_same]
      constructor
      · rintro hself (_ | ⟨hmem, hnan⟩)
        have hmem' := Array.mem_toList_iff.mpr hmem
        exact (hitems items rfl _ hmem').mp (hself _ hmem') hnan
      · intro hfree w hw
        exact (hitems items rfl w hw).mpr fun hnan =>
          hfree (.item (Array.mem_toList_iff.mp hw) hnan)
    | object entries =>
      rw [equal_object_iff, List.forall₂_same]
      constructor
      · rintro hself (_ | _ | ⟨hmem, hnan⟩)
        exact (hentries entries rfl _ hmem).mp (hself _ hmem).2 hnan
      · intro hfree e he
        exact ⟨rfl, (hentries entries rfl e he).mpr fun hnan => hfree (.entry he hnan)⟩
    | null | bool | int | string | foreign =>
      refine iff_of_true (by simp [equal]) ?_
      rintro ⟨⟩

theorem HasNaN.equal_self {v : Value} (h : v.HasNaN) : v.equal v = false :=
  Bool.eq_false_iff.mpr fun hself => equal_self_iff.mp hself h

/-! ## Navigation -/

section

variable {subject key start stop w : Value}

theorem HasNaN.of_slice (h : slice subject start stop = .ok w) (hw : w.HasNaN) :
    subject.HasNaN := by
  unfold slice at h
  split at h
  · rwa [Except.ok.inj h]
  · split at h
    · obtain rfl := Except.ok.inj h
      obtain _ | ⟨hmem, hnan⟩ := hw
      obtain ⟨i, hi, rfl⟩ := Array.mem_extract_iff_getElem.mp hmem
      exact .item (Array.getElem_mem _) hnan
    · cases h
  · dsimp only at h
    split at h
    · obtain rfl := Except.ok.inj h
      cases hw
    · cases h
  · cases h

theorem HasNaN.of_index (h : index subject key = .ok w) (hw : w.HasNaN) : subject.HasNaN := by
  unfold index at h
  split at h
  · split at h
    · rwa [Except.ok.inj h]
    · cases h
  · rename_i entries name
    obtain rfl := Except.ok.inj h
    cases hfound : lookup name entries with
    | none =>
      rw [hfound] at hw
      cases hw
    | some v =>
      rw [hfound] at hw
      exact .entry (mem_of_lookup hfound) hw
  · exact hw.of_slice h
  · split at h
    · rename_i items _ _ place _
      obtain rfl := Except.ok.inj h
      -- an item outside of the array reads as null
      unfold itemAt at hw
      split at hw
      · rename_i i _
        rw [Array.getD_eq_getD_getElem?] at hw
        cases hget : items[i]? with
        | none =>
          rw [hget] at hw
          cases hw
        | some v =>
          rw [hget] at hw
          exact .item (Array.mem_of_getElem? hget) hw
      · cases hw
    · cases h
  · cases h

theorem HasNaN.of_keyed? {v : Value} {entries : List (Value × Value)}
    (h : v.keyed? = some entries) {entry : Value × Value} (hmem : entry ∈ entries)
    (hnan : entry.2.HasNaN) : v.HasNaN := by
  cases v with
  | array items =>
    obtain rfl := Option.some.inj h
    obtain ⟨i, hi, rfl⟩ := Array.mem_mapIdx.mp (Array.mem_toList_iff.mp hmem)
    exact .item (Array.getElem_mem hi) hnan
  | object pairs =>
    obtain rfl := Option.some.inj h
    obtain ⟨e, he, rfl⟩ := List.mem_map.mp hmem
    exact .entry he hnan
  | _ => cases h

end

end Value
end QueryMachine
