import Mathlib.Data.String.Basic
import QueryMachine.Proofs.NativeTables

/-!
# Well-formed values

The keys of an object ascend, so that there is one entry for each. `Value.WellFormed` says so of a
value and of all its members. Building an object makes a well-formed one out of any pairs, and what
is found in a well-formed value is well-formed itself; so are all answers of the core natives.
-/

namespace QueryMachine

/-- The keys of all objects in a value ascend. -/
inductive Value.WellFormed : Value → Prop where
  | null : WellFormed .null
  | bool (b : Bool) : WellFormed (.bool b)
  | int (n : Int64) : WellFormed (.int n)
  | float (x : Binary64) : WellFormed (.float x)
  | string (s : String) : WellFormed (.string s)
  | foreign (handle : Foreign) : WellFormed (.foreign handle)
  | array {items : Array Value} (h : ∀ v ∈ items, WellFormed v) : WellFormed (.array items)
  | object {entries : List (String × Value)} (hkeys : (entries.map (·.1)).Pairwise (· < ·))
      (h : ∀ entry ∈ entries, WellFormed entry.2) : WellFormed (.object entries)

namespace Value

variable {key : String} {v : Value} {entries : List (String × Value)}

/-! ## Objects -/

theorem mem_insertEntry {entry : String × Value} (hmem : entry ∈ insertEntry key v entries) :
    entry = (key, v) ∨ entry ∈ entries := by
  induction entries with
  | nil => exact .inl (List.mem_singleton.mp hmem)
  | cons first rest ih =>
    rw [insertEntry] at hmem
    split at hmem
    · exact List.mem_cons.mp hmem
    · split at hmem
      · rcases List.mem_cons.mp hmem with hnew | hold
        · exact .inl hnew
        · exact .inr (List.mem_cons_of_mem _ hold)
      · rcases List.mem_cons.mp hmem with hfirst | hrest
        · exact .inr (hfirst ▸ List.mem_cons_self)
        · rcases ih hrest with hnew | hold
          · exact .inl hnew
          · exact .inr (List.mem_cons_of_mem _ hold)

/-- Putting a pair into ascending entries keeps them ascending. -/
theorem ascending_insertEntry (key : String) (v : Value)
    (h : (entries.map (·.1)).Pairwise (· < ·)) :
    ((insertEntry key v entries).map (·.1)).Pairwise (· < ·) := by
  induction entries with
  | nil => exact List.pairwise_singleton _ _
  | cons first rest ih =>
    obtain ⟨k, w⟩ := first
    obtain ⟨hfirst, hrest⟩ := List.pairwise_cons.mp h
    rw [insertEntry]
    -- the pair goes before the first entry, takes its place, or goes further down
    split
    · rename_i hlt
      refine List.pairwise_cons.mpr ⟨?_, h⟩
      intro l hl
      rcases List.mem_cons.mp hl with rfl | hl
      · exact hlt
      · exact lt_trans hlt (hfirst l hl)
    · rename_i hnlt
      split
      · rename_i heq
        rw [heq]
        exact h
      · rename_i hne
        refine List.pairwise_cons.mpr ⟨?_, ih hrest⟩
        intro l hl
        obtain ⟨entry, hentry, rfl⟩ := List.mem_map.mp hl
        rcases mem_insertEntry hentry with rfl | hold
        · exact lt_of_le_of_ne (not_lt.mp hnlt) (Ne.symm hne)
        · exact hfirst entry.1 (List.mem_map_of_mem hold)

theorem wellFormed_ofEntries {pairs : List (String × Value)}
    (h : ∀ pair ∈ pairs, pair.2.WellFormed) : (ofEntries pairs).WellFormed := by
  -- the fold has put in some of the pairs already
  suffices h : ∀ entries : List (String × Value), WellFormed (.object entries) →
      WellFormed (.object (pairs.foldl (fun es pair => insertEntry pair.1 pair.2 es) entries)) from
    h [] (.object .nil fun entry hentry => by cases hentry)
  induction pairs with
  | nil => exact fun entries hentries => hentries
  | cons pair pairs ih =>
    intro entries hentries
    cases hentries with
    | object hkeys hvalues =>
      apply ih (fun pair' hpair' => h pair' (List.mem_cons_of_mem pair hpair')) _
      refine .object (ascending_insertEntry pair.1 pair.2 hkeys) ?_
      intro entry hentry
      rcases mem_insertEntry hentry with rfl | hold
      · exact h pair List.mem_cons_self
      · exact hvalues entry hold

/-- A pair whose key is the greatest is put in last. -/
theorem insertEntry_of_greatest (h : ∀ entry ∈ entries, entry.1 < key) :
    insertEntry key v entries = entries ++ [(key, v)] := by
  induction entries with
  | nil => rfl
  | cons first rest ih =>
    obtain ⟨hfirst, hrest⟩ := List.forall_mem_cons.mp h
    rw [insertEntry, if_neg (lt_asymm hfirst), if_neg (ne_of_gt hfirst), ih hrest,
      List.cons_append]

/-- Pairs that ascend already are the entries of their object. -/
theorem ofEntries_of_ascending (h : (entries.map (·.1)).Pairwise (· < ·)) :
    ofEntries entries = .object entries := by
  suffices hall : ∀ done, ((done ++ entries).map (·.1)).Pairwise (· < ·) →
      entries.foldl (fun es pair => insertEntry pair.1 pair.2 es) done = done ++ entries from
    congrArg Value.object (hall [] h)
  clear h
  induction entries with
  | nil => exact fun done _ => (List.append_nil done).symm
  | cons first rest ih =>
    intro done hdone
    -- the key of the first pair comes after all that are in
    have hlast : ∀ entry ∈ done, entry.1 < first.1 := by
      rw [List.map_append, List.pairwise_append] at hdone
      exact fun entry hentry =>
        hdone.2.2 entry.1 (List.mem_map_of_mem hentry) first.1 List.mem_cons_self
    rw [List.append_cons] at hdone ⊢
    rw [List.foldl_cons, insertEntry_of_greatest hlast]
    exact ih _ hdone

theorem mem_of_lookup (h : lookup key entries = some v) : (key, v) ∈ entries := by
  induction entries with
  | nil => cases h
  | cons first rest ih =>
    rw [lookup] at h
    split at h
    · rename_i heq
      obtain rfl := Option.some.inj h
      rw [← heq]
      exact List.mem_cons_self
    · exact List.mem_cons_of_mem first (ih h)

/-- In ascending entries every entry is found under its key. -/
theorem lookup_of_mem (hkeys : (entries.map (·.1)).Pairwise (· < ·)) (h : (key, v) ∈ entries) :
    lookup key entries = some v := by
  induction entries with
  | nil => cases h
  | cons first rest ih =>
    -- no later key is the one of the first entry
    obtain ⟨hfirst, hrest⟩ := List.pairwise_cons.mp hkeys
    rw [lookup]
    rcases List.mem_cons.mp h with rfl | hmem
    · rw [if_pos rfl]
    · have hlt := hfirst key (List.mem_map_of_mem hmem)
      rw [if_neg (ne_of_lt hlt)]
      exact ih hrest hmem

theorem lookup_isSome_iff (hkeys : (entries.map (·.1)).Pairwise (· < ·)) :
    (lookup key entries).isSome ↔ key ∈ entries.map (·.1) := by
  rw [Option.isSome_iff_exists, List.mem_map]
  constructor
  · rintro ⟨v, h⟩
    exact ⟨(key, v), mem_of_lookup h, rfl⟩
  · rintro ⟨⟨_, v⟩, hmem, rfl⟩
    exact ⟨v, lookup_of_mem hkeys hmem⟩

/-- A pair that is put in is found under its key, and every other key leads where it did. -/
theorem lookup_insertEntry (key other : String) (v : Value) (entries : List (String × Value)) :
    lookup other (insertEntry key v entries) =
      if key = other then some v else lookup other entries := by
  induction entries with
  | nil => rfl
  | cons first rest ih =>
    obtain ⟨k, w⟩ := first
    rw [insertEntry]
    split
    · rfl
    · split
      · rename_i heq
        rw [lookup, lookup, ← heq]
        split <;> rfl
      · rename_i hne
        rw [lookup, lookup, ih]
        by_cases hother : key = other
        · rw [if_pos hother, if_pos hother, if_neg fun hk => hne (hother.trans hk.symm)]
        · rw [if_neg hother, if_neg hother]

/-- Putting in pairs one after the other keeps the entries ascending. -/
theorem ascending_foldl (pairs : List (String × Value))
    (h : (entries.map (·.1)).Pairwise (· < ·)) :
    ((pairs.foldl (fun entries pair => insertEntry pair.1 pair.2 entries) entries).map
      (·.1)).Pairwise (· < ·) := by
  induction pairs generalizing entries with
  | nil => exact h
  | cons pair pairs ih => exact ih (ascending_insertEntry pair.1 pair.2 h)

/-- Of the pairs with a key the last one counts. -/
theorem lookup_foldl (key : String) (pairs entries : List (String × Value)) :
    lookup key (pairs.foldl (fun entries pair => insertEntry pair.1 pair.2 entries) entries) =
      ((pairs.reverse.find? (·.1 = key)).map (·.2)).or (lookup key entries) := by
  induction pairs generalizing entries with
  | nil => rfl
  | cons pair pairs ih =>
    rw [List.foldl_cons, ih, lookup_insertEntry, List.reverse_cons, List.find?_append,
      List.find?_singleton]
    by_cases hkey : pair.1 = key
    · cases pairs.reverse.find? (·.1 = key) <;> simp [hkey]
    · simp [hkey]

theorem WellFormed.lookup (h : WellFormed (.object entries)) (key : String) :
    ((Value.lookup key entries).getD .null).WellFormed := by
  cases h with
  | object hkeys hvalues =>
    cases hlookup : Value.lookup key entries with
    | none => exact .null
    | some v => exact hvalues (key, v) (mem_of_lookup hlookup)

/-! ## Arrays -/

theorem WellFormed.getD {items : Array Value} (h : WellFormed (.array items)) (i : Nat) :
    (items.getD i .null).WellFormed := by
  cases h with
  | array hitems =>
    rw [Array.getD_eq_getD_getElem?]
    cases hget : items[i]? with
    | none => exact .null
    | some v => exact hitems v (Array.mem_of_getElem? hget)

theorem WellFormed.push {items : Array Value} (h : WellFormed (.array items))
    (hv : v.WellFormed) : WellFormed (.array (items.push v)) := by
  cases h with
  | array hitems =>
    refine .array ?_
    intro w hw
    rcases Array.mem_push.mp hw with hold | rfl
    · exact hitems w hold
    · exact hv

/-! ## Navigation -/

theorem WellFormed.slice {subject start stop w : Value} (h : subject.WellFormed)
    (hw : Value.slice subject start stop = .ok w) : w.WellFormed := by
  unfold Value.slice at hw
  split at hw
  · obtain rfl := Except.ok.inj hw
    exact .null
  · split at hw
    · obtain rfl := Except.ok.inj hw
      cases h with
      | array hitems =>
        refine .array ?_
        intro v hv
        obtain ⟨i, hi, rfl⟩ := Array.mem_extract_iff_getElem.mp hv
        exact hitems _ (Array.getElem_mem _)
    · cases hw
  · dsimp only at hw
    split at hw
    · obtain rfl := Except.ok.inj hw
      exact .string _
    · cases hw
  · cases hw

theorem WellFormed.index {subject key w : Value} (h : subject.WellFormed)
    (hw : Value.index subject key = .ok w) : w.WellFormed := by
  unfold Value.index at hw
  split at hw
  · split at hw
    · obtain rfl := Except.ok.inj hw
      exact .null
    · cases hw
  · obtain rfl := Except.ok.inj hw
    exact h.lookup _
  · exact h.slice hw
  · split at hw
    · obtain rfl := Except.ok.inj hw
      unfold itemAt
      split
      · exact h.getD _
      · exact .null
    · cases hw
  · cases hw

/-- The entries that an iteration visits. -/
theorem WellFormed.keyed? {entries : List (Value × Value)} (h : v.WellFormed)
    (hv : v.keyed? = some entries) :
    ∀ entry ∈ entries, entry.1.WellFormed ∧ entry.2.WellFormed := by
  cases h with
  | array hitems =>
    obtain rfl := Option.some.inj hv
    intro entry hentry
    obtain ⟨i, hi, rfl⟩ := Array.mem_mapIdx.mp (Array.mem_toList_iff.mp hentry)
    refine ⟨?_, hitems _ (Array.getElem_mem hi)⟩
    unfold ofNat
    split
    · exact .int _
    · exact .float _
  | object hkeys hvalues =>
    obtain rfl := Option.some.inj hv
    intro entry hentry
    obtain ⟨e, he, rfl⟩ := List.mem_map.mp hentry
    exact ⟨.string _, hvalues e he⟩
  | _ => cases hv

end Value

/-! ## Natives -/

/-- From well-formed values a native function makes well-formed values, also where it fails. -/
def Native.KeepsForm (native : Native) : Prop :=
  ∀ input args, input.WellFormed → (∀ arg ∈ args, arg.WellFormed) →
    match native.run input args with
    | .ok v => v.WellFormed
    | .error failure => failure.caught.WellFormed

/-- All functions of a table do. -/
def NativeTable.KeepsForm (t : NativeTable) : Prop :=
  ∀ native ∈ t.entries, native.KeepsForm

theorem wellFormed_arg {args : List Value} (h : ∀ arg ∈ args, arg.WellFormed) (i : Nat) :
    (args.getD i .null).WellFormed := by
  rw [List.getD_eq_getElem?_getD]
  cases hget : args[i]? with
  | none => exact .null
  | some v => exact h v (List.mem_of_getElem? hget)

section

variable {subject key start stop : Value} {length : Nat} {failure : NativeFailure}

theorem caught_of_bound {v : Value} {default : Nat}
    (h : Value.bound v default length = .error failure) : failure.caught.WellFormed := by
  unfold Value.bound at h
  split at h
  · cases h
  · split at h
    · cases h
    · obtain rfl := Except.error.inj h
      exact .string _

theorem caught_of_bounds (h : Value.bounds start stop length = .error failure) :
    failure.caught.WellFormed := by
  unfold Value.bounds at h
  split at h
  · rename_i hstart
    obtain rfl := Except.error.inj h
    exact caught_of_bound hstart
  · split at h
    · rename_i hstop
      obtain rfl := Except.error.inj h
      exact caught_of_bound hstop
    · cases h

theorem caught_of_slice (h : Value.slice subject start stop = .error failure) :
    failure.caught.WellFormed := by
  unfold Value.slice at h
  split at h
  · cases h
  · split at h
    · cases h
    · rename_i hbounds
      obtain rfl := Except.error.inj h
      exact caught_of_bounds hbounds
  · dsimp only at h
    split at h
    · cases h
    · rename_i hbounds
      obtain rfl := Except.error.inj h
      exact caught_of_bounds hbounds
  · obtain rfl := Except.error.inj h
    exact .string _

theorem caught_of_index (h : Value.index subject key = .error failure) :
    failure.caught.WellFormed := by
  unfold Value.index at h
  split at h
  · split at h
    · cases h
    · obtain rfl := Except.error.inj h
      exact .string _
  · cases h
  · exact caught_of_slice h
  · split at h
    · cases h
    · obtain rfl := Except.error.inj h
      exact .string _
  · obtain rfl := Except.error.inj h
    exact .string _

end

theorem Native.keepsForm_index : Native.index.KeepsForm := by
  intro input args _ hargs
  dsimp only [Native.index]
  split
  · rename_i v hv
    exact (wellFormed_arg hargs 0).index hv
  · rename_i failure hfailure
    exact caught_of_index hfailure

theorem Native.keepsForm_slice : Native.slice.KeepsForm := by
  intro input args _ hargs
  dsimp only [Native.slice]
  split
  · rename_i v hv
    exact (wellFormed_arg hargs 0).slice hv
  · rename_i failure hfailure
    exact caught_of_slice hfailure

theorem Native.keepsForm_leave : Native.leave.KeepsForm := by
  intro input args _ _
  dsimp only [Native.leave]
  cases args.getD 0 .null <;> exact .string _

/-- The core natives make well-formed values from well-formed values. -/
theorem keepsForm_core : NativeTable.core.KeepsForm := by
  intro native hnative
  have hcore := NativeTable.mem_core hnative
  simp only [Native.core, List.mem_cons, List.not_mem_nil, or_false] at hcore
  rcases hcore with rfl | rfl | rfl | rfl | rfl
  · exact Native.keepsForm_index
  · exact Native.keepsForm_slice
  · exact fun input args _ hargs => wellFormed_arg hargs 0
  · exact Native.keepsForm_leave
  · exact fun input args _ _ => .string _

end QueryMachine
