import Mathlib.Order.Lattice
import Mathlib.Tactic.Common
import QueryMachine.Native.Core

/-!
# Tables of natives

A table has two parts that a registration writes one after the other: the functions by number and
the numbers by name.

* `Agrees`: the parts say the same. Every registration keeps that, for it adds to both under one
  number, and only if the name is new;
* `Holds`: the table is what a list of registrations comes to. It has an entry for every name, in
  the order in which the names came first, and the entry is the function that came first;
* `Holds.idOf?_eq_some_iff`: as long as the numbers suffice, the lookups by name and by number undo
  each other. Beyond that the number of a new name is one that is taken;
* `Holds.get?_append`: what a number stands for does not change, whatever is registered later.
-/

namespace QueryMachine
namespace NativeTable

variable {t t' : NativeTable} {natives more : List Native} {native : Native} {name : String}
  {id : NativeId}

/-! ## Registration -/

theorem register_known (h : t.idOf? native.name = some id) : t.register native = (t, id) := by
  rw [register, h]

theorem entries_register_new (h : t.idOf? native.name = none) :
    (t.register native).1.entries = t.entries.push native := by
  rw [register, h]

theorem idOf?_register_new (h : t.idOf? native.name = none) (name : String) :
    (t.register native).1.idOf? name =
      if name = native.name then some (UInt16.ofNat t.entries.size) else t.idOf? name := by
  rw [register, h, idOf?, List.lookup_cons]
  by_cases hname : name = native.name
  · simp [hname]
  · have hne : (name == native.name) = false := beq_eq_false_iff_ne.mpr hname
    rw [hne, if_neg hname, idOf?]

/-! ## The two parts agree -/

/-- The numbers by name are those of the functions by number. -/
structure Agrees (t : NativeTable) : Prop where
  /-- The name of every function is found, with the number of its place. -/
  numbered : ∀ {k native}, t.entries[k]? = some native →
    t.idOf? native.name = some (UInt16.ofNat k)
  /-- Every name that is found is the one of a function in the place of its number. -/
  entered : ∀ {name id}, t.idOf? name = some id →
    ∃ k native, t.entries[k]? = some native ∧ native.name = name ∧ id = UInt16.ofNat k

theorem agrees_empty : Agrees {} := ⟨nofun, nofun⟩

/-- A registration adds to both parts or to neither. -/
theorem Agrees.register (h : t.Agrees) (native : Native) : (t.register native).1.Agrees := by
  cases hid : t.idOf? native.name with
  | some id =>
    rw [register_known hid]
    exact h
  | none =>
    have hentries := entries_register_new hid
    have hids := idOf?_register_new hid
    refine ⟨?_, ?_⟩
    · intro k entry hentry
      rw [hentries, Array.getElem?_push] at hentry
      rw [hids]
      split at hentry
      · -- the place of the new function
        rename_i hplace
        cases hentry
        rw [if_pos rfl, hplace]
      · -- the name of an old function is not the new one, which was not found
        have hold := h.numbered hentry
        have hne : entry.name ≠ native.name := by
          intro heq
          rw [heq, hid] at hold
          cases hold
        rw [if_neg hne, hold]
    · intro name id hfound
      rw [hids] at hfound
      split at hfound
      · rename_i hname
        cases hfound
        exact ⟨t.entries.size, native, by rw [hentries, Array.getElem?_push_size], hname.symm, rfl⟩
      · obtain ⟨k, entry, hentry, hname, hk⟩ := h.entered hfound
        have hlt : k < t.entries.size := (Array.getElem?_eq_some_iff.mp hentry).1
        exact ⟨k, entry, by rw [hentries, Array.getElem?_push, if_neg hlt.ne, hentry], hname, hk⟩

/-- A name is found exactly if there is a function of that name. -/
theorem Agrees.idOf?_eq_none_iff (h : t.Agrees) :
    t.idOf? name = none ↔ name ∉ t.entries.toList.map (·.name) := by
  constructor
  · intro hnone hmem
    obtain ⟨native, hnative, rfl⟩ := List.mem_map.mp hmem
    obtain ⟨k, hk⟩ := Array.mem_iff_getElem?.mp (Array.mem_toList_iff.mp hnative)
    rw [h.numbered hk] at hnone
    cases hnone
  · intro hmem
    rw [Option.eq_none_iff_forall_ne_some]
    intro id hid
    obtain ⟨k, native, hk, rfl, -⟩ := h.entered hid
    exact hmem (List.mem_map_of_mem (Array.mem_toList_iff.mpr (Array.mem_of_getElem? hk)))

/-! ## What was registered -/

/-- The names of the functions registered, in the order in which they came first. -/
def namesOf (natives : List Native) : List String :=
  (natives.map (·.name)).eraseDups

/-- The function that was first registered under a name. -/
def first? (natives : List Native) (name : String) : Option Native :=
  natives.find? (·.name == name)

theorem mem_namesOf : name ∈ namesOf natives ↔ ∃ native ∈ natives, native.name = name := by
  rw [namesOf, List.mem_eraseDups, List.mem_map]

theorem namesOf_concat (natives : List Native) (native : Native) :
    namesOf (natives ++ [native]) =
      if native.name ∈ namesOf natives then namesOf natives
      else namesOf natives ++ [native.name] := by
  rw [namesOf, List.map_append, List.eraseDups_append]
  have hmem : native.name ∈ namesOf natives ↔ native.name ∈ natives.map (·.name) := by
    rw [namesOf, List.mem_eraseDups]
  by_cases h : native.name ∈ natives.map (·.name)
  · rw [if_pos (hmem.mpr h)]
    have hnone : List.removeAll [native.name] (natives.map (·.name)) = [] := by
      simpa [List.removeAll] using h
    rw [List.map_singleton, hnone, List.eraseDups_nil, List.append_nil, namesOf]
  · rw [if_neg (mt hmem.mp h)]
    have hnew : List.removeAll [native.name] (natives.map (·.name)) = [native.name] := by
      simpa [List.removeAll] using h
    rw [List.map_singleton, hnew, namesOf]
    rfl

/-- Later registrations add names behind those that were there. -/
theorem namesOf_prefix (natives more : List Native) :
    namesOf natives <+: namesOf (natives ++ more) := by
  rw [namesOf, namesOf, List.map_append, List.eraseDups_append]
  exact List.prefix_append _ _

/-- Later registrations do not change what was registered first. -/
theorem first?_append (h : first? natives name = some native) (more : List Native) :
    first? (natives ++ more) name = some native := by
  rw [first?, List.find?_append]
  rw [first?] at h
  rw [h, Option.some_or]

theorem first?_isSome : (first? natives name).isSome ↔ name ∈ namesOf natives := by
  rw [mem_namesOf, first?, List.find?_isSome]
  simp

/-- The table is the result of these registrations: its parts agree, it has an entry for every
name, in the order in which the names came first, and the entry is the function that came first. -/
structure Holds (t : NativeTable) (natives : List Native) : Prop where
  agrees : t.Agrees
  names : t.entries.toList.map (·.name) = namesOf natives
  first : ∀ native ∈ t.entries.toList, first? natives native.name = some native

theorem Holds.idOf?_eq_none_iff (h : t.Holds natives) :
    t.idOf? name = none ↔ name ∉ namesOf natives := by
  rw [h.agrees.idOf?_eq_none_iff, h.names]

theorem Holds.idOf?_isSome (h : t.Holds natives) :
    (t.idOf? name).isSome ↔ (first? natives name).isSome := by
  rw [first?_isSome, ← Option.ne_none_iff_isSome, Ne, h.idOf?_eq_none_iff, not_not]

/-- A registration keeps the table right. -/
theorem Holds.register (h : t.Holds natives) (native : Native) :
    (t.register native).1.Holds (natives ++ [native]) := by
  have hconcat := namesOf_concat natives native
  have hagrees := h.agrees.register native
  cases hid : t.idOf? native.name with
  | some id =>
    have hmem : native.name ∈ namesOf natives := by
      by_contra hmem
      rw [h.idOf?_eq_none_iff.mpr hmem] at hid
      cases hid
    rw [if_pos hmem] at hconcat
    rw [register_known hid]
    refine ⟨h.agrees, h.names.trans hconcat.symm, ?_⟩
    exact fun old hold => first?_append (h.first old hold) _
  | none =>
    have hmem : native.name ∉ namesOf natives := h.idOf?_eq_none_iff.mp hid
    have hentries := entries_register_new hid
    rw [if_neg hmem] at hconcat
    refine ⟨hagrees, ?_, ?_⟩
    · rw [hentries, hconcat, ← h.names, Array.toList_push, List.map_append]
      rfl
    · intro entry hentry
      rw [hentries, Array.toList_push, List.mem_append, List.mem_singleton] at hentry
      rcases hentry with hold | rfl
      · exact first?_append (h.first entry hold) _
      · have hnone : first? natives entry.name = none := by
          rw [← Option.not_isSome_iff_eq_none, first?_isSome]
          exact hmem
        rw [first?, List.find?_append, ← first?, hnone]
        simp

theorem Holds.registerAll (h : t.Holds natives) (more : List Native) :
    (t.registerAll more).Holds (natives ++ more) := by
  induction more generalizing t natives with
  | nil => rwa [List.append_nil]
  | cons native more ih =>
    have hnext := ih (h.register native)
    rwa [List.append_assoc] at hnext

/-- Whatever is registered in the empty table, its parts agree and it holds what came first. -/
theorem holds_registerAll (natives : List Native) :
    (NativeTable.registerAll {} natives).Holds natives := by
  have hempty : Holds {} [] := ⟨agrees_empty, rfl, nofun⟩
  exact hempty.registerAll natives

theorem registerAll_append (t : NativeTable) (natives more : List Native) :
    t.registerAll (natives ++ more) = (t.registerAll natives).registerAll more :=
  List.foldl_append

/-! ## Numbers -/

theorem nameOf?_eq (t : NativeTable) (id : NativeId) :
    t.nameOf? id = (t.entries.toList.map (·.name))[id.toNat]? := by
  rw [nameOf?, get?, List.getElem?_map, Array.getElem?_toList]

theorem Holds.size_eq (h : t.Holds natives) : t.size = (namesOf natives).length := by
  rw [← h.names, List.length_map, Array.length_toList, size]

/-- While the numbers suffice, numbers and names belong to each other. -/
theorem Holds.idOf?_eq_some_iff (h : t.Holds natives) (hsize : (namesOf natives).length ≤ 65536) :
    t.idOf? name = some id ↔ t.nameOf? id = some name := by
  rw [nameOf?, Option.map_eq_some_iff]
  constructor
  · intro hid
    obtain ⟨k, native, hk, hname, rfl⟩ := h.agrees.entered hid
    -- a place below the size is a number by itself
    have hlt : k < UInt16.size :=
      (Array.getElem?_eq_some_iff.mp hk).1.trans_le (h.size_eq.le.trans hsize)
    refine ⟨native, ?_, hname⟩
    rw [get?, UInt16.toNat_ofNat_of_lt' hlt, hk]
  · rintro ⟨native, hget, rfl⟩
    rw [h.agrees.numbered hget, UInt16.ofNat_toNat]

/-- A registration answers the number that its name has from then on. -/
theorem register_answer (t : NativeTable) (native : Native) :
    (t.register native).1.idOf? native.name = some (t.register native).2 := by
  cases hid : t.idOf? native.name with
  | some id => rw [register_known hid, hid]
  | none => rw [idOf?_register_new hid, if_pos rfl, register, hid]

/-! ## Identity -/

theorem Holds.name_of_idOf? (h : t.Holds natives) (hsize : (namesOf natives).length ≤ 65536)
    (hid : t.idOf? name = some id) :
    ∃ native, t.get? id = some native ∧ native.name = name ∧ first? natives name = some native := by
  have hname := (h.idOf?_eq_some_iff hsize).mp hid
  rw [nameOf?] at hname
  obtain ⟨native, hget, rfl⟩ := Option.map_eq_some_iff.mp hname
  exact ⟨native, hget, rfl, h.first native (Array.mem_toList_iff.mpr (Array.mem_of_getElem? hget))⟩

/-- What a number stands for does not change, whatever is registered later. -/
theorem Holds.get?_append (h : t.Holds natives) (h' : t'.Holds (natives ++ more))
    (hget : t.get? id = some native) : t'.get? id = some native := by
  have hfirst := first?_append (h.first native
    (Array.mem_toList_iff.mpr (Array.mem_of_getElem? hget))) more
  have hat : (namesOf natives)[id.toNat]? = some native.name := by
    rw [← h.names, ← nameOf?_eq, nameOf?, hget]
    rfl
  -- the name keeps its place, and so the function that came first under it
  have hat' : t'.nameOf? id = some native.name := by
    obtain ⟨later, hlater⟩ := namesOf_prefix natives more
    obtain ⟨hlt, -⟩ := List.getElem?_eq_some_iff.mp hat
    rw [nameOf?_eq, h'.names, ← hlater, List.getElem?_append_left hlt, hat]
  rw [nameOf?] at hat'
  obtain ⟨native', hget', hname⟩ := Option.map_eq_some_iff.mp hat'
  have hfirst' := h'.first native' (Array.mem_toList_iff.mpr (Array.mem_of_getElem? hget'))
  rw [hname, hfirst] at hfirst'
  rw [hget', hfirst']

/-! ## The core natives -/

/-- The core natives have different names, so they are all in the table, in their order. -/
theorem entries_core : core.entries = Native.core.toArray := rfl

theorem mem_core (h : native ∈ core.entries) : native ∈ Native.core := by
  rw [entries_core] at h
  exact List.mem_toArray.mp h

theorem get?_core (id : NativeId) : core.get? id = Native.core[id.toNat]? := by
  rw [get?, entries_core, List.getElem?_toArray]

end NativeTable
end QueryMachine
