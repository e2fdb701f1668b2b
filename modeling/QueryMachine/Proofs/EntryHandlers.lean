import QueryMachine.Proofs.Iteration

/-!
# Handlers inside an iteration

A handler that is set up anew for each entry of an iteration belongs to that entry alone. What it
handles never gets to the iteration around it, and where it has nothing to handle it is gone before
the next entry is taken up.

* `Program.firsts_of_elements`: leaving a label at the first entry of an element discards the other
  entries of that element, and no other element;
* `Program.recovery_perEntry`: a fault that is recovered from costs no other entry its item, and one
  that cannot be recovered from ends the run.
-/

namespace QueryMachine

/-! ## The first entry -/

namespace Value

variable {items : Array Value} {entries : List (String × Value)} {v w : Value}

/-- The value of the first entry in the order of iteration. -/
def first? (v : Value) : Option Value :=
  (v.keyed?.bind List.head?).map (·.2)

/-- This is the value at position 0 of an array, or the one under the smallest key of an object. -/
inductive LeastEntry : Value → Value → Prop where
  | item {items : Array Value} {v : Value} (h : items[0]? = some v) : LeastEntry (.array items) v
  | entry {entries : List (String × Value)} {key : String} {v : Value} (h : (key, v) ∈ entries)
      (hleast : ∀ other ∈ entries, key ≤ other.1) : LeastEntry (.object entries) v

theorem first?_array (items : Array Value) : (array items).first? = items[0]? := by
  rw [first?, keyed?, Option.bind_some, List.head?_eq_getElem?, Array.getElem?_toList,
    Array.getElem?_mapIdx, Option.map_map]
  exact Option.map_id'

theorem first?_object (entries : List (String × Value)) :
    (object entries).first? = entries.head?.map (·.2) := by
  rw [first?, keyed?, Option.bind_some, List.head?_map, Option.map_map]
  rfl

/-- In ascending entries the first one has the smallest key, and no other one has. -/
theorem first?_object_eq_some_iff (hkeys : (entries.map (·.1)).Pairwise (· < ·)) :
    (object entries).first? = some w ↔ (object entries).LeastEntry w := by
  rw [first?_object]
  cases entries with
  | nil =>
    refine iff_of_false nofun fun hleast => ?_
    cases hleast with
    | entry hmem _ => cases hmem
  | cons first rest =>
    have hbefore := (List.pairwise_cons.mp hkeys).1
    constructor
    · intro hfirst
      obtain rfl := Option.some.inj hfirst
      refine .entry List.mem_cons_self fun other hother => ?_
      rcases List.mem_cons.mp hother with rfl | hrest
      · exact le_refl _
      · exact le_of_lt (hbefore other.1 (List.mem_map_of_mem hrest))
    · intro hleast
      cases hleast with
      | @entry _ key _ hmem hleast =>
        rcases List.mem_cons.mp hmem with rfl | hrest
        · rfl
        -- a later key is greater than the first one
        · have hlt := hbefore key (List.mem_map.mpr ⟨_, hrest, rfl⟩)
          exact absurd hlt (not_lt.mpr (hleast first List.mem_cons_self))

/-- In a well-formed value the first entry is the least one. -/
theorem WellFormed.first?_eq_some_iff (h : v.WellFormed) : v.first? = some w ↔ v.LeastEntry w := by
  cases h with
  | array _ =>
    rw [first?_array]
    refine ⟨.item, ?_⟩
    rintro ⟨h⟩
    exact h
  | object hkeys _ => exact first?_object_eq_some_iff hkeys
  | _ => exact iff_of_false nofun nofun

/-- The entries of an array hold its items, in order. -/
theorem map_snd_keyed?_array {entries : List (Value × Value)}
    (h : (array items).keyed? = some entries) : entries.map (·.2) = items.toList := by
  obtain rfl := Option.some.inj h
  exact List.ext_getElem (by simp) fun i _ _ => by simp

end Value

namespace Program

variable {vars : List Operand} {waiting : List Spot} {items : List (Except Fault Value)}

/-! ## Leaving a label -/

/-- The program that takes the first entry of every element of its input: inside a label it iterates
over an element, answers with an entry and, when it is asked for more, leaves the label. -/
def firsts (label : String) : Program where
  name := "firsts"
  code := #[.scope 0 0, .each, .forkLabel label, .each, .fork 6, .ret, .push (.string label), .swap,
    .callNative 3 1, .ret]
  functions := #[]
  lines := #[]
  natives := .core

/-- The function that is called to leave a label. -/
theorem call_leave (label : String) (input : Value) :
    (firsts label).natives.call 3 input [.string label] = .error (.exit label) := by
  rw [show (firsts label).natives = .core from rfl, NativeTable.call, NativeTable.resolve,
    NativeTable.get?_core]
  rfl

/-- Leaving the label inside an element takes up what waited before the label. -/
theorem unwinds_leave {label : String} {v w : Value} (rest : List (Value × Value))
    (h : (firsts label).Unwinds vars none waiting items) :
    (firsts label).Unwinds vars none
      (⟨4, [.value w], []⟩ :: suspended 3 [] [] (⟨2, [.value v], []⟩ :: waiting) rest) items := by
  have hcall : (firsts label).at? 8 = some (.callNative 3 [Value.string label].length) := rfl
  refine unwinds_fork rfl (goes_push rfl (goes_swap rfl
    (goes_call_failure hcall (call_leave label w) ?_)))
  -- the jump passes what is left of the element
  exact unwinds_suspended_fault rfl (unwinds_forkLabel_left rfl h) rest

/-- The elements that are left give their first entries. -/
theorem visits_firsts (label : String) (left : List (Value × Value))
    (hkeyed : ∀ element ∈ left, element.2.keyed?.isSome) :
    (firsts label).Visits vars 1 [] [] [] left
      (((left.map (·.2)).filterMap Value.first?).map .ok) := by
  induction left with
  | nil => rfl
  | cons element left ih =>
    obtain ⟨hfirst, hrest⟩ := List.forall_mem_cons.mp hkeyed
    have hleft : (firsts label).Unwinds vars none (suspended 1 [] [] [] left) _ :=
      unwinds_suspended rfl (ih hrest)
    obtain ⟨entries, hentries⟩ := Option.isSome_iff_exists.mp hfirst
    refine goes_branch rfl rfl nofun (goes_each rfl (reached_nil _) hentries ?_)
    rw [List.map_cons, List.filterMap_cons, Value.first?, hentries, Option.bind_some]
    cases entries with
    | nil => exact unwinds_forkLabel rfl hleft
    | cons entry rest => exact goes_branch rfl rfl nofun (goes_ret rfl (unwinds_leave rest hleft))

/-- Taking the first entry of every element gives exactly these, one after the other, whatever else
the elements hold, and never a fault. An element without entries gives none. -/
theorem firsts_of_elements (label : String) {elements : Array Value}
    (hkeyed : ∀ element ∈ elements, element.keyed?.isSome) (idle : Machine) (settings : Settings) :
    (idle.load settings (.array elements) none).GivesAll (firsts label)
        ((elements.toList.filterMap Value.first?).map .ok) ∧
      ∀ element ∈ elements, element.WellFormed →
        ∀ v, element.first? = some v ↔ element.LeastEntry v := by
  refine ⟨?_, fun element _ hform v => hform.first?_eq_some_iff⟩
  have hvalues : (elements.mapIdx fun place element => (Value.ofNat place, element)).toList.map
      (·.2) = elements.toList := Value.map_snd_keyed?_array rfl
  refine givesAll_of_goes rfl (goes_each rfl (reached_nil _) rfl ?_) idle settings
  rw [← hvalues]
  refine visits_firsts label _ fun element helement => hkeyed element.2 ?_
  rw [← Array.mem_toList_iff, ← hvalues]
  exact List.mem_map_of_mem helement

/-- Two arrays, one of them empty, and an object. -/
theorem firsts_of_elements_mixed :
    let least : Value := .object [("a", .null), ("b", .int 2)]
    let elements : Array Value := #[.array #[.int 7, .int 8], .array #[], least]
    (∀ element ∈ elements, element.keyed?.isSome) ∧ least.WellFormed ∧
      (Machine.load {} {} (.array elements) none).GivesAll (firsts "out")
        [.ok (.int 7), .ok .null] ∧
      (least.first? = some .null ↔ least.LeastEntry .null) := by
  intro least elements
  have hkeyed : ∀ element ∈ elements, element.keyed?.isSome := by
    simp [elements, least, Value.keyed?]
  have hform : least.WellFormed := by
    refine .object (by decide) fun entry hentry => ?_
    simp only [List.mem_cons, List.not_mem_nil, or_false] at hentry
    rcases hentry with rfl | rfl
    · exact .null
    · exact .int 2
  obtain ⟨hitems, hleast⟩ := firsts_of_elements "out" hkeyed {} {}
  exact ⟨hkeyed, hform, hitems, hleast least (by simp [elements]) hform .null⟩

/-! ## Recovering -/

/-- What comes of one value that is passed to a function with a handler around the call: the answer,
the raised value or the wording of a failure, or else the fault that no handler recovers from. -/
def attempt (run : Value → Except NativeFailure Value) (v : Value) : Except Fault Value :=
  match run v with
  | .ok w => .ok w
  | .error (.thrown w) => .ok w
  | .error (.exit label) => .error (.exit label)
  | .error (.missing id) => .error (.unknownNative id)
  | .error failure => .ok (.string failure.message)

/-- The items up to the first fault. -/
def untilFault : List (Except Fault Value) → List (Except Fault Value)
  | [] => []
  | .ok v :: rest => .ok v :: untilFault rest
  | .error fault :: _ => [.error fault]

/-- The program that passes every entry of its input to a function and answers with what comes of
it, also if that is what a handler receives. -/
def recovery (natives : NativeTable) (id : NativeId) : Program where
  name := "recovery"
  code := #[.scope 0 0, .each, .forkOpt 5, .callNative id 0, .ret, .ret]
  functions := #[]
  lines := #[]
  natives

variable {natives : NativeTable} {id : NativeId} {v w : Value} {failure : NativeFailure}

theorem at?_recovery_call (natives : NativeTable) (id : NativeId) :
    (recovery natives id).at? 3 = some (.callNative id ([] : List Value).length) :=
  rfl

/-- The answer of a call is an item, and its handler is gone. -/
theorem goes_answered (hcall : natives.call id v [] = .ok w)
    (h : (recovery natives id).Unwinds vars none waiting items) :
    (recovery natives id).Goes vars ⟨2, [.value v], []⟩ waiting (.ok w :: items) :=
  goes_branch rfl rfl nofun
    (goes_call (at?_recovery_call natives id) hcall (goes_ret rfl (unwinds_forkOpt rfl h)))

/-- So is what the handler receives for a failure that can be recovered from. -/
theorem goes_recovered (hcall : natives.call id v [] = .error failure)
    (hfailure : Fault.ofFailure failure = .native failure)
    (h : (recovery natives id).Unwinds vars none waiting items) :
    (recovery natives id).Goes vars ⟨2, [.value v], []⟩ waiting (.ok failure.caught :: items) := by
  refine goes_branch rfl rfl nofun (goes_call_failure (at?_recovery_call natives id) hcall ?_)
  rw [hfailure]
  exact unwinds_forkOpt_caught rfl rfl (goes_ret rfl h)

/-- The entries that are left give their items. -/
theorem visits_recovered (left : List (Value × Value)) :
    (recovery natives id).Visits vars 1 [] [] [] left
      (untilFault (left.map fun entry => attempt (natives.call id · []) entry.2)) := by
  induction left with
  | nil => rfl
  | cons entry left ih =>
    have hleft : (recovery natives id).Unwinds vars none (suspended 1 [] [] [] left) _ :=
      unwinds_suspended rfl ih
    rw [List.map_cons, attempt]
    cases hcall : natives.call id entry.2 [] with
    | ok w => exact goes_answered hcall hleft
    | error failure =>
      cases failure with
      | exit label =>
        have hover : (recovery natives id).Unwinds vars (some (.exit label)) []
            [.error (.exit label)] := rfl
        refine goes_branch rfl rfl nofun (goes_call_failure (at?_recovery_call natives id) hcall ?_)
        exact unwinds_unhandled rfl rfl rfl (unwinds_suspended_fault rfl hover left)
      | missing number =>
        -- a fatal fault discards the handler and the iteration at once
        refine goes_branch rfl rfl nofun (goes_call_failure (at?_recovery_call natives id) hcall ?_)
        rfl
      | arity | mismatch | runtime | thrown => exact goes_recovered hcall rfl hleft

/-- Recovering for each entry gives one item for each entry, in the order of iteration: what comes
of that entry, whatever came of the others. Only a failure that cannot be recovered from ends the
run before the last entry. -/
theorem recovery_perEntry {native : Native} {entries : List (Value × Value)}
    (hget : natives.get? id = some native) (harity : native.arity = 0)
    (hkeyed : v.keyed? = some entries) (idle : Machine) (settings : Settings) :
    (idle.load settings v none).GivesAll (recovery natives id)
      (untilFault (entries.map fun entry => attempt (native.run · []) entry.2)) := by
  have hrun : ∀ v, natives.call id v [] = native.run v [] := call_eq_run hget harity.symm
  simp only [← hrun]
  exact givesAll_of_goes rfl (goes_each rfl (reached_nil v) hkeyed (visits_recovered entries)) idle
    settings

/-- Raises integers, fails for null, leaves the label that a string names, and answers anything else
with itself. -/
def capricious : Native where
  name := "capricious"
  arity := 0
  run := fun input _ =>
    match input with
    | .int n => .error (.thrown (.int n))
    | .null => .error (.runtime "null")
    | .string label => .error (.exit label)
    | v => .ok v

/-- An answer, a raised value, a wording and a jump that no handler stops. -/
theorem recovery_perEntry_capricious :
    let v : Value := .array #[.bool true, .int 5, .null, .string "out", .bool false]
    let natives : NativeTable := .registerAll {} [capricious]
    natives.get? 0 = some capricious ∧ capricious.arity = 0 ∧
      (Machine.load {} {} v none).GivesAll (recovery natives 0)
        [.ok (.bool true), .ok (.int 5), .ok (.string "runtime error: null"),
          .error (.exit "out")] := by
  intro v natives
  have hkeyed : v.keyed? = some [(.int 0, .bool true), (.int 1, .int 5), (.int 2, .null),
    (.int 3, .string "out"), (.int 4, .bool false)] := rfl
  have hget : natives.get? 0 = some capricious := rfl
  exact ⟨hget, rfl, recovery_perEntry hget rfl hkeyed {} {}⟩

end Program
end QueryMachine
