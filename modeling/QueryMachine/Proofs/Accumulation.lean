import QueryMachine.Native.Stock
import QueryMachine.Proofs.Iteration

/-!
# Accumulation

A program can gather what an iteration gives: it forks, iterates on the first way, leaves what each
pass found in a variable and backtracks, until nothing waits but the fork; the other way then
answers with the variable. A variable keeps its value when the stacks are rewound, so that all
passes count, and a fault passes the fork, so that a part of them is never an answer.

* `Program.collection_complete`: gathering by appending to an array;
* `Program.reduction_folds`: gathering by a native function.
-/

namespace QueryMachine

namespace Value

/-! ## Descendants -/

/-- The values this many levels below a value, depth first. -/
def descendants : Nat → Value → List Value
  | 0, v => [v]
  | depth + 1, v => (v.keyed?.getD []).flatMap fun entry => descendants depth entry.2

/-- The first value less than this many levels below a value, depth first, that has no entries. -/
def obstacle? : Nat → Value → Option Value
  | 0, _ => none
  | depth + 1, v =>
    match v.keyed? with
    | none => some v
    | some entries => entries.findSome? fun entry => obstacle? depth entry.2

/-- There is no obstacle where everything above the depth has entries. -/
theorem obstacle?_eq_none_iff {depth : Nat} {v : Value} :
    obstacle? depth v = none ↔ ∀ n < depth, ∀ w ∈ descendants n v, w.keyed?.isSome := by
  induction depth generalizing v with
  | zero => exact iff_of_true rfl nofun
  | succ depth ih =>
    rw [obstacle?]
    cases hkeyed : v.keyed? with
    | none =>
      refine iff_of_false nofun fun h => ?_
      have hself := h 0 (Nat.succ_pos depth) v (List.mem_singleton.mpr rfl)
      rw [hkeyed] at hself
      cases hself
    | some entries =>
      have hbelow : ∀ n, descendants (n + 1) v =
          entries.flatMap fun entry => descendants n entry.2 := fun n => by
        rw [descendants, hkeyed, Option.getD_some]
      simp only [List.findSome?_eq_none_iff, ih]
      constructor
      · rintro h (_ | n) hn w hw
        · obtain rfl := List.mem_singleton.mp hw
          rw [hkeyed]
          rfl
        · rw [hbelow] at hw
          obtain ⟨entry, hentry, hw⟩ := List.mem_flatMap.mp hw
          exact h entry hentry n (Nat.lt_of_succ_lt_succ hn) w hw
      · intro h entry hentry n hn w hw
        refine h (n + 1) (Nat.succ_lt_succ hn) w ?_
        rw [hbelow]
        exact List.mem_flatMap.mpr ⟨entry, hentry, hw⟩

end Value

namespace Place

/-! ## Gathering finds -/

/-- What is gathered of a walk's finds, unless one of them has no entries. -/
def gather (gathered : Array Value) : List (Except Value Place) → Except Fault Value
  | [] => .ok (.array gathered)
  | .error v :: _ => .error (.notIterable v)
  | .ok place :: rest => gather (gathered.push place.value) rest

/-- Gathering the finds of a walk gathers the descendants at its depth, or ends at the first
obstacle. -/
theorem gather_frontier_append (depth : Nat) (here : Place) (gathered : Array Value)
    (later : List (Except Value Place)) :
    gather gathered (frontier depth here ++ later) =
      match here.value.obstacle? depth with
      | some v => .error (.notIterable v)
      | none => gather (gathered ++ (here.value.descendants depth).toArray) later := by
  induction depth generalizing here gathered later with
  | zero => simp [frontier, gather, Value.obstacle?, Value.descendants]
  | succ depth ih =>
    rw [frontier, Value.obstacle?, Value.descendants]
    cases here.value.keyed? with
    | none => rfl
    | some entries =>
      dsimp only [Option.getD_some]
      -- by induction on the entries
      induction entries generalizing gathered with
      | nil => simp
      | cons entry rest ihrest =>
        rw [List.flatMap_cons, List.append_assoc, ih, value_entry, List.findSome?_cons,
          List.flatMap_cons]
        cases entry.2.obstacle? depth with
        | some v => rfl
        | none =>
          dsimp only
          rw [ihrest, Array.append_assoc, List.append_toArray _ (rest.flatMap _)]

theorem gather_frontier (depth : Nat) (v : Value) :
    gather #[] (frontier depth ⟨[], v⟩) =
      match v.obstacle? depth with
      | some w => .error (.notIterable w)
      | none => .ok (.array (v.descendants depth).toArray) := by
  have h := gather_frontier_append depth ⟨[], v⟩ #[] []
  rwa [List.append_nil, Array.empty_append] at h

/-- Gathered in a state, the finds give one item at the end. -/
theorem harvest_gather {finish : Option Fault → Array Value → List (Except Fault Value) → Prop}
    (hdone : ∀ gathered, finish none gathered [.ok (.array gathered)])
    (hfault : ∀ fault gathered, finish (some fault) gathered [.error fault])
    (found : List (Except Value Place)) (gathered : Array Value) :
    Harvest (fun gathered place => gathered.push place.value) (fun _ => []) finish found gathered
      [gather gathered found] := by
  induction found generalizing gathered with
  | nil => exact .done (hdone gathered)
  | cons find found ih =>
    cases find with
    | error v => exact .obstacle (hfault _ gathered)
    | ok place => exact .place (ih (gathered.push place.value))

end Place

namespace Program

variable {p : Program} {pc target : Nat} {vars : List Operand} {x y : Operand} {v : Value}
  {stack : List Operand} {fault : Fault}

/-! ## The other way -/

/-- The code after the fork: the operand of the iteration goes, and the variable is the answer. -/
def answer : List Instruction :=
  [.pop, .load ⟨0, 0⟩, .ret]

/-- When only the fork is left, the variable is the last item. -/
theorem unwinds_answer (hat : p.at? pc = some (.fork target)) (hcode : p.Has target answer)
    (hslot : vars[0]? = some (.value v)) :
    p.Unwinds vars none [⟨pc, x :: stack, []⟩] [.ok v] := by
  obtain ⟨hpop, hload, hret, -⟩ := hcode
  exact unwinds_fork hat (goes_pop hpop (goes_load hload hslot (goes_ret hret rfl)))

/-- A fault does not get there. -/
theorem unwinds_answer_fault (hat : p.at? pc = some (.fork target)) :
    p.Unwinds vars (some fault) [⟨pc, x :: stack, []⟩] [.error fault] :=
  unwinds_unhandled hat rfl rfl rfl

/-! ## Arrays -/

/-- The program that appends what it finds this many levels below its input to an array. -/
def collection (depth : Nat) : Program where
  name := "collection"
  code := (.scope 0 1 :: .push (.array #[]) :: .store ⟨0, 0⟩ :: .fork (depth + 6) ::
    (List.replicate depth .each ++ (.append ⟨0, 0⟩ :: .backtrack :: answer))).toArray
  functions := #[]
  lines := #[]
  natives := .core

/-- Collecting gives one item. That is the array of all that is so far below the input, depth
first, if everything above has entries. Otherwise it is a fault of the first value that has
none. -/
theorem collection_complete (depth : Nat) (v : Value) (idle : Machine) (settings : Settings) :
    (idle.load settings v none).GivesAll (collection depth)
        [match v.obstacle? depth with
          | some w => .error (.notIterable w)
          | none => .ok (.array (v.descendants depth).toArray)] ∧
      (v.obstacle? depth = none ↔ ∀ n < depth, ∀ w ∈ v.descendants n, w.keyed?.isSome) := by
  refine ⟨?_, Value.obstacle?_eq_none_iff⟩
  obtain ⟨hscope, hpush, hstore, hfork, hrest⟩ := (collection depth).has_code
  obtain ⟨hwalk, happend, hbacktrack, hanswer⟩ := has_append.mp hrest
  rw [List.length_replicate] at happend hbacktrack hanswer
  have htarget : 0 + 1 + 1 + 1 + 1 + depth + 1 + 1 = depth + 6 := by omega
  rw [htarget] at hanswer
  rw [← Place.gather_frontier]
  refine givesAll_of_goes hscope (goes_push hpush (goes_store hstore Nat.zero_lt_one
    (goes_fork hfork ?_))) idle settings
  refine goes_walk (fun gathered : Array Value => [.value (.array gathered)]) ⟨[], v⟩ rfl
    hwalk .unrecorded ?_ (Place.harvest_gather ?_ ?_ _ #[])
  · intro gathered place records waiting items _ h
    exact goes_append happend rfl (goes_backtrack hbacktrack h)
  · exact fun gathered => unwinds_answer hfork hanswer rfl
  · exact fun fault gathered => unwinds_answer_fault hfork

/-! ## Folds -/

section

variable {id : NativeId} {acc item : Value} {below : List Operand} {waiting : List Spot}
  {items : List (Except Fault Value)}

/-- The code for one entry: it is the argument of a call whose input is what there is so far. -/
def pass (id : NativeId) : List Instruction :=
  [.store ⟨0, 1⟩, .load ⟨0, 1⟩, .load ⟨0, 0⟩, .callNative id 1, .store ⟨0, 0⟩, .backtrack]

/-- A pass leaves what the call answers in the variable, or fails with the call. -/
theorem goes_pass (hcode : p.Has pc (pass id))
    (h : match p.natives.call id acc [item] with
      | .ok next => p.Unwinds [.value next, .value item] none waiting items
      | .error failure => p.Unwinds [.value acc, .value item] (some (.ofFailure failure))
          (if (Fault.ofFailure failure).isFatal then [] else waiting) items) :
    p.Goes [.value acc, x] ⟨pc, .value item :: below, []⟩ waiting items := by
  obtain ⟨hstore, hload, hloadAcc, hcall, hstoreAcc, hbacktrack, -⟩ := hcode
  refine goes_store hstore Nat.one_lt_two (goes_load hload rfl (goes_load hloadAcc rfl ?_))
  cases hanswer : p.natives.call id acc [item] with
  | error failure =>
    rw [hanswer] at h
    exact goes_call_failure hcall hanswer h
  | ok next =>
    rw [hanswer] at h
    exact goes_call hcall hanswer
      (goes_store hstoreAcc Nat.two_pos (goes_backtrack hbacktrack h))

/-- The entries that are left fold into what there is so far. -/
theorem visits_fold {fork : Nat} (heach : p.at? pc = some .each) (hpass : p.Has (pc + 1) (pass id))
    (hfork : p.at? fork = some (.fork target)) (hanswer : p.Has target answer)
    (left : List (Value × Value)) :
    p.Visits [.value acc, x] pc below [] [⟨fork, y :: stack, []⟩] left
      [((left.map (·.2)).foldlM (fun acc item => p.natives.call id acc [item]) acc).mapError
        .ofFailure] := by
  induction left generalizing acc x with
  | nil => exact unwinds_answer hfork hanswer rfl
  | cons entry left ih =>
    refine goes_pass hpass ?_
    rw [List.map_cons, List.foldlM_cons]
    cases p.natives.call id acc [entry.2] with
    | ok next => exact unwinds_suspended heach ih
    | error failure =>
      show p.Unwinds _ _ _ [.error (.ofFailure failure)]
      -- a fatal fault discards all that waits, another one passes it
      cases (Fault.ofFailure failure).isFatal with
      | true => rfl
      | false => exact unwinds_suspended_fault heach (unwinds_answer_fault hfork) left

end

/-- The program that folds the entries of its input with a native function. -/
def reduction (natives : NativeTable) (id : NativeId) (init : Value) : Program where
  name := "reduction"
  code := (.scope 0 2 :: .dup :: .push init :: .store ⟨0, 0⟩ :: .fork 12 :: .each ::
    (pass id ++ answer)).toArray
  functions := #[]
  lines := #[]
  natives

/-- Reducing gives one item: the fold of the function over the values of all entries, in the order
of iteration, or the failure of the first call that fails. -/
theorem reduction_folds {natives : NativeTable} {id : NativeId} {native : Native}
    {entries : List (Value × Value)} (hget : natives.get? id = some native)
    (harity : native.arity = 1) (hkeyed : v.keyed? = some entries) (init : Value) (idle : Machine)
    (settings : Settings) :
    (idle.load settings v none).GivesAll (reduction natives id init)
      [((entries.map (·.2)).foldlM (fun acc item => native.run acc [item]) init).mapError
        .ofFailure] := by
  obtain ⟨hscope, hdup, hpush, hstore, hfork, heach, hrest⟩ := (reduction natives id init).has_code
  obtain ⟨hpass, hanswer⟩ := has_append.mp hrest
  have hrun : ∀ acc item, native.run acc [item] = natives.call id acc [item] := fun acc item => by
    simp [NativeTable.call, NativeTable.resolve, hget, harity]
  simp only [hrun]
  refine givesAll_of_goes hscope (goes_dup hdup (goes_push hpush (goes_store hstore Nat.two_pos
    (goes_fork hfork (goes_each heach (reached_nil v) hkeyed ?_))))) idle settings
  exact visits_fold heach hpass hfork hanswer entries

/-- The sum of three numbers, and a sum that is out of range at the second entry. -/
theorem reduction_folds_sum :
    let natives : NativeTable := .registerAll {} [.stock "add" 1 .plain .add]
    natives.get? 0 = some (.stock "add" 1 .plain .add) ∧
      (Machine.load {} {} (.array #[.int 1, .int 2, .int 3]) none).GivesAll
        (reduction natives 0 (.int 0)) [.ok (.int 6)] ∧
      (Machine.load {} {} (.object [("a", .int Int64.maxValue), ("b", .int 1), ("c", .null)])
          none).GivesAll
        (reduction natives 0 (.int 0)) [.error (.native (.runtime "overflow"))] := by
  intro natives
  have hadd : natives.get? 0 = some (.stock "add" 1 .plain .add) := rfl
  have hitems : Value.keyed? (.array #[.int 1, .int 2, .int 3]) =
      some [(.int 0, .int 1), (.int 1, .int 2), (.int 2, .int 3)] := rfl
  have hentries : Value.keyed? (.object [("a", .int Int64.maxValue), ("b", .int 1), ("c", .null)]) =
      some [(.string "a", .int Int64.maxValue), (.string "b", .int 1), (.string "c", .null)] := rfl
  exact ⟨hadd, reduction_folds hadd rfl hitems (.int 0) {} {},
    reduction_folds hadd rfl hentries (.int 0) {} {}⟩

end Program
end QueryMachine
