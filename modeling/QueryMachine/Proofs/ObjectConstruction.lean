import QueryMachine.Proofs.Handlers
import QueryMachine.Proofs.WellFormed

/-!
# Building objects

An object is built from pairs of a key and a value on the stack. The pair that was pushed last comes
off first, and the object is built in the order of pushing, so that of the pairs with one key the
last one counts.

* `popPairs_succ`: how one pair comes off; an induction on the pairs from the top down gives what
  comes of all of them, `popPairs_named` or `popPairs_odd`;
* `BuiltFrom`: which entries an object has that is built from pairs;
* `object_construction`: what the instruction does, and where a run goes on that recovers from it.
-/

namespace QueryMachine

open RewindStack

/-! ## Pairs -/

/-- The operands of pairs, each with its value above its key, from the top down. -/
def pairOperands (top : List (Value × Value)) : List Operand :=
  top.flatMap fun pair => [.value pair.2, .value pair.1]

/-- The last key that is not a string. -/
def oddKey? (pairs : List (Value × Value)) : Option Value :=
  (pairs.reverse.map (·.1)).find? (·.string?.isNone)

/-- The value of the last pair with a key. -/
def lastUnder? (key : String) (pairs : List (Value × Value)) : Option Value :=
  (pairs.reverse.find? (·.1.string? = some key)).map (·.2)

/-- The entries of an object that is built from pairs: one for each key, with the value of the last
pair with that key. -/
structure BuiltFrom (pairs : List (Value × Value)) (entries : List (String × Value)) : Prop where
  ascending : (entries.map (·.1)).Pairwise (· < ·)
  keys : ∀ key, key ∈ entries.map (·.1) ↔ ∃ v, (.string key, v) ∈ pairs
  last : ∀ key, Value.lookup key entries = lastUnder? key pairs

/-- A pair whose key is a string. -/
def namedPair (pair : String × Value) : Value × Value :=
  (.string pair.1, pair.2)

variable {pairs : List (Value × Value)} {named : List (String × Value)} {key : Value}

theorem exists_named (h : ∀ pair ∈ pairs, ∃ key, pair.1 = .string key) :
    ∃ named : List (String × Value), pairs = named.map namedPair := by
  induction pairs with
  | nil => exact ⟨[], rfl⟩
  | cons pair pairs ih =>
    obtain ⟨⟨key, hkey⟩, hrest⟩ := List.forall_mem_cons.mp h
    obtain ⟨named, rfl⟩ := ih hrest
    refine ⟨(key, pair.2) :: named, ?_⟩
    rw [List.map_cons, namedPair, ← hkey]

theorem exists_oddKey (h : ¬ ∀ pair ∈ pairs, ∃ key, pair.1 = .string key) :
    ∃ key, oddKey? pairs = some key := by
  by_contra hnone
  rw [← Option.isSome_iff_exists, Option.not_isSome_iff_eq_none, oddKey?,
    List.find?_eq_none] at hnone
  refine h fun pair hpair => ?_
  have hstring := hnone pair.1 (List.mem_map_of_mem (List.mem_reverse.mpr hpair))
  cases hkey : pair.1 with
  | string key => exact ⟨key, rfl⟩
  | _ =>
    rw [hkey] at hstring
    exact absurd rfl hstring

theorem lastUnder?_named (key : String) (named : List (String × Value)) :
    lastUnder? key (named.map namedPair) = (named.reverse.find? (·.1 = key)).map (·.2) := by
  have haccept : (fun pair : Value × Value => decide (pair.1.string? = some key)) ∘ namedPair =
      fun pair => decide (pair.1 = key) := by
    funext pair
    simp [namedPair, Value.string?]
  rw [lastUnder?, ← List.map_reverse, List.find?_map, haccept, Option.map_map]
  rfl

/-- Building an object from pairs in their order gives it these entries. -/
theorem exists_builtFrom (named : List (String × Value)) :
    ∃ entries, Value.ofEntries named = .object entries ∧
      BuiltFrom (named.map namedPair) entries := by
  have hascending : ((named.foldl (fun entries pair => Value.insertEntry pair.1 pair.2 entries)
      []).map (·.1)).Pairwise (· < ·) := Value.ascending_foldl named .nil
  have hlast : ∀ key, Value.lookup key _ = lastUnder? key (named.map namedPair) := fun key => by
    rw [Value.lookup_foldl key named [], Value.lookup, Option.or_none, lastUnder?_named]
  refine ⟨_, rfl, hascending, fun key => ?_, hlast⟩
  rw [← Value.lookup_isSome_iff hascending, hlast, lastUnder?_named, Option.isSome_map]
  simp [namedPair]

namespace Machine

variable {m : Machine} {below : List Operand} {v : Value}

/-! ## Taking pairs off the stack -/

theorem popValue_of_toList (hlinked : m.stack.Linked) (h : m.stack.toList = .value v :: below) :
    ∃ stack : OperandStack, m.popValue = .ok (v, { m with stack }) ∧ stack.Linked ∧
      stack.toList = below := by
  have hpop := pop?_toList hlinked
  rw [h, Option.map_eq_some_iff] at hpop
  obtain ⟨⟨x, stack⟩, hpop, heq⟩ := hpop
  obtain ⟨rfl, hbelow⟩ := Prod.mk.inj heq
  refine ⟨stack, ?_, hlinked.of_pop? hpop, hbelow⟩
  rw [popValue, popOperand, hpop]
  rfl

/-- One pair comes off, or its key is refused. -/
theorem popPairs_succ (hlinked : m.stack.Linked)
    (h : m.stack.toList = .value v :: .value key :: below) :
    ∃ stack : OperandStack, stack.Linked ∧ stack.toList = below ∧
      ∀ following count, m.popPairs following (count + 1) =
        match key.string? with
        | some key => popPairs { m with stack } ((key, v) :: following) count
        | none => .error (.keyNotString key) := by
  obtain ⟨once, hv, honce, hrest⟩ := popValue_of_toList hlinked h
  obtain ⟨stack, hkey, hstack, hbelow⟩ :=
    popValue_of_toList (m := { m with stack := once }) honce hrest
  refine ⟨stack, hstack, hbelow, fun following count => ?_⟩
  rw [popPairs, hv]
  dsimp only
  rw [hkey]
  cases key <;> rfl

/-- All pairs come off if their keys are strings, each put before those that were above it. -/
theorem popPairs_named (named : List (String × Value)) (hlinked : m.stack.Linked)
    (h : m.stack.toList = pairOperands (named.map namedPair) ++ below)
    (following : List (String × Value)) :
    ∃ stack : OperandStack, stack.Linked ∧ stack.toList = below ∧
      m.popPairs following named.length = .ok (named.reverse ++ following, { m with stack }) := by
  induction named generalizing m following with
  | nil => exact ⟨m.stack, hlinked, h, rfl⟩
  | cons pair named ih =>
    obtain ⟨once, honce, hrest, hpop⟩ := popPairs_succ hlinked h
    obtain ⟨stack, hstack, hbelow, hpops⟩ :=
      ih (m := { m with stack := once }) honce hrest (pair :: following)
    refine ⟨stack, hstack, hbelow, ?_⟩
    rw [List.length_cons, hpop, List.reverse_cons, List.append_assoc]
    exact hpops

/-- The first key from the top that is not a string is refused, whatever is below it. -/
theorem popPairs_odd (top : List (Value × Value)) (hlinked : m.stack.Linked)
    (h : m.stack.toList = pairOperands top ++ below)
    (hodd : (top.map (·.1)).find? (·.string?.isNone) = some key)
    (following : List (String × Value)) :
    m.popPairs following top.length = .error (.keyNotString key) := by
  induction top generalizing m following with
  | nil => cases hodd
  | cons pair top ih =>
    obtain ⟨stack, hstack, hrest, hpop⟩ := popPairs_succ hlinked h
    rw [List.length_cons, hpop]
    cases hstring : pair.1.string? with
    | some name =>
      rw [List.map_cons, List.find?_cons_of_neg (by simp [hstring])] at hodd
      exact ih (m := { m with stack }) hstack hrest hodd _
    | none =>
      rw [List.map_cons, List.find?_cons_of_pos (by simp [hstring])] at hodd
      rw [Option.some.inj hodd]

/-! ## The instruction -/

/-- Pairs with strings for keys are replaced by an object. -/
theorem buildObject_named (hlinked : m.stack.Linked)
    (h : m.stack.toList = pairOperands pairs.reverse ++ below)
    (hstrings : ∀ pair ∈ pairs, ∃ key, pair.1 = .string key) :
    ∃ (stack : OperandStack) (entries : List (String × Value)),
      m.buildObject pairs.length = .next { m with stack } ∧
        stack.toList = .value (.object entries) :: below ∧ BuiltFrom pairs entries := by
  obtain ⟨named, rfl⟩ := exists_named hstrings
  -- what comes off in reverse is put together in reverse again
  rw [← List.map_reverse] at h
  obtain ⟨stack, hstack, hbelow, hpop⟩ := popPairs_named named.reverse hlinked h []
  obtain ⟨entries, hentries, hbuilt⟩ := exists_builtFrom named
  refine ⟨stack.push (.value (.object entries)), entries, ?_, ?_, hbuilt⟩
  · rw [List.length_reverse, List.reverse_reverse, List.append_nil] at hpop
    rw [buildObject, List.length_map, hpop, ← hentries]
    rfl
  · rw [toList_push hstack, hbelow]

/-- Otherwise the last key that is not a string is refused. -/
theorem buildObject_odd (hlinked : m.stack.Linked)
    (h : m.stack.toList = pairOperands pairs.reverse ++ below) (hodd : oddKey? pairs = some key) :
    m.buildObject pairs.length = .fail m (.keyNotString key) := by
  have hpop := popPairs_odd pairs.reverse hlinked h hodd []
  rw [List.length_reverse] at hpop
  rw [buildObject, hpop]

/-- The nearest branch that recovers from a refused key goes on with the operands that it was left
behind with, and the wording of the fault above them. -/
theorem recovered_odd {p : Program} {start : Machine} {signals : Nat → Signals} {n : Nat}
    {newer older : List BranchPoint} {b : BranchPoint} {target : Nat} (hstart : start.Coherent)
    (hnone : start.branches = []) (hinterrupt : start.interrupt = none)
    (hrunning : (course p start signals n).finished = false)
    (hat : p.at? (course p start signals n).pc = some (.object pairs.length))
    (h : (course p start signals n).stack.toList = pairOperands pairs.reverse ++ below)
    (hodd : oddKey? pairs = some key)
    (hbranches : (course p start signals n).branches = newer ++ b :: older)
    (hnewer : ∀ c ∈ newer, handles p (.keyNotString key) c = false)
    (htarget : p.at? b.pc = some (.forkOpt target)) :
    ∃ d k m', Quiet p start signals n d ∧ outcome p start signals (n + d) = .running m' ∧
      Pending (course p start signals) k n b older ∧
      Recovered (course p start signals k) older target
        (.string (Fault.keyNotString key).message) m' := by
  have hlinked := (coherent_course hstart p signals n).stack.toLinked
  have hcalm : ((course p start signals n).withSignals (signals n)).interrupt = none :=
    (interrupt_course hstart p signals n).trans hinterrupt
  obtain ⟨ticks, hstep⟩ := step_eq_execute hcalm p (.object pairs.length)
  have hfail := hstep.trans (buildObject_odd
    (m := { (course p start signals n).withSignals (signals n) with ticks }) hlinked h hodd)
  have hsearches := searches_of_fail hstart hrunning hat hfail rfl
  rw [hbranches] at hsearches
  obtain ⟨d, e, hquiet, hsearches⟩ :=
    search_course hstart hnone hinterrupt (.zero p start signals n) hsearches hnewer
  -- however many operands had come off, the branch brings back those it was left behind with
  exact hsearches.recovered hstart hnone hinterrupt hquiet htarget rfl

/-- Building an object from the pairs on top of any stack. If all keys are strings, the object takes
the place of the pairs. If not, the last key that is not a string is refused, and the run that
recovers from this finds the operands as they were where it set up the recovery, with the wording of
the fault on top. -/
theorem object_construction (hlinked : m.stack.Linked)
    (h : m.stack.toList = pairOperands pairs.reverse ++ below) (p : Program) :
    ((∀ pair ∈ pairs, ∃ key, pair.1 = .string key) →
      ∃ (stack : OperandStack) (entries : List (String × Value)),
        m.execute p (.object pairs.length) = .next { m with stack } ∧
          stack.toList = .value (.object entries) :: below ∧ BuiltFrom pairs entries) ∧
      ((¬ ∀ pair ∈ pairs, ∃ key, pair.1 = .string key) → ∃ key, oddKey? pairs = some key ∧
        m.execute p (.object pairs.length) = .fail m (.keyNotString key) ∧
        ∀ idle settings input signals n newer b older target,
          m = course p (load idle settings input none) signals n → m.finished = false →
          p.at? m.pc = some (.object pairs.length) → m.branches = newer ++ b :: older →
          (∀ c ∈ newer, handles p (.keyNotString key) c = false) →
          p.at? b.pc = some (.forkOpt target) →
          ∃ d k m', Quiet p (load idle settings input none) signals n d ∧
            outcome p (load idle settings input none) signals (n + d) = .running m' ∧
            Pending (course p (load idle settings input none) signals) k n b older ∧
            Recovered (course p (load idle settings input none) signals k) older target
              (.string (Fault.keyNotString key).message) m') := by
  refine ⟨buildObject_named hlinked h, fun hnot => ?_⟩
  obtain ⟨key, hodd⟩ := exists_oddKey hnot
  refine ⟨key, hodd, buildObject_odd hlinked h hodd, ?_⟩
  rintro idle settings input signals n newer b older target rfl hrunning hat hbranches hnewer hb
  exact recovered_odd (coherent_load idle settings input none) rfl rfl hrunning hat h hodd hbranches
    hnewer hb

/-- Two pairs with the same key above another operand. -/
def collidingStack : OperandStack :=
  ((((RewindStack.empty.push (.value .null)).push (.value (.string "a"))).push
    (.value (.bool false))).push (.value (.string "a"))).push (.value (.bool true))

/-- A pair whose key is a number, below a recovery. -/
def refusingProgram : Program where
  name := "refusing"
  code := #[.scope 0 0, .forkOpt 5, .push (.int 5), .push .null, .object 1, .ret]
  functions := #[]
  lines := #[]
  natives := {}

/-- The run of `refusingProgram` after so many dispatches. -/
def refusingRun : Nat → Machine :=
  course refusingProgram (load {} {} .null none) fun _ => {}

/-- The pairs of `collidingStack` are built into an object, and the object of `refusingProgram` is
recovered from. -/
theorem object_construction_refusingProgram :
    let collision : List (Value × Value) := [(.string "a", .bool false), (.string "a", .bool true)]
    let refusal : List (Value × Value) := [(.int 5, .null)]
    collidingStack.toList = pairOperands collision.reverse ++ [.value .null] ∧
      (∃ (stack : OperandStack) (entries : List (String × Value)),
        execute { stack := collidingStack } refusingProgram (.object 2) = .next { stack } ∧
          stack.toList = [.value (.object entries), .value .null] ∧
          BuiltFrom collision entries) ∧
      (refusingRun 4).stack.toList = pairOperands refusal.reverse ++ [.value .null] ∧
      ∃ b d k m', outcome refusingProgram (load {} {} .null none) (fun _ => {}) (4 + d) =
          .running m' ∧
        Pending refusingRun k 4 b [] ∧
        Recovered (refusingRun k) [] 5 (.string (Fault.keyNotString (.int 5)).message) m' := by
  intro collision refusal
  have hlinked : collidingStack.Linked :=
    ((((Keeps.empty.toLinked.push _).push _).push _).push _).push _
  have hcollision : collidingStack.toList = pairOperands collision.reverse ++ [.value .null] := by
    simp [collidingStack, RewindStack.empty, push, nextCell, higher, toList, chain, chainFrom,
      pairOperands, collision]
  have hstrings : ∀ pair ∈ collision, ∃ key, pair.1 = .string key := by simp [collision]
  have hstack : (refusingRun 4).stack = ⟨#[⟨.value .null, none⟩, ⟨.value (.int 5), some 0⟩,
    ⟨.value .null, some 1⟩], some 2, some 0⟩ := rfl
  have hrefusal : (refusingRun 4).stack.toList =
      pairOperands refusal.reverse ++ [.value .null] := by
    rw [hstack]
    simp [toList, chain, chainFrom, pairOperands, refusal]
  have hnumber : ¬ ∀ pair ∈ refusal, ∃ key, pair.1 = .string key := by simp [refusal]
  have hrun := coherent_course (coherent_load {} {} .null none) refusingProgram (fun _ => {}) 4
  obtain ⟨key, hkey, -, hrecovered⟩ :=
    (object_construction hrun.stack.toLinked hrefusal refusingProgram).2 hnumber
  obtain rfl : .int 5 = key := Option.some.inj hkey
  obtain ⟨d, k, m', -, hrest⟩ := hrecovered {} {} .null (fun _ => {}) 4 [] _ [] 5 rfl rfl rfl rfl
    (List.forall_mem_nil _) rfl
  have hobject := (object_construction (m := { stack := collidingStack }) hlinked hcollision
    refusingProgram).1 hstrings
  exact ⟨hcollision, hobject, hrefusal, _, d, k, m', hrest⟩

end Machine
end QueryMachine
