import QueryMachine.Proofs.SelfEquality
import QueryMachine.Proofs.SoleScope

/-!
# Recorded paths are complete

A path expression that navigates by any sequence of indices and slices answers with the components
of all its steps, in order, or with the failure of the first step that fails. The one condition is
that no NaN lies in the value it starts from: the machine compares every value that it navigates
from with the one that the path has reached, and a NaN is not equal to itself.

* `Trail`: the path list, and the value that it has come to, after some steps;
* `goes_navigation`: what one step does to it;
* `goes_steps`: what all of them do, by induction on the steps;
* `goes_trailEnd`: the answer at the end.
-/

namespace QueryMachine

/-! ## Steps of navigation -/

/-- A step from a value to one inside it. -/
inductive NavigationStep where
  | index (key : Value)
  | slice (start stop : Value)

namespace NavigationStep

/-- Where the step leads. -/
def apply : NavigationStep → Value → Except NativeFailure Value
  | .index key, v => v.index key
  | .slice start stop, v => v.slice start stop

/-- What a path holds for the step. -/
def component : NavigationStep → Value
  | .index key => key
  | .slice start stop => .ofEntries [("start", start), ("end", stop)]

/-- The code of the step: the operands are put below the value, which is the input of the call as
well. -/
def code : NavigationStep → List Instruction
  | .index key => [.push key, .swap, .dup, .callNative 0 2]
  | .slice start stop => [.push start, .swap, .push stop, .swap, .dup, .callNative 1 3]

/-- The steps one after the other, up to the first that fails. -/
def applyAll (steps : List NavigationStep) (v : Value) : Except NativeFailure Value :=
  steps.foldlM (fun v step => step.apply v) v

theorem applyAll_cons (step : NavigationStep) (steps : List NavigationStep) (v : Value) :
    applyAll (step :: steps) v =
      match step.apply v with
      | .error failure => .error failure
      | .ok w => applyAll steps w := by
  rw [applyAll, List.foldlM_cons]
  cases step.apply v <;> rfl

theorem hasNaN_of_apply {step : NavigationStep} {v w : Value} (h : step.apply v = .ok w)
    (hw : w.HasNaN) : v.HasNaN := by
  cases step with
  | index key => exact hw.of_index h
  | slice start stop => exact hw.of_slice h

/-! ### Failing -/

section

variable {subject key start stop v : Value} {failure : NativeFailure}

theorem ofFailure_of_bound {default length : Nat}
    (h : Value.bound v default length = .error failure) :
    Fault.ofFailure failure = .native failure := by
  unfold Value.bound at h
  split at h
  · cases h
  · split at h
    · cases h
    · obtain rfl := Except.error.inj h
      rfl

theorem ofFailure_of_bounds {length : Nat}
    (h : Value.bounds start stop length = .error failure) :
    Fault.ofFailure failure = .native failure := by
  unfold Value.bounds at h
  split at h
  · rename_i hstart
    obtain rfl := Except.error.inj h
    exact ofFailure_of_bound hstart
  · split at h
    · rename_i hstop
      obtain rfl := Except.error.inj h
      exact ofFailure_of_bound hstop
    · cases h

theorem ofFailure_of_slice (h : subject.slice start stop = .error failure) :
    Fault.ofFailure failure = .native failure := by
  unfold Value.slice at h
  split at h
  · cases h
  · split at h
    · cases h
    · rename_i hbounds
      obtain rfl := Except.error.inj h
      exact ofFailure_of_bounds hbounds
  · dsimp only at h
    split at h
    · cases h
    · rename_i hbounds
      obtain rfl := Except.error.inj h
      exact ofFailure_of_bounds hbounds
  · obtain rfl := Except.error.inj h
    rfl

theorem ofFailure_of_index (h : subject.index key = .error failure) :
    Fault.ofFailure failure = .native failure := by
  unfold Value.index at h
  split at h
  · split at h
    · cases h
    · obtain rfl := Except.error.inj h
      rfl
  · cases h
  · exact ofFailure_of_slice h
  · split at h
    · cases h
    · obtain rfl := Except.error.inj h
      rfl
  · obtain rfl := Except.error.inj h
    rfl

/-- A failed step travels as a failure of its function, and not as a jump out of a label or a call
of a function that does not exist. -/
theorem ofFailure_of_apply {step : NavigationStep} (h : step.apply v = .error failure) :
    Fault.ofFailure failure = .native failure := by
  cases step with
  | index key => exact ofFailure_of_index h
  | slice start stop => exact ofFailure_of_slice h

end

/-! ### The native call of a step -/

/-- The arguments of the call. -/
def args : NavigationStep → Value → List Value
  | .index key, v => [v, key]
  | .slice start stop, v => [v, stop, start]

/-- The function that is called. -/
def native : NavigationStep → NativeId
  | .index _ => 0
  | .slice .. => 1

/-- How many instructions come before the call. -/
def lead : NavigationStep → Nat
  | .index _ => 3
  | .slice .. => 5

theorem length_code (step : NavigationStep) : step.code.length = step.lead + 1 := by
  cases step <;> rfl

theorem call_eq (step : NavigationStep) (input v : Value) :
    NativeTable.core.call step.native input (step.args v) = step.apply v := by
  unfold NativeTable.call NativeTable.resolve
  rw [NativeTable.get?_core]
  cases step <;> rfl

theorem subject_eq (step : NavigationStep) (v : Value) :
    (NativeTable.core.roleOf step.native).subject?.bind ((step.args v)[·]?) = some v := by
  rw [NativeTable.roleOf, NativeTable.get?_core]
  cases step <;> rfl

theorem component_eq (step : NavigationStep) (v : Value) :
    (NativeTable.core.roleOf step.native).component? (step.args v) = some step.component := by
  rw [NativeTable.roleOf, NativeTable.get?_core]
  cases step <;> rfl

/-! ### The component of a slice -/

/-- Indexing an array by the component of a slice is slicing it. Null and strings can be sliced as
well, but the component does not index them. -/
theorem index_component_of_slice {subject start stop v : Value}
    (h : subject.slice start stop = .ok v) :
    subject.index (component (.slice start stop)) =
      if subject.items?.isSome then .ok v else .error (Value.notIndexable subject) := by
  rw [component, Value.ofEntries_bounds]
  cases subject with
  | array items => exact h
  | null => rfl
  | string s => rfl
  | _ => cases h

/-- When the call that slices succeeds, the call that indexes by its component succeeds with the
same value for an array, and is refused for everything else that can be sliced. -/
theorem call_component_of_slice {input subject start stop v : Value}
    (h : NativeTable.core.call 1 input [subject, stop, start] = .ok v) :
    ∃ component, (NativeTable.core.roleOf 1).component? [subject, stop, start] = some component ∧
      NativeTable.core.call 0 input [subject, component] =
        if subject.items?.isSome then .ok v else .error (Value.notIndexable subject) := by
  have hslice : subject.slice start stop = .ok v :=
    (call_eq (.slice start stop) input subject).symm.trans h
  refine ⟨_, component_eq (.slice start stop) subject, ?_⟩
  rw [← index_component_of_slice hslice]
  exact call_eq (.index (component (.slice start stop))) input subject

/-- The last two of three items, and the component that finds them again. -/
theorem call_component_of_slice_tail :
    NativeTable.core.call 1 .null [.array #[.int 1, .int 2, .int 3], .null, .int (-2)] =
        .ok (.array #[.int 2, .int 3]) ∧
      ∃ component,
        (NativeTable.core.roleOf 1).component?
            [.array #[.int 1, .int 2, .int 3], .null, .int (-2)] = some component ∧
          NativeTable.core.call 0 .null [.array #[.int 1, .int 2, .int 3], component] =
            .ok (.array #[.int 2, .int 3]) := by
  have hslice : NativeTable.core.call 1 .null [.array #[.int 1, .int 2, .int 3], .null, .int (-2)] =
      .ok (.array #[.int 2, .int 3]) := call_eq (.slice (.int (-2)) .null) .null _
  exact ⟨hslice, call_component_of_slice hslice⟩

/-- Null has slices, but the component of a slice does not index it. -/
theorem null_not_indexed_by_component :
    ¬ ∀ input subject start stop v : Value,
      NativeTable.core.call 1 input [subject, stop, start] = .ok v →
        ∃ component w,
          (NativeTable.core.roleOf 1).component? [subject, stop, start] = some component ∧
            NativeTable.core.call 0 input [subject, component] = .ok w ∧ w.Alike v := by
  intro hback
  obtain ⟨_, w, hcomponent, hcall, -⟩ :=
    hback .null .null (.int 1) (.int 2) .null (call_eq (.slice (.int 1) (.int 2)) .null .null)
  obtain rfl :=
    Option.some.inj ((component_eq (.slice (.int 1) (.int 2)) .null).symm.trans hcomponent)
  have hindex : Value.null.index (component (.slice (.int 1) (.int 2))) = .ok w :=
    (call_eq (.index _) .null .null).symm.trans hcall
  rw [index_component_of_slice rfl] at hindex
  cases hindex

end NavigationStep

/-! ## Trails -/

/-- By these components the recorded path has come from its start to this value, in which there is
no NaN. -/
structure Trail (path : List Value) (v : Value) (records : List PlainRecord) : Prop where
  cut : cutPath [] records = some (path, [])
  reached : ∃ r rest, records = r :: rest ∧ r.value = v
  free : ¬ v.HasNaN

/-- Components that have been cut off already come after those that are still to be cut off. -/
theorem cutPath_eq (found : List Value) (records : List PlainRecord) :
    cutPath found records = (cutPath [] records).map fun cut => (cut.1 ++ found, cut.2) := by
  induction records generalizing found with
  | nil => rfl
  | cons r records ih =>
    cases r with
    | start v => rfl
    | step component v =>
      rw [cutPath, cutPath, ih (component :: found), ih [component], Option.map_map]
      congr 1
      funext cut
      simp

theorem Trail.start {v : Value} (hfree : ¬ v.HasNaN) : Trail [] v [.start v] :=
  ⟨rfl, ⟨_, _, rfl, rfl⟩, hfree⟩

theorem Trail.step {path : List Value} {v w : Value} {records : List PlainRecord}
    (h : Trail path v records) (component : Value) (hfree : ¬ w.HasNaN) :
    Trail (path ++ [component]) w (.step component w :: records) := by
  refine ⟨?_, ⟨_, _, rfl, rfl⟩, hfree⟩
  rw [cutPath, cutPath_eq, h.cut]
  rfl

/-- Without a NaN in it the value passes for where the path has come. -/
theorem Trail.exists_equal {path : List Value} {v : Value} {records : List PlainRecord}
    (h : Trail path v records) : ∃ r rest, records = r :: rest ∧ r.value.equal v = true := by
  obtain ⟨r, rest, hrecords, rfl⟩ := h.reached
  exact ⟨r, rest, hrecords, Value.equal_self_iff.mpr h.free⟩

namespace Program

variable {p : Program} {pc : Nat} {v w : Value} {vars : List Operand} {path : List Value}
  {records : List PlainRecord} {below : List Operand} {waiting : List Spot}
  {items : List (Except Fault Value)} {step : NavigationStep} {failure : NativeFailure}

/-! ## One step -/

theorem call_navigation (hnatives : p.natives = .core) (step : NavigationStep) (v : Value) :
    p.natives.call step.native v (step.args v) = step.apply v := by
  rw [hnatives, step.call_eq]

/-- The operands of a step are put in place. -/
theorem goes_lead (hcode : p.Has pc step.code)
    (h : p.at? (pc + step.lead) = some (.callNative step.native (step.args v).length) →
      p.Goes vars ⟨pc + step.lead, .value v :: ((step.args v).map .value ++ []), records⟩ waiting
        items) :
    p.Goes vars ⟨pc, [.value v], records⟩ waiting items := by
  cases step with
  | index key =>
    obtain ⟨hpush, hswap, hdup, hcall, -⟩ := hcode
    exact goes_push hpush (goes_swap hswap (goes_dup hdup (h hcall)))
  | slice start stop =>
    obtain ⟨hstart, hswap, hstop, hswap', hdup, hcall, -⟩ := hcode
    exact goes_push hstart (goes_swap hswap (goes_push hstop (goes_swap hswap'
      (goes_dup hdup (h hcall)))))

/-- A step from the value that the path has reached goes on with the path. -/
theorem goes_navigation (hcode : p.Has pc step.code) (hnatives : p.natives = .core)
    (hw : step.apply v = .ok w) (htrail : Trail path v records)
    (h : p.Goes vars ⟨pc + step.code.length, [.value w], .step step.component w :: records⟩ waiting
      items) :
    p.Goes vars ⟨pc, [.value v], records⟩ waiting items := by
  obtain ⟨r, rest, rfl, hself⟩ := htrail.exists_equal
  have hanswer := (call_navigation hnatives step v).trans hw
  rw [step.length_code] at h
  exact goes_lead hcode fun hcall => goes_call_step hcall hanswer (hnatives ▸ step.subject_eq v)
    (hnatives ▸ step.component_eq v) hself h

/-- A step from a value with a NaN in it does not. -/
theorem goes_navigation_astray (hcode : p.Has pc step.code) (hnatives : p.natives = .core)
    (hw : step.apply v = .ok w) (hnan : v.HasNaN)
    (h : p.Unwinds vars (some (.invalidPath v)) waiting items) :
    p.Goes vars ⟨pc, [.value v], [.start v]⟩ waiting items := by
  have hanswer := (call_navigation hnatives step v).trans hw
  exact goes_lead hcode fun hcall => goes_call_astray hcall hanswer (hnatives ▸ step.subject_eq v)
    (hnatives ▸ step.component_eq v) hnan.equal_self h

/-- A step that fails ends the path. -/
theorem goes_navigation_failure (hcode : p.Has pc step.code) (hnatives : p.natives = .core)
    (hw : step.apply v = .error failure)
    (h : p.Unwinds vars (some (.native failure)) waiting items) :
    p.Goes vars ⟨pc, [.value v], records⟩ waiting items := by
  have hanswer := (call_navigation hnatives step v).trans hw
  refine goes_lead hcode fun hcall => goes_call_failure hcall hanswer ?_
  rw [NavigationStep.ofFailure_of_apply hw]
  exact h

/-- The end of the path answers with the components of its steps. -/
theorem goes_trailEnd (hat : p.at? pc = some .pathEnd) (htrail : Trail path v records)
    (h : p.Goes vars ⟨pc + 1, .value (.array path.toArray) :: below, []⟩ waiting items) :
    p.Goes vars ⟨pc, .value v :: below, records⟩ waiting items := by
  obtain ⟨r, rest, rfl, hself⟩ := htrail.exists_equal
  exact goes_pathEnd hat htrail.cut hself h

/-! ## All steps -/

/-- The code of the steps takes the path along, or fails with the first step that does. -/
theorem goes_steps {steps : List NavigationStep}
    (hcode : p.Has pc (steps.flatMap (·.code))) (hnatives : p.natives = .core)
    (htrail : Trail path v records)
    (h : match NavigationStep.applyAll steps v with
      | .ok w => ∀ records, Trail (path ++ steps.map (·.component)) w records →
        p.Goes vars ⟨pc + (steps.flatMap (·.code)).length, [.value w], records⟩ waiting items
      | .error failure => p.Unwinds vars (some (.native failure)) waiting items) :
    p.Goes vars ⟨pc, [.value v], records⟩ waiting items := by
  induction steps generalizing pc v path records with
  | nil =>
    have hend : Trail (path ++ []) v records := by rwa [List.append_nil]
    exact h records hend
  | cons step steps ih =>
    rw [List.flatMap_cons, has_append] at hcode
    rw [NavigationStep.applyAll_cons] at h
    cases hw : step.apply v with
    | error failure =>
      rw [hw] at h
      exact goes_navigation_failure hcode.1 hnatives hw h
    | ok w =>
      have hfree : ¬ w.HasNaN := fun hnan => htrail.free (NavigationStep.hasNaN_of_apply hw hnan)
      rw [hw] at h
      refine goes_navigation hcode.1 hnatives hw htrail
        (ih hcode.2 (htrail.step step.component hfree) ?_)
      rw [List.append_assoc, Nat.add_assoc, ← List.length_append]
      exact h

/-- The program that answers with the path of these steps. -/
def pathOf (steps : List NavigationStep) : Program where
  name := "path"
  code := (.scope 0 0 :: .pathBegin :: (steps.flatMap (·.code) ++ [.pathEnd, .ret])).toArray
  functions := #[]
  lines := #[]
  natives := .core

/-- A path expression gives one item. That is the components of its steps if they all lead
somewhere, and the failure of the first that does not, as long as there is no NaN in the value it
starts from; with a NaN in it the value has no path. -/
theorem path_complete (steps : List NavigationStep) (v : Value) (idle : Machine)
    (settings : Settings) :
    (∀ w, NavigationStep.applyAll steps v = .ok w → ¬ v.HasNaN →
      (idle.load settings v none).GivesAll (pathOf steps)
        [.ok (.array (steps.map (·.component)).toArray)]) ∧
    (∀ w, NavigationStep.applyAll steps v = .ok w → v.HasNaN →
      (idle.load settings v none).GivesAll (pathOf steps) [.error (.invalidPath v)]) ∧
    (∀ failure, NavigationStep.applyAll steps v = .error failure → ¬ v.HasNaN →
      (idle.load settings v none).GivesAll (pathOf steps) [.error (.native failure)]) := by
  obtain ⟨hscope, hbegin, hrest⟩ := (pathOf steps).has_code
  obtain ⟨hsteps, hend, hret, -⟩ := has_append.mp hrest
  refine ⟨fun w hw hfree => ?_, fun w hw hnan => ?_, fun failure hfails hfree => ?_⟩
  · refine givesAll_of_goes hscope (goes_pathBegin hbegin
      (goes_steps hsteps rfl (.start hfree) ?_)) idle settings
    rw [hw]
    intro records htrail
    exact goes_trailEnd hend htrail (goes_ret hret rfl)
  · refine givesAll_of_goes hscope (goes_pathBegin hbegin ?_) idle settings
    -- the first comparison of the value with itself fails
    cases steps with
    | nil => exact goes_pathEnd_fault hend rfl hnan.equal_self rfl
    | cons step steps =>
      rw [List.flatMap_cons, has_append] at hsteps
      rw [NavigationStep.applyAll_cons] at hw
      cases hfirst : step.apply v with
      | error failure =>
        rw [hfirst] at hw
        cases hw
      | ok u => exact goes_navigation_astray hsteps.1 rfl hfirst hnan rfl
  · refine givesAll_of_goes hscope (goes_pathBegin hbegin
      (goes_steps hsteps rfl (.start hfree) ?_)) idle settings
    rw [hfails]
    rfl

/-- A field and a slice of it; an item of an array that holds a NaN; a field of a number. -/
theorem path_complete_navigating :
    (Machine.load {} {} (.object [("a", .array #[.null])]) none).GivesAll
        (pathOf [.index (.string "a"), .slice .null (.int 1)])
        [.ok (.array #[.string "a", .object [("end", .int 1), ("start", .null)]])] ∧
      (Machine.load {} {} (.array #[.float ⟨0x7ff8000000000000⟩]) none).GivesAll
        (pathOf [.index (.int 0)])
        [.error (.invalidPath (.array #[.float ⟨0x7ff8000000000000⟩]))] ∧
      (Machine.load {} {} (.int 5) none).GivesAll (pathOf [.index (.string "a")])
        [.error (.native (.runtime "expected an object but got: number (5)"))] := by
  have hfree : ∀ v : Value, v.equal v = true → ¬ v.HasNaN := fun v => Value.equal_self_iff.mp
  refine ⟨?_, ?_, ?_⟩
  · exact (path_complete _ _ {} {}).1 (.array #[.null]) rfl (hfree _ rfl)
  · exact (path_complete _ _ {} {}).2.1 (.float ⟨0x7ff8000000000000⟩) rfl
      (.item (Array.mem_singleton.mpr rfl) (.float rfl))
  · exact (path_complete _ _ {} {}).2.2 _ rfl (hfree _ rfl)

end Program
end QueryMachine
