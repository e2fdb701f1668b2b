import QueryMachine.Machine.Run
import QueryMachine.Proofs.BuilderHistory
import QueryMachine.Proofs.NativeTables

/-!
# What a number stands for

A builder looks a name up when the call is added, and the machine looks the number up when the
call is carried out, after any number of further registrations: it finds the function that was
first registered under the name, and it has popped as many arguments as that function takes
(`identities_permanent`).

`Machine.callDirectly` is a native call that knows its function. It has no table to look into, so
an instruction that does the same cannot fail for the table's sake.
-/

namespace QueryMachine

/-! ## Calls -/

namespace Machine

variable {m m' : Machine} {native : Native}

/-- A native call that knows its function: the input and as many arguments as the function takes
are popped, and the function is called with them. -/
def callDirectly (m : Machine) (native : Native) : Effect :=
  match m.popCall native.arity with
  | .error fault => .fail m fault
  | .ok (input, args, popped) =>
    let called := { popped with signals := popped.signals.raise? native.trips }
    match native.run input args with
    | .error failure => .fail called (.ofFailure failure)
    | .ok output =>
      match called.recordStep native.role args output with
      | .error fault => .fail called fault
      | .ok recorded => .next (recorded.pushValue output)

theorem length_popValues {count : Nat} {values : List Value}
    (hp : m.popValues count = .ok (values, m')) : values.length = count := by
  induction count generalizing m values with
  | zero =>
    cases hp
    rfl
  | succ count ih =>
    rw [popValues] at hp
    split at hp
    · cases hp
    · split at hp
      · cases hp
      · rename_i rest last hrest
        cases hp
        rw [List.length_cons, ih hrest]

theorem length_popCall {argc : Nat} {input : Value} {args : List Value}
    (hp : m.popCall argc = .ok (input, args, m')) : args.length = argc := by
  unfold popCall at hp
  split at hp
  · cases hp
  · split at hp
    · cases hp
    · rename_i values last hvalues
      cases hp
      exact length_popValues hvalues

/-- With the right number of arguments a call through the table is a call of the function that the
number stands for. -/
theorem callNative_eq_callDirectly {table : NativeTable} {id : NativeId}
    (hget : table.get? id = some native) (m : Machine) :
    m.callNative table id native.arity = m.callDirectly native := by
  have hresolve : table.resolve id native.arity = .ok native := by
    rw [NativeTable.resolve, hget]
    exact if_pos rfl
  have hrole : table.roleOf id = native.role := by
    rw [NativeTable.roleOf, hget]
    rfl
  rw [callNative, callDirectly]
  cases hp : m.popCall native.arity with
  | error fault => rfl
  | ok taken =>
    obtain ⟨input, args, popped⟩ := taken
    have hcall : table.call id input args = native.run input args := by
      rw [NativeTable.call, length_popCall hp, hresolve]
    have hflag : popped.tripFlag table id native.arity =
        { popped with signals := popped.signals.raise? native.trips } := by
      rw [tripFlag, hresolve]
    cases hrun : native.run input args with
    | error failure => simp only [hflag, hcall, hrun]
    | ok output =>
      cases hrec : recordStep { popped with signals := popped.signals.raise? native.trips }
          native.role args output with
      | error fault => simp only [hflag, hcall, hrole, hrun, hrec]
      | ok recorded => simp only [hflag, hcall, hrole, hrun, hrec]

end Machine

/-! ## Builders -/

namespace Builder

/-- What can be asked of a builder that shares its table of natives with the host. -/
inductive Step where
  /-- A call that does not touch the table. -/
  | call (c : Call)
  /-- Register a function. -/
  | register (native : Native)
  /-- Add a call of the function of a name, if there is one. -/
  | emitNative (name : String)

/-- The builder after the step. -/
def Step.perform (b : Builder) : Step → Builder
  | .call c => c.perform b
  | .register native => (b.register native).1
  | .emitNative name => (b.emitNative? name).getD b

/-- The builder after a history of steps, the latest of them first. -/
def afterSteps (b : Builder) (steps : List Step) : Builder :=
  steps.foldr (fun step earlier => step.perform earlier) b

/-- The functions registered in a history, in the order of the registrations. -/
def registrations : List Step → List Native
  | [] => []
  | .register native :: earlier => registrations earlier ++ [native]
  | _ :: earlier => registrations earlier

variable {b : Builder} {steps before : List Step}

theorem afterSteps_cons (b : Builder) (step : Step) (steps : List Step) :
    b.afterSteps (step :: steps) = step.perform (b.afterSteps steps) := rfl

theorem natives_perform_call (b : Builder) (c : Call) : (c.perform b).natives = b.natives := by
  cases c <;> rfl

theorem natives_afterSteps (b : Builder) (steps : List Step) :
    (b.afterSteps steps).natives = b.natives.registerAll (registrations steps) := by
  induction steps with
  | nil => rfl
  | cons step steps ih =>
    rw [afterSteps_cons]
    cases step with
    | call c => exact (natives_perform_call _ c).trans ih
    | register native =>
      rw [registrations, NativeTable.registerAll_append, ← ih]
      rfl
    | emitNative name =>
      refine Eq.trans ?_ ih
      rw [Step.perform, emitNative?]
      split
      · rfl
      · cases NativeTable.arityOf? _ _ <;> rfl

theorem registrations_prefix (h : before <:+ steps) :
    registrations before <+: registrations steps := by
  obtain ⟨later, rfl⟩ := h
  induction later with
  | nil => exact List.prefix_refl _
  | cons step later ih =>
    cases step with
    | register native => exact ih.trans (List.prefix_append _ _)
    | call c => exact ih
    | emitNative name => exact ih

variable {name : String} {native : Native} {id : NativeId} {i argc : Nat} {given : List Native}

/-! ### Native calls in the code -/

theorem emitNative?_eq_none (h : b.natives.idOf? name = none) : b.emitNative? name = none := by
  rw [emitNative?, h]

theorem emitNative?_eq_some (hid : b.natives.idOf? name = some id)
    (hget : b.natives.get? id = some native) :
    b.emitNative? name = some (b.emit (.callNative id native.arity)) := by
  rw [emitNative?, hid]
  simp [NativeTable.arityOf?, hget]

/-- Adding an instruction does not overwrite another one. -/
theorem getElem?_code_emit_of_some {ins : Instruction} (h : b.code[i]? = some ins)
    (j : Instruction) : (b.emit j).code[i]? = some ins := by
  have hlt : i < b.pc := (Array.getElem?_eq_some_iff.mp h).1
  rw [getElem?_code_emit, if_neg hlt.ne, h]

/-- A native call has no target, so no patch through any label changes it. -/
theorem callNative_kept_bind (h : b.code[i]? = some (.callNative id argc)) (label : Label)
    (target : Nat) : (b.bind label target).code[i]? = some (.callNative id argc) := by
  rw [getElem?_code_bind, h]
  split <;> rfl

/-- A native call stays in the code as it was added. -/
theorem callNative_kept (h : b.code[i]? = some (.callNative id argc)) (step : Step) :
    (step.perform b).code[i]? = some (.callNative id argc) := by
  cases step with
  | call c =>
    cases c with
    | emit j => exact getElem?_code_emit_of_some h j
    | emitOpen j => exact getElem?_code_emit_of_some h j
    | bind label target => exact callNative_kept_bind h label target
    | bindHere label => exact callNative_kept_bind h label b.pc
    | setLine line => exact h
    | markFunction name => exact h
  | register native => exact h
  | emitNative name =>
    rw [Step.perform, emitNative?]
    split
    · exact h
    · cases NativeTable.arityOf? _ _ with
      | none => exact h
      | some argc' => exact getElem?_code_emit_of_some h _

theorem callNative_kept_afterSteps (hsuffix : before <:+ steps)
    (h : (b.afterSteps before).code[i]? = some (.callNative id argc)) :
    (b.afterSteps steps).code[i]? = some (.callNative id argc) := by
  obtain ⟨later, rfl⟩ := hsuffix
  induction later with
  | nil => exact h
  | cons step later ih => exact callNative_kept ih step

/-! ### Identity in the finished program -/

/-- The builder's table, when it was begun with the given registrations. -/
theorem holds_afterSteps (hb : b.natives = .registerAll {} given) (steps : List Step) :
    (b.afterSteps steps).natives.Holds (given ++ registrations steps) := by
  rw [natives_afterSteps, hb, ← NativeTable.registerAll_append]
  exact NativeTable.holds_registerAll _

/-- What was registered up to some step is the beginning of what was registered in the end. -/
theorem exists_later_registrations (given : List Native) (h : before <:+ steps) :
    ∃ later, given ++ registrations steps = (given ++ registrations before) ++ later := by
  obtain ⟨later, hlater⟩ := registrations_prefix h
  exact ⟨later, by rw [List.append_assoc, hlater]⟩

/-- If the numbers suffice in the end, they suffice all along. -/
theorem length_namesOf_le_of_suffix (h : before <:+ steps)
    (hroom : (NativeTable.namesOf (given ++ registrations steps)).length ≤ 65536) :
    (NativeTable.namesOf (given ++ registrations before)).length ≤ 65536 := by
  obtain ⟨later, hlater⟩ := exists_later_registrations given h
  rw [hlater] at hroom
  exact (NativeTable.namesOf_prefix _ later).length_le.trans hroom

/-- A number stands for the same function ever after. -/
theorem get?_kept (hb : b.natives = .registerAll {} given) (h : before <:+ steps)
    (hget : (b.afterSteps before).natives.get? id = some native) :
    (b.afterSteps steps).natives.get? id = some native := by
  obtain ⟨later, hlater⟩ := exists_later_registrations given h
  exact (holds_afterSteps hb before).get?_append (hlater ▸ holds_afterSteps hb steps) hget

/-- A registration answers the number that its name has in the end. -/
theorem register_answer_kept (hb : b.natives = .registerAll {} given)
    (hroom : (NativeTable.namesOf (given ++ registrations steps)).length ≤ 65536)
    (h : .register native :: before <:+ steps) :
    (b.afterSteps steps).natives.idOf? native.name =
      some ((b.afterSteps before).register native).2 := by
  have hsize := length_namesOf_le_of_suffix h hroom
  have hanswer := (b.afterSteps before).natives.register_answer native
  -- the answer is right at once, and what it stands for stays
  have hnext := holds_afterSteps hb (.register native :: before)
  obtain ⟨old, hget, hname⟩ :=
    Option.map_eq_some_iff.mp ((hnext.idOf?_eq_some_iff hsize).mp hanswer)
  rw [(holds_afterSteps hb steps).idOf?_eq_some_iff hroom]
  exact Option.map_eq_some_iff.mpr ⟨old, get?_kept hb h hget, hname⟩

/-- A native call that was added by name is in the finished program, with the number and the
arity of the function first registered under the name; and the number still stands for it. -/
theorem emitNative_kept (hb : b.natives = .registerAll {} given)
    (hroom : (NativeTable.namesOf (given ++ registrations steps)).length ≤ 65536)
    (h : .emitNative name :: before <:+ steps)
    (hfirst : NativeTable.first? (given ++ registrations before) name = some native) :
    ∃ id, (b.afterSteps steps).code[(b.afterSteps before).pc]? =
        some (.callNative id native.arity) ∧
      (b.afterSteps steps).natives.get? id = some native := by
  have hbefore : before <:+ steps := (List.suffix_cons _ before).trans h
  have hnow := holds_afterSteps hb before
  obtain ⟨id, hid⟩ : ∃ id, (b.afterSteps before).natives.idOf? name = some id := by
    rw [← Option.isSome_iff_exists, hnow.idOf?_isSome, hfirst]
    rfl
  obtain ⟨native', hget, -, hfirst'⟩ :=
    hnow.name_of_idOf? (length_namesOf_le_of_suffix hbefore hroom) hid
  obtain rfl : native = native' := Option.some.inj (hfirst.symm.trans hfirst')
  refine ⟨id, callNative_kept_afterSteps h ?_, get?_kept hb hbefore hget⟩
  rw [afterSteps_cons, Step.perform, emitNative?_eq_some hid hget, Option.getD_some,
    getElem?_code_emit, if_pos rfl]

/-- Names and numbers belong to each other for good. The given functions were registered before
the first step. -/
structure IdentitiesKept (given : List Native) (b : Builder) (steps : List Step) : Prop where
  /-- The numbers are dense and follow the order in which the names came first. -/
  numbered : ∀ id, (b.afterSteps steps).natives.nameOf? id =
    (NativeTable.namesOf (given ++ registrations steps))[id.toNat]?
  size : (b.afterSteps steps).natives.size =
    (NativeTable.namesOf (given ++ registrations steps)).length
  /-- Looking up a number and looking up a name undo each other. -/
  inverse : ∀ name id, (b.afterSteps steps).natives.idOf? name = some id ↔
    (b.afterSteps steps).natives.nameOf? id = some name
  known : ∀ name, ((b.afterSteps steps).natives.idOf? name).isSome ↔
    ∃ native ∈ given ++ registrations steps, native.name = name
  taken : ∀ id, ((b.afterSteps steps).natives.nameOf? id).isSome ↔
    id.toNat < (b.afterSteps steps).natives.size
  /-- Every registration answered the number that its name has in the end. -/
  answered : ∀ {native before}, .register native :: before <:+ steps →
    (b.afterSteps steps).natives.idOf? native.name = some ((b.afterSteps before).register native).2
  /-- Registering a name again changes nothing. -/
  again : ∀ {native before}, (∃ old ∈ given ++ registrations before, old.name = native.name) →
    ((b.afterSteps before).register native).1 = b.afterSteps before
  /-- A number stands for the same function ever after. -/
  permanent : ∀ {before id native}, before <:+ steps →
    (b.afterSteps before).natives.get? id = some native →
    (b.afterSteps steps).natives.get? id = some native
  /-- A call of an unknown name was not added. -/
  unknown : ∀ {name before},
    NativeTable.first? (given ++ registrations before) name = none →
    (b.afterSteps before).emitNative? name = none
  /-- A call of a known name is in the program, and it calls the function that was first
  registered under the name, without a look at the table and with as many arguments as it takes. -/
  called : ∀ {name before native}, .emitNative name :: before <:+ steps →
    NativeTable.first? (given ++ registrations before) name = some native →
    ∃ id, (b.afterSteps steps).build.at? (b.afterSteps before).pc =
        some (.callNative id native.arity) ∧
      (b.afterSteps steps).build.natives.resolve id native.arity = .ok native ∧
      ∀ m : Machine, m.execute (b.afterSteps steps).build (.callNative id native.arity) =
          m.callDirectly native ∧
        ∀ input args popped, m.popCall native.arity = .ok (input, args, popped) →
          args.length = native.arity

/-- As long as the numbers suffice, every name keeps its number and every number its function. The
builder may have begun with the empty table (nothing given), with the core natives, or with any
other registrations. -/
theorem identities_permanent (name : String) (given : List Native) (steps : List Step)
    (hroom : (NativeTable.namesOf (given ++ registrations steps)).length ≤ 65536) :
    IdentitiesKept given (withNatives name (.registerAll {} given)) steps := by
  generalize hstart : withNatives name (.registerAll {} given) = b
  have hb : b.natives = .registerAll {} given := by
    rw [← hstart]
    rfl
  have hholds := holds_afterSteps hb steps
  have hnumbered : ∀ id, (b.afterSteps steps).natives.nameOf? id =
      (NativeTable.namesOf (given ++ registrations steps))[id.toNat]? := by
    intro id
    rw [NativeTable.nameOf?_eq, hholds.names]
  constructor
  case numbered => exact hnumbered
  case size => exact hholds.size_eq
  case inverse => exact fun name id => hholds.idOf?_eq_some_iff hroom
  case known =>
    intro name
    rw [hholds.idOf?_isSome, NativeTable.first?_isSome, NativeTable.mem_namesOf]
  case taken =>
    intro id
    rw [hnumbered, hholds.size_eq]
    simp
  case answered => exact fun h => register_answer_kept hb hroom h
  case again =>
    intro native before hold
    have hknown := (holds_afterSteps hb before).idOf?_isSome.mpr
      (NativeTable.first?_isSome.mpr (NativeTable.mem_namesOf.mpr hold))
    obtain ⟨id, hid⟩ := Option.isSome_iff_exists.mp hknown
    rw [Builder.register, NativeTable.register_known hid]
  case permanent => exact fun h hget => get?_kept hb h hget
  case unknown =>
    intro name before hfirst
    refine emitNative?_eq_none ?_
    rw [← Option.not_isSome_iff_eq_none, (holds_afterSteps hb before).idOf?_isSome, hfirst]
    exact Bool.false_ne_true
  case called =>
    intro name before native h hfirst
    obtain ⟨id, hat, hget⟩ := emitNative_kept hb hroom h hfirst
    have hget' : (b.afterSteps steps).build.natives.get? id = some native := hget
    refine ⟨id, hat, ?_, ?_⟩
    · rw [NativeTable.resolve, hget']
      exact if_pos rfl
    · intro m
      exact ⟨Machine.callNative_eq_callDirectly hget' m, fun _ _ _ hp => Machine.length_popCall hp⟩

example (name : String) : new name = withNatives name (.registerAll {} Native.core) := rfl

/-- A core name is called after an attempt to register it for another function, and before a new
name is registered. -/
def typeShadowed : List Step :=
  [.register { name := "id", arity := 0, run := fun input _ => .ok input },
    .emitNative "type",
    .register { name := "type", arity := 3, role := .slice, run := fun _ _ => .ok .null }]

theorem identities_permanent_typeShadowed :
    (NativeTable.namesOf (Native.core ++ registrations typeShadowed)).length ≤ 65536 ∧
      IdentitiesKept Native.core (withNatives "shadowed" (.registerAll {} Native.core))
        typeShadowed := by
  have hroom :
      (NativeTable.namesOf (Native.core ++ registrations typeShadowed)).length ≤ 65536 := by
    decide
  exact ⟨hroom, identities_permanent "shadowed" Native.core typeShadowed hroom⟩

end Builder

end QueryMachine
