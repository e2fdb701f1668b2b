import QueryMachine.Proofs.Navigation
import QueryMachine.Proofs.PlainMachine

/-!
# What recorded paths keep

The invariant behind the soundness of paths, on the machine without sharing:

* `Navigated`: every step of a path leads from the value below it to its own;
* `Waits`: so it is with the copies of every branch, and the entries of an interrupted iteration
  are still reached from the top of the path that comes back with them;
* `Steady`: going forward, no entries are left on the stack or in a register, so that an iteration
  always starts from a value.

Every instruction that leaves no branch behind keeps it, one lemma each.
-/

namespace QueryMachine

/-! ## Paths -/

/-- Every step leads from the value below it to its own. -/
inductive Navigated : List PlainRecord → Prop where
  | nil : Navigated []
  | start (v : Value) {rest : List PlainRecord} (h : Navigated rest) :
      Navigated (.start v :: rest)
  | step {component v : Value} {below : PlainRecord} {rest : List PlainRecord}
      (hform : component.WellFormed) (hlead : below.value.Leads component v)
      (h : Navigated (below :: rest)) : Navigated (.step component v :: below :: rest)

/-- Cutting a path leaves a path, and well-formed components. -/
theorem Navigated.cut {records rest : List PlainRecord} {found components : List Value}
    (h : Navigated records) (hfound : ∀ c ∈ found, c.WellFormed)
    (hcut : cutPath found records = some (components, rest)) :
    Navigated rest ∧ ∀ c ∈ components, c.WellFormed := by
  induction h generalizing found with
  | nil => cases hcut
  | start v h ih =>
    rw [cutPath, Option.some.injEq, Prod.mk.injEq] at hcut
    obtain ⟨rfl, rfl⟩ := hcut
    exact ⟨h, hfound⟩
  | step hform hlead h ih =>
    rw [cutPath] at hcut
    refine ih ?_ hcut
    intro c hc
    rcases List.mem_cons.mp hc with rfl | hc
    · exact hform
    · exact hfound c hc

/-- The entries of an iteration fit the path that is being recorded, if there is one. -/
structure Fits (paths : List PlainRecord) (entries : List (Value × Value)) : Prop where
  form : ∀ entry ∈ entries, entry.1.WellFormed ∧ entry.2.WellFormed
  lead : ∀ r, paths.head? = some r → ∀ entry ∈ entries, r.value.Leads entry.1 entry.2

/-! ## Operands -/

/-- What going forward finds on the stack and in registers: no entries. -/
def Operand.Proper : Operand → Prop
  | .value v => v.WellFormed
  | .closure .. => True
  | .entries _ => False

theorem Operand.Proper.gather {x : Operand} {v : Value} (hx : x.Proper) (hv : v.WellFormed) :
    (x.gather v).Proper := by
  unfold Operand.gather
  split
  · exact Value.WellFormed.push hx hv
  · exact hx

/-- A register that is read holds what all registers hold. -/
theorem proper_getD {registers : Array Operand} (h : ∀ x ∈ registers, x.Proper) (i : Nat) :
    (registers.getD i default).Proper := by
  rw [Array.getD_eq_getD_getElem?]
  cases hget : registers[i]? with
  | none => exact .null
  | some x => exact h x (Array.mem_of_getElem? hget)

namespace PlainMachine

/-! ## The invariant -/

/-- A continuation that the instruction at a position can take up. -/
inductive Waits (p : Program) (pc : Nat) (paths : List PlainRecord) (stack : List Operand) :
    Prop where
  | plain {i : Instruction} (hat : p.at? pc = some i) (hresume : i.isResumePoint = true)
      (hne : i ≠ .each) (hpaths : Navigated paths) (hstack : ∀ x ∈ stack, x.Proper)
  | each {entries : List (Value × Value)} {below : List Operand} (hat : p.at? pc = some .each)
      (hpaths : Navigated paths) (hstack : stack = .entries entries :: below)
      (hbelow : ∀ x ∈ below, x.Proper) (hfits : Fits paths entries)

/-- What outlives a continuation. -/
structure Stored (p : Program) (m : PlainMachine) : Prop where
  registers : ∀ x ∈ m.registers, x.Proper
  fault : ∀ fault, m.fault = some fault → fault.caught.WellFormed
  branches : ∀ b ∈ m.branches, Waits p b.pc b.paths b.stack

/-- The machine goes forward. -/
structure Steady (p : Program) (m : PlainMachine) : Prop extends Stored p m where
  forward : m.resuming = false
  stack : ∀ x ∈ m.stack, x.Proper
  paths : Navigated m.paths

/-- The state of a machine between two dispatches. -/
inductive Sound (p : Program) (m : PlainMachine) : Prop where
  | ended (h : m.finished = true)
  | forward (h : Steady p m)
  | waiting (h : Stored p m) (hresume : m.resuming = true) (hwait : Waits p m.pc m.paths m.stack)

end PlainMachine

open PlainMachine

/-- What an effect leaves to the run. -/
def PlainEffect.Sound (p : Program) : PlainEffect → Prop
  | .next m | .jump m _ => Steady p m
  | .stop m => Stored p m
  | .yield m _ => Steady p m ∧ p.at? m.pc = some .ret
  | .fail m fault => Stored p m ∧ fault.caught.WellFormed

/-- What an operation on the stack answers: something that satisfies `P`, and a machine that goes
on forward. -/
inductive Answers {α : Type} (p : Program) (P : α → Prop) : Except Fault (α × PlainMachine) → Prop
    where
  | error {fault : Fault} (h : fault.caught.WellFormed) : Answers p P (.error fault)
  | ok {a : α} {m : PlainMachine} (h : P a) (hm : Steady p m) : Answers p P (.ok (a, m))

namespace PlainMachine

variable {p : Program} {m : PlainMachine} {x : Operand} {v : Value} {i : Instruction}

/-! ## Pushing and popping -/

namespace Steady

theorem pushOperand (h : Steady p m) (hx : x.Proper) : Steady p (m.pushOperand x) where
  toStored := { h.toStored with }
  forward := h.forward
  stack := by
    intro y hy
    rcases List.mem_cons.mp hy with rfl | hy
    · exact hx
    · exact h.stack y hy
  paths := h.paths

theorem pushValue (h : Steady p m) (hv : v.WellFormed) : Steady p (m.pushValue v) :=
  h.pushOperand hv

theorem popOperand (h : Steady p m) : Answers p Operand.Proper m.popOperand := by
  unfold PlainMachine.popOperand
  split
  · rename_i x stack hstack
    have hproper := h.stack
    rw [hstack] at hproper
    refine .ok (hproper x List.mem_cons_self) ⟨{ h.toStored with }, h.forward, ?_, h.paths⟩
    exact fun y hy => hproper y (List.mem_cons_of_mem x hy)
  · exact .error (.string _)

theorem popValue (h : Steady p m) : Answers p Value.WellFormed m.popValue := by
  have hpop := h.popOperand
  unfold PlainMachine.popValue
  generalize m.popOperand = popped at hpop
  cases hpop with
  | error hfault => exact .error hfault
  | @ok x rest hx hrest =>
    cases x with
    | value v => exact .ok hx hrest
    | closure pc scope => exact .error (.string _)
    | entries entries => exact .error (.string _)

theorem popValues (h : Steady p m) (count : Nat) :
    Answers p (fun values => ∀ v ∈ values, v.WellFormed) (m.popValues count) := by
  induction count generalizing m with
  | zero => exact .ok (fun v hv => by cases hv) h
  | succ count ih =>
    have hpop := h.popValue
    rw [PlainMachine.popValues]
    generalize m.popValue = popped at hpop
    cases hpop with
    | error hfault => exact .error hfault
    | @ok v once hv honce =>
      have hpops := ih honce
      dsimp only
      generalize once.popValues count = popped at hpops
      cases hpops with
      | error hfault => exact .error hfault
      | ok hvalues hrest => exact .ok (List.forall_mem_cons.mpr ⟨hv, hvalues⟩) hrest

theorem popPairs (h : Steady p m) (count : Nat) {following : List (String × Value)}
    (hfollowing : ∀ pair ∈ following, pair.2.WellFormed) :
    Answers p (fun pairs => ∀ pair ∈ pairs, pair.2.WellFormed) (m.popPairs following count) := by
  induction count generalizing m following with
  | zero => exact .ok hfollowing h
  | succ count ih =>
    have hpop := h.popValue
    rw [PlainMachine.popPairs]
    generalize m.popValue = popped at hpop
    cases hpop with
    | error hfault => exact .error hfault
    | @ok v once hv honce =>
      have hkey := honce.popValue
      dsimp only
      generalize once.popValue = popped at hkey
      cases hkey with
      | error hfault => exact .error hfault
      | @ok key twice _ htwice =>
        cases key with
        | string key => exact ih htwice (List.forall_mem_cons.mpr ⟨hv, hfollowing⟩)
        | _ => exact .error (.string _)

end Steady

/-! ## Operand instructions -/

theorem sound_dropTop (h : Steady p m) : m.dropTop.Sound p := by
  have hpop := h.popOperand
  unfold dropTop
  generalize m.popOperand = popped at hpop
  cases hpop with
  | error hfault => exact ⟨h.toStored, hfault⟩
  | ok hx hrest => exact hrest

theorem sound_duplicate (h : Steady p m) : m.duplicate.Sound p := by
  unfold duplicate
  split
  · exact ⟨h.toStored, .string _⟩
  · rename_i x hx
    exact h.pushOperand (h.stack x (List.mem_of_head? hx))

theorem sound_exchange (h : Steady p m) : m.exchange.Sound p := by
  have hpop := h.popOperand
  unfold exchange
  generalize m.popOperand = popped at hpop
  cases hpop with
  | error hfault => exact ⟨h.toStored, hfault⟩
  | @ok x once hx honce =>
    have hpop := honce.popOperand
    dsimp only
    generalize once.popOperand = popped at hpop
    cases hpop with
    | error hfault => exact ⟨h.toStored, hfault⟩
    | ok hy htwice => exact (htwice.pushOperand hx).pushOperand hy

theorem sound_replaceTop (h : Steady p m) (hv : v.WellFormed) : (m.replaceTop v).Sound p := by
  have hpop := h.popOperand
  unfold replaceTop
  generalize m.popOperand = popped at hpop
  cases hpop with
  | error hfault => exact ⟨h.toStored, hfault⟩
  | ok hx hrest => exact hrest.pushValue hv

theorem sound_buildObject (h : Steady p m) (pairs : Nat) : (m.buildObject pairs).Sound p := by
  have hpop := h.popPairs pairs (List.forall_mem_nil _)
  unfold buildObject
  generalize m.popPairs [] pairs = popped at hpop
  cases hpop with
  | error hfault => exact ⟨h.toStored, hfault⟩
  | ok hentries hrest => exact hrest.pushValue (Value.wellFormed_ofEntries hentries)

theorem sound_jumpUnless (h : Steady p m) (target : Nat) : (m.jumpUnless target).Sound p := by
  have hpop := h.popValue
  unfold jumpUnless
  generalize m.popValue = popped at hpop
  cases hpop with
  | error hfault => exact ⟨h.toStored, hfault⟩
  | ok _ hrest =>
    dsimp only
    split
    · exact hrest
    · exact hrest

/-! ## Scopes, calls and variables -/

theorem sound_callClosure (h : Steady p m) : m.callClosure.Sound p := by
  have hpop := h.popOperand
  unfold callClosure
  generalize m.popOperand = popped at hpop
  cases hpop with
  | error hfault => exact ⟨h.toStored, hfault⟩
  | @ok x rest _ hrest =>
    cases x with
    | closure target scope => exact { hrest with }
    | value v => exact ⟨h.toStored, .string _⟩
    | entries entries => exact ⟨h.toStored, .string _⟩

theorem sound_enterScope (h : Steady p m) (id : ScopeId) (slots programLength : Nat) :
    (m.enterScope id slots programLength).Sound p := by
  refine { h with registers := fun x hx => ?_ }
  change x ∈ Machine.growRegisters m.registers (m.offset + slots) at hx
  unfold Machine.growRegisters at hx
  split at hx
  · rcases Array.mem_append.mp hx with hold | hnew
    · exact h.registers x hold
    · rw [(Array.mem_replicate.mp hnew).2]
      exact .null
  · exact h.registers x hx

theorem pc_of_popValue (m : PlainMachine) :
    ∀ v rest, m.popValue = .ok (v, rest) → rest.pc = m.pc := by
  intro v rest h
  unfold popValue popOperand at h
  cases hstack : m.stack with
  | nil => simp [hstack] at h
  | cons x stack =>
    cases x with
    | value w =>
      simp only [hstack, Operand.toValue, Except.ok.injEq, Prod.mk.injEq] at h
      rw [← h.2]
    | _ => simp [hstack, Operand.toValue] at h

theorem sound_leaveScope (h : Steady p m) (hat : p.at? m.pc = some .ret) :
    m.leaveScope.Sound p := by
  unfold leaveScope
  split
  · exact h.toStored
  · split
    · exact ⟨h.toStored, .string _⟩
    · dsimp only
      split
      · have hpop := h.popValue
        have hpc := pc_of_popValue m
        generalize m.popValue = popped at hpop hpc
        cases hpop with
        | error hfault => exact ⟨{ h.toStored with }, hfault⟩
        | @ok v rest _ hrest =>
          -- the run waits at the same instruction for the next pull
          have hret : p.at? rest.pc = some .ret := by
            rw [hpc v rest rfl]
            exact hat
          exact ⟨{ hrest with }, hret⟩
      · exact { h with }

theorem fault_of_register {a : Address} {fault : Fault} (h : m.register a = .error fault) :
    fault.caught.WellFormed := by
  unfold register at h
  split at h
  · obtain rfl := Except.error.inj h
    exact .string _
  · dsimp only at h
    split at h
    · cases h
    · obtain rfl := Except.error.inj h
      exact .string _

theorem sound_loadVariable (h : Steady p m) (a : Address) : (m.loadVariable a).Sound p := by
  unfold loadVariable
  split
  · rename_i hfault
    exact ⟨h.toStored, fault_of_register hfault⟩
  · exact h.pushOperand (proper_getD h.registers _)

theorem sound_storeVariable (h : Steady p m) (a : Address) : (m.storeVariable a).Sound p := by
  unfold storeVariable
  split
  · rename_i hfault
    exact ⟨h.toStored, fault_of_register hfault⟩
  · rename_i place _
    have hpop := h.popOperand
    generalize m.popOperand = popped at hpop
    cases hpop with
    | error hfault => exact ⟨h.toStored, hfault⟩
    | @ok x rest hx hrest =>
      refine { hrest with registers := fun y hy => ?_ }
      rcases Array.mem_or_eq_of_mem_setIfInBounds hy with hold | rfl
      · exact hrest.registers y hold
      · exact hx

theorem sound_appendVariable (h : Steady p m) (a : Address) : (m.appendVariable a).Sound p := by
  unfold appendVariable
  split
  · rename_i hfault
    exact ⟨h.toStored, fault_of_register hfault⟩
  · rename_i place _
    have hpop := h.popValue
    generalize m.popValue = popped at hpop
    cases hpop with
    | error hfault => exact ⟨h.toStored, hfault⟩
    | @ok v rest hv hrest =>
      dsimp only
      split
      · refine { hrest with registers := fun y hy => ?_ }
        obtain ⟨i, hi, rfl⟩ := Array.mem_iff_getElem.mp hy
        rw [Array.size_modify] at hi
        rw [Array.getElem_modify]
        have hold := hrest.registers _ (Array.getElem_mem hi)
        split
        · exact hold.gather hv
        · exact hold
      · exact ⟨h.toStored, .string _⟩
      · exact ⟨h.toStored, .string _⟩

/-! ## Recorded paths -/

theorem sound_openPath (h : Steady p m) : m.openPath.Sound p := by
  unfold openPath
  split
  · exact ⟨h.toStored, .string _⟩
  · rename_i x hx
    have hproper := h.stack x (List.mem_of_head? hx)
    cases x with
    | value v => exact { h with paths := .start v h.paths }
    | closure pc scope => exact ⟨h.toStored, .string _⟩
    | entries entries => exact ⟨h.toStored, .string _⟩

theorem sound_closePath (h : Steady p m) : m.closePath.Sound p := by
  unfold closePath
  split
  · exact ⟨h.toStored, .string _⟩
  · rename_i components paths hcut
    obtain ⟨hpaths, hcomponents⟩ := h.paths.cut (List.forall_mem_nil _) hcut
    have hpop := h.popValue
    generalize m.popValue = popped at hpop
    cases hpop with
    | error hfault => exact ⟨h.toStored, hfault⟩
    | @ok v rest _ hrest =>
      dsimp only
      split
      · exact ⟨h.toStored, .string _⟩
      · have hclosed : Steady p { rest with paths } := { hrest with paths := hpaths }
        refine hclosed.pushValue (.array fun c hc => hcomponents c ?_)
        exact List.mem_toArray.mp hc

/-! ## Native calls -/

theorem Steady.popCall (h : Steady p m) (argc : Nat) {input : Value} {args : List Value}
    {rest : PlainMachine} (hp : m.popCall argc = .ok (input, args, rest)) :
    input.WellFormed ∧ (∀ arg ∈ args, arg.WellFormed) ∧ Steady p rest := by
  have hpop := h.popValue
  unfold PlainMachine.popCall at hp
  generalize m.popValue = popped at hpop hp
  cases hpop with
  | error hfault => cases hp
  | @ok v once hv honce =>
    have hpops := honce.popValues argc
    dsimp only at hp
    generalize once.popValues argc = popped at hpops hp
    cases hpops with
    | error hfault => cases hp
    | ok hvalues hrest =>
      rw [Except.ok.injEq, Prod.mk.injEq, Prod.mk.injEq] at hp
      obtain ⟨rfl, rfl, rfl⟩ := hp
      exact ⟨hv, hvalues, hrest⟩

theorem fault_of_popCall (h : Steady p m) {argc : Nat} {fault : Fault}
    (hp : m.popCall argc = .error fault) : fault.caught.WellFormed := by
  have hpop := h.popValue
  unfold PlainMachine.popCall at hp
  generalize m.popValue = popped at hpop hp
  cases hpop with
  | error hfault =>
    obtain rfl := Except.error.inj hp
    exact hfault
  | @ok v once hv honce =>
    have hpops := honce.popValues argc
    dsimp only at hp
    generalize once.popValues argc = popped at hpops hp
    cases hpops with
    | error hfault =>
      obtain rfl := Except.error.inj hp
      exact hfault
    | ok hvalues hrest => cases hp

/-- A path may only be extended from the value that it has reached. -/
theorem alike_of_isReached (h : m.isReached v = true) {r : PlainRecord}
    (hr : m.paths.head? = some r) : r.value.Alike v := by
  unfold isReached at h
  rw [hr] at h
  exact .inr h

end PlainMachine

/-! ## Programs -/

/-- The constants of the program are well-formed, and so is what its natives make of well-formed
values. -/
structure Program.KeepsForm (p : Program) : Prop where
  push : ∀ pc v, p.at? pc = some (.push v) → v.WellFormed
  const : ∀ pc v, p.at? pc = some (.const v) → v.WellFormed
  natives : p.natives.KeepsForm

/-- No function of the table navigates but the core ones. -/
def NativeTable.CoreNavigation (t : NativeTable) : Prop :=
  ∀ native ∈ t.entries, native.role ≠ .plain → native = .index ∨ native = .slice

/-- The core natives navigate with an index or a slice. -/
theorem coreNavigation_core : NativeTable.core.CoreNavigation := by
  intro native hnative hrole
  have hcore := NativeTable.mem_core hnative
  simp only [Native.core, List.mem_cons, List.not_mem_nil, or_false] at hcore
  rcases hcore with rfl | rfl | rfl | rfl | rfl
  · exact .inl rfl
  · exact .inr rfl
  · exact absurd rfl hrole
  · exact absurd rfl hrole
  · exact absurd rfl hrole

namespace PlainMachine

variable {p : Program} {m : PlainMachine} {x : Operand} {v : Value} {i : Instruction}

/-- The core natives record the step that they take. -/
theorem leads_of_run {native : Native} (hcore : native = .index ∨ native = .slice)
    {input output subject component : Value} {args : List Value}
    (hargs : ∀ arg ∈ args, arg.WellFormed) (hrun : native.run input args = .ok output)
    (hsubject : native.role.subject?.bind (args[·]?) = some subject)
    (hcomponent : native.role.component? args = some component) :
    component.WellFormed ∧ subject.Leads component output := by
  rcases hcore with rfl | rfl
  · match args, hsubject, hcomponent with
    | s :: key :: rest, hsubject, hcomponent =>
      obtain rfl := Option.some.inj hsubject
      obtain rfl := Option.some.inj hcomponent
      exact ⟨hargs key (by simp), Value.leads_of_index hrun⟩
  · match args, hsubject, hcomponent with
    | s :: stop :: start :: rest, hsubject, hcomponent =>
      obtain rfl := Option.some.inj hsubject
      obtain rfl := Option.some.inj hcomponent
      refine ⟨Value.wellFormed_ofEntries ?_, Value.leads_of_slice hrun⟩
      intro pair hpair
      simp only [List.mem_cons, List.not_mem_nil, or_false] at hpair
      rcases hpair with rfl | rfl
      · exact hargs start (by simp)
      · exact hargs stop (by simp)

/-- What a native call answers is well-formed, and the step that it would record leads there. -/
theorem call_cases (hform : p.KeepsForm) (hroles : p.natives.CoreNavigation) (id : NativeId)
    {input : Value} {args : List Value} (hinput : input.WellFormed)
    (hargs : ∀ arg ∈ args, arg.WellFormed) :
    match p.natives.call id input args with
    | .error failure => (Fault.ofFailure failure).caught.WellFormed
    | .ok output => output.WellFormed ∧
      ∀ subject component, (p.natives.roleOf id).subject?.bind (args[·]?) = some subject →
        (p.natives.roleOf id).component? args = some component →
        component.WellFormed ∧ subject.Leads component output := by
  unfold NativeTable.call NativeTable.resolve NativeTable.roleOf
  cases hget : p.natives.get? id with
  | none => exact .string _
  | some native =>
    have hmem : native ∈ p.natives.entries := Array.mem_of_getElem? hget
    dsimp only [Option.elim_some]
    by_cases harity : args.length = native.arity
    · rw [if_pos harity]
      dsimp only
      have hkeeps := hform.natives native hmem input args hinput hargs
      cases hrun : native.run input args with
      | error failure =>
        rw [hrun] at hkeeps
        cases failure with
        | exit label => exact .string _
        | missing id => exact .string _
        | _ => exact hkeeps
      | ok output =>
        rw [hrun] at hkeeps
        refine ⟨hkeeps, ?_⟩
        intro subject component hsubject hcomponent
        -- a plain function records no step
        have hrole : native.role ≠ .plain := by
          intro hplain
          rw [hplain] at hsubject
          cases hsubject
        exact leads_of_run (hroles native hmem hrole) hargs hrun hsubject hcomponent
    · rw [if_neg harity]
      exact .string _

/-- A step that leads from the navigated argument leads from the end of the path. -/
theorem Steady.recordStep (h : Steady p m) {role : Role} {args : List Value} {output : Value}
    (hstep : ∀ subject component, role.subject?.bind (args[·]?) = some subject →
      role.component? args = some component →
      component.WellFormed ∧ subject.Leads component output) :
    match m.recordStep role args output with
    | .error fault => fault.caught.WellFormed
    | .ok recorded => Steady p recorded := by
  unfold PlainMachine.recordStep
  cases hpaths : m.paths with
  | nil =>
    rw [if_pos (by simp [tracksPath, hpaths])]
    exact h
  | cons r rest =>
    rw [if_neg (by simp [tracksPath, hpaths])]
    have hnavigated := h.paths
    rw [hpaths] at hnavigated
    generalize role.subject?.bind (args[·]?) = subject at hstep
    generalize role.component? args = component at hstep
    cases subject with
    | none => exact h
    | some subject =>
      cases component with
      | none => exact h
      | some component =>
        obtain ⟨hform, hlead⟩ := hstep subject component rfl rfl
        dsimp only
        by_cases hreached : m.isReached subject
        · rw [if_pos hreached]
          -- the step goes on from the end of the path
          have halike := alike_of_isReached hreached (by rw [hpaths]; rfl)
          exact { h with paths := .step hform (hlead.of_alike halike) hnavigated }
        · rw [if_neg hreached]
          exact .string _

theorem sound_callNative (h : Steady p m) (hform : p.KeepsForm) (hroles : p.natives.CoreNavigation)
    (id : NativeId) (argc : Nat) : (m.callNative p.natives id argc).Sound p := by
  unfold callNative
  cases hp : m.popCall argc with
  | error fault => exact ⟨h.toStored, fault_of_popCall h hp⟩
  | ok popped =>
    obtain ⟨input, args, popped⟩ := popped
    obtain ⟨hinput, hargs, hpopped⟩ := h.popCall argc hp
    have hcalled : Steady p (popped.tripFlag p.natives id argc) := by
      unfold tripFlag
      split
      · exact { hpopped with }
      · exact hpopped
    have hcall := call_cases hform hroles id hinput hargs
    dsimp only
    generalize popped.tripFlag p.natives id argc = called at hcalled
    generalize p.natives.call id input args = answer at hcall
    cases answer with
    | error failure => exact ⟨hcalled.toStored, hcall⟩
    | ok output =>
      have hrecord := hcalled.recordStep hcall.2
      dsimp only
      generalize called.recordStep (p.natives.roleOf id) args output = recorded at hrecord
      cases recorded with
      | error fault => exact ⟨hcalled.toStored, hrecord⟩
      | ok recorded => exact hrecord.pushValue hcall.1

end PlainMachine
end QueryMachine
