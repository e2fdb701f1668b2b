import QueryMachine.Proofs.Instructions

/-!
# What most instructions leave alone

Four instructions enter or leave a scope, or open or close a path. All others work on the operands,
the registers and the pending call; beside that they may leave a branch behind, which freezes the
stacks, or record a step.

* `OperandsOnly`: the other two stacks are as they were, and what keeps them so;
* `inPlace_execute`: every instruction but those four stays in its scope and in its path.
-/

namespace QueryMachine

open RewindStack

/-- Whether an instruction neither moves between activations nor opens or closes a path. -/
def Instruction.staysInPlace : Instruction → Bool
  | .scope .. | .ret | .pathBegin | .pathEnd => false
  | _ => true

namespace Machine

variable {m m' m'' : Machine}

/-! ## Instructions on operands -/

/-- The recorded path and the activations are as they were. -/
structure OperandsOnly (m m' : Machine) : Prop where
  paths : m'.paths = m.paths
  scopes : m'.scopes = m.scopes

namespace OperandsOnly

theorem refl (m : Machine) : OperandsOnly m m :=
  ⟨rfl, rfl⟩

theorem trans (h : OperandsOnly m m') (h' : OperandsOnly m' m'') : OperandsOnly m m'' :=
  ⟨h'.paths.trans h.paths, h'.scopes.trans h.scopes⟩

/-! ### Popping -/

theorem popOperand {x : Operand} (hp : m.popOperand = .ok (x, m')) : OperandsOnly m m' := by
  obtain ⟨t, -, rfl⟩ := popOperand_eq_ok hp
  exact ⟨rfl, rfl⟩

theorem popValue {v : Value} (hp : m.popValue = .ok (v, m')) : OperandsOnly m m' :=
  popOperand (popValue_eq_ok hp)

theorem popPairs {count : Nat} {following pairs : List (String × Value)}
    (hp : m.popPairs following count = .ok (pairs, m')) : OperandsOnly m m' := by
  induction count generalizing m following with
  | zero =>
    rw [Machine.popPairs, Except.ok.injEq, Prod.mk.injEq] at hp
    rw [hp.2]
    exact refl m'
  | succ count ih =>
    rw [Machine.popPairs] at hp
    split at hp
    · cases hp
    · rename_i hv
      split at hp
      · cases hp
      · rename_i hkey
        exact ((popValue hv).trans (popValue hkey)).trans (ih hp)
      · cases hp

/-! ### Instructions -/

theorem dropTop (m : Machine) : OperandsOnly m m.dropTop.machine := by
  unfold Machine.dropTop
  split
  · exact refl m
  · rename_i hp
    exact popOperand hp

theorem duplicate (m : Machine) : OperandsOnly m m.duplicate.machine := by
  unfold Machine.duplicate
  split <;> exact ⟨rfl, rfl⟩

theorem exchange (m : Machine) : OperandsOnly m m.exchange.machine := by
  unfold Machine.exchange
  split
  · exact refl m
  · rename_i hx
    split
    · exact refl m
    · rename_i hy
      have hpop := (popOperand hx).trans (popOperand hy)
      exact ⟨hpop.paths, hpop.scopes⟩

theorem replaceTop (m : Machine) (v : Value) : OperandsOnly m (m.replaceTop v).machine := by
  unfold Machine.replaceTop
  split
  · exact refl m
  · rename_i hp
    exact { popOperand hp with }

theorem buildObject (m : Machine) (pairs : Nat) :
    OperandsOnly m (m.buildObject pairs).machine := by
  unfold Machine.buildObject
  split
  · exact refl m
  · rename_i hp
    exact { popPairs hp with }

theorem jumpUnless (m : Machine) (target : Nat) :
    OperandsOnly m (m.jumpUnless target).machine := by
  unfold Machine.jumpUnless
  split
  · exact refl m
  · rename_i hp
    split <;> exact popValue hp

theorem callClosure (m : Machine) : OperandsOnly m m.callClosure.machine := by
  unfold Machine.callClosure
  split
  · exact refl m
  · rename_i hp
    exact { popOperand hp with }
  · exact refl m

theorem loadVariable (m : Machine) (a : Address) :
    OperandsOnly m (m.loadVariable a).machine := by
  unfold Machine.loadVariable
  split <;> exact ⟨rfl, rfl⟩

theorem storeVariable (m : Machine) (a : Address) :
    OperandsOnly m (m.storeVariable a).machine := by
  unfold Machine.storeVariable
  split
  · exact refl m
  · split
    · exact refl m
    · rename_i hp
      exact { popOperand hp with }

theorem appendVariable (m : Machine) (a : Address) :
    OperandsOnly m (m.appendVariable a).machine := by
  unfold Machine.appendVariable
  split
  · exact refl m
  · split
    · exact refl m
    · rename_i hp
      split
      · exact { popValue hp with }
      · exact refl m
      · exact refl m

end OperandsOnly

/-! ## Instructions that stay in their scope and their path -/

/-- The recorded path `t` is `s`, perhaps frozen, with at most one more step. -/
inductive GoesOn (s t : RewindStack PathRecord) : Prop where
  | same (h : t = s ∨ t = s.freeze)
  | step (component v : Value)
      (h : t = s.push (.step component v) ∨ t = s.freeze.push (.step component v))

/-- The activations are as they were, or frozen, and at most one more step has been recorded. -/
structure InPlace (m m' : Machine) : Prop where
  scopes : m'.scopes = m.scopes ∨ m'.scopes = m.scopes.freeze
  paths : GoesOn m.paths m'.paths

theorem OperandsOnly.inPlace (h : OperandsOnly m m') : InPlace m m' :=
  ⟨.inl h.scopes, .same (.inl h.paths)⟩

namespace InPlace

theorem fork (m : Machine) (target : Nat) : InPlace m (m.fork target).machine := by
  unfold Machine.fork
  split
  · exact ⟨.inr rfl, .same (.inr rfl)⟩
  · split <;> exact ⟨.inl rfl, .same (.inl rfl)⟩

theorem forkOpt (m : Machine) (target : Nat) : InPlace m (m.forkOpt target).machine := by
  unfold Machine.forkOpt
  split
  · exact ⟨.inr rfl, .same (.inr rfl)⟩
  · split
    · exact ⟨.inl rfl, .same (.inl rfl)⟩
    · split <;> exact ⟨.inl rfl, .same (.inl rfl)⟩

theorem forkLabel (m : Machine) (label : String) : InPlace m (m.forkLabel label).machine := by
  unfold Machine.forkLabel
  split
  · exact ⟨.inr rfl, .same (.inr rfl)⟩
  · split <;> exact ⟨.inl rfl, .same (.inl rfl)⟩

/-- The entries that remain are left under a branch, which freezes the stacks. -/
theorem suspendEntries (m : Machine) (rest : List (Value × Value)) :
    ((m.suspendEntries rest).scopes = m.scopes ∧ (m.suspendEntries rest).paths = m.paths) ∨
      (m.suspendEntries rest).scopes = m.scopes.freeze ∧
        (m.suspendEntries rest).paths = m.paths.freeze := by
  unfold Machine.suspendEntries
  split
  · exact .inl ⟨rfl, rfl⟩
  · exact .inr ⟨rfl, rfl⟩

theorem visit (m : Machine) (key v : Value) :
    (m.visit key v).scopes = m.scopes ∧
      ((m.visit key v).paths = m.paths ∨ (m.visit key v).paths = m.paths.push (.step key v)) := by
  unfold Machine.visit
  dsimp only
  split
  · exact ⟨rfl, .inr rfl⟩
  · exact ⟨rfl, .inl rfl⟩

theorem iterate (m : Machine) : InPlace m m.iterate.machine := by
  unfold Machine.iterate
  split
  · exact (OperandsOnly.refl m).inPlace
  · split
    · exact (OperandsOnly.refl m).inPlace
    · rename_i x popped hp
      have hpop := OperandsOnly.popOperand hp
      split
      · exact (OperandsOnly.refl m).inPlace
      · exact hpop.inPlace
      · rename_i key v rest _
        -- the remaining entries are suspended before the next one is visited
        have hsuspended := suspendEntries { popped with resuming := false } rest
        generalize Machine.suspendEntries { popped with resuming := false } rest = suspended
          at hsuspended
        obtain ⟨hscopes, hpaths⟩ := visit suspended key v
        dsimp only [Effect.machine] at hsuspended ⊢
        rw [hpop.scopes, hpop.paths] at hsuspended
        rcases hsuspended with ⟨hs, ht⟩ | ⟨hs, ht⟩
        · refine ⟨.inl (hscopes.trans hs), ?_⟩
          rw [ht] at hpaths
          rcases hpaths with heq | heq
          · exact .same (.inl heq)
          · exact .step key v (.inl heq)
        · refine ⟨.inr (hscopes.trans hs), ?_⟩
          rw [ht] at hpaths
          rcases hpaths with heq | heq
          · exact .same (.inr heq)
          · exact .step key v (.inr heq)

theorem callNative (m : Machine) (table : NativeTable) (id : NativeId) (argc : Nat) :
    InPlace m (m.callNative table id argc).machine := by
  unfold Machine.callNative
  split
  · exact (OperandsOnly.refl m).inPlace
  · rename_i input args popped hp
    obtain ⟨t, rfl⟩ := popCall_eq_ok hp
    obtain ⟨signals, hcalled⟩ := tripFlag_eq { m with stack := t } table id argc
    rw [hcalled]
    dsimp only
    split
    · exact ⟨.inl rfl, .same (.inl rfl)⟩
    · rename_i output _
      split
      · exact ⟨.inl rfl, .same (.inl rfl)⟩
      · rename_i recorded hr
        rcases recordStep_eq_ok hr with rfl | ⟨-, component, rfl⟩
        · exact ⟨.inl rfl, .same (.inl rfl)⟩
        · exact ⟨.inl rfl, .step component output (.inl rfl)⟩

end InPlace

/-- Only four instructions do more. -/
theorem inPlace_execute (p : Program) {i : Instruction} (hi : i.staysInPlace = true) :
    InPlace m (m.execute p i).machine := by
  cases i with
  | nop | push | backtrack | jump | call | pushPc => exact ⟨.inl rfl, .same (.inl rfl)⟩
  | pop => exact (OperandsOnly.dropTop m).inPlace
  | dup => exact (OperandsOnly.duplicate m).inPlace
  | swap => exact (OperandsOnly.exchange m).inPlace
  | const v => exact (OperandsOnly.replaceTop m v).inPlace
  | load a => exact (OperandsOnly.loadVariable m a).inPlace
  | store a => exact (OperandsOnly.storeVariable m a).inPlace
  | append a => exact (OperandsOnly.appendVariable m a).inPlace
  | object pairs => exact (OperandsOnly.buildObject m pairs).inPlace
  | jumpIfNot target => exact (OperandsOnly.jumpUnless m target).inPlace
  | callPc => exact (OperandsOnly.callClosure m).inPlace
  | fork target => exact .fork m target
  | forkOpt target => exact .forkOpt m target
  | forkLabel label => exact .forkLabel m label
  | each => exact .iterate m
  | callNative id argc => exact .callNative m p.natives id argc
  | scope | ret | pathBegin | pathEnd => cases hi

end Machine
end QueryMachine
