import QueryMachine.Proofs.Alike
import QueryMachine.Proofs.Configuration

/-!
# Instructions on machines that look alike

Every instruction has its own lemma: applied to machines that look alike, it has effects that look
alike, or it fails. Nothing is said of a handler, which only one of the programs has, and of the
call of a closure, which goes by the cell that the closure names.

* `alike_execute`: all of them.
-/

namespace QueryMachine

open RewindStack

namespace PlainMachine
namespace Alike

variable {p : Program} {a a' b : PlainMachine} {x y : Operand} {v : Value}

/-! ## Operand instructions -/

theorem dropTop (h : Alike p a b) : EffectAlike p a.dropTop b.dropTop := by
  unfold PlainMachine.dropTop
  split
  · exact .fail
  · rename_i hp
    obtain ⟨y, b', hy, -, halike⟩ := h.popOperand hp
    rw [hy]
    exact .next halike

theorem duplicate (h : Alike p a b) : EffectAlike p a.duplicate b.duplicate := by
  unfold PlainMachine.duplicate
  split
  · exact .fail
  · rename_i hx
    obtain ⟨y, hy, hxy⟩ := h.head? hx
    rw [hy]
    exact .next (h.pushOperand hxy)

theorem exchange (h : Alike p a b) : EffectAlike p a.exchange b.exchange := by
  unfold PlainMachine.exchange
  split
  · exact .fail
  · rename_i hx
    obtain ⟨x', b₁, hb₁, hxx, h₁⟩ := h.popOperand hx
    rw [hb₁]
    dsimp only
    split
    · exact .fail
    · rename_i hy
      obtain ⟨y', b₂, hb₂, hyy, h₂⟩ := h₁.popOperand hy
      rw [hb₂]
      exact .next ((h₂.pushOperand hxx).pushOperand hyy)

theorem replaceTop (h : Alike p a b) (v : Value) :
    EffectAlike p (a.replaceTop v) (b.replaceTop v) := by
  unfold PlainMachine.replaceTop
  split
  · exact .fail
  · rename_i hp
    obtain ⟨y, b', hy, -, halike⟩ := h.popOperand hp
    rw [hy]
    exact .next (halike.pushValue v)

theorem buildObject (h : Alike p a b) (pairs : Nat) :
    EffectAlike p (a.buildObject pairs) (b.buildObject pairs) := by
  unfold PlainMachine.buildObject
  split
  · exact .fail
  · rename_i hp
    obtain ⟨b', hb', halike⟩ := h.popPairs hp
    rw [hb']
    exact .next (halike.pushValue _)

theorem jumpUnless (h : Alike p a b) (target : Nat) :
    EffectAlike p (a.jumpUnless target) (b.jumpUnless target) := by
  unfold PlainMachine.jumpUnless
  split
  · exact .fail
  · rename_i condition _ hp
    obtain ⟨b', hb', halike⟩ := h.popValue hp
    rw [hb']
    dsimp only
    cases condition.isTruthy with
    | true => exact .next halike
    | false => exact .jump halike target

/-! ## Scopes, calls and variables -/

theorem callAt (h : Alike p a b) (target : Nat) :
    EffectAlike p (a.callAt target) (b.callAt target) := by
  have hcalling : Alike p { a with pendingCall := some ⟨a.pc, a.scopes.top⟩ }
      { b with pendingCall := some ⟨b.pc, b.scopes.top⟩ } :=
    { h with call := congrArg some h.pc }
  exact .jump hcalling target

theorem enterScope {q : Program} (h : Alike p a b) (ha : a.Orderly p) (hb : b.Orderly q)
    (hrooted : a.Rooted) (hrooted' : b.Rooted) (id : ScopeId) (slots length : Nat) :
    EffectAlike p (a.enterScope id slots length) (b.enterScope id slots length) := by
  have hreturn : (b.pendingCall.getD ⟨length, b.scopes.top⟩).returnPc =
      (a.pendingCall.getD ⟨length, a.scopes.top⟩).returnPc := by
    have hgetD : ∀ (o : Option PendingCall) (top : Option Nat),
        (o.getD ⟨length, top⟩).returnPc = (o.map (·.returnPc)).getD length :=
      fun o top => by cases o <;> rfl
    rw [hgetD, hgetD, h.call]
  unfold PlainMachine.enterScope
  dsimp only
  rw [ha.calleeScopes_eq, hb.calleeScopes_eq, hreturn, h.offset]
  refine .next { h with size := ?_, registers := ?_, offset := rfl, branches := ?_, frames := ?_,
                        call := rfl }
  · rw [Machine.growRegisters, Machine.growRegisters, h.size]
    split
    · rw [Array.size_append, Array.size_append, Array.size_replicate, h.size]
    · exact h.size
  · intro r
    rw [Machine.getD_growRegisters, Machine.getD_growRegisters, h.registers]
  · refine (List.map_congr_left fun c hc => alternative_push hrooted' _ hc).trans
      (h.branches.trans ?_)
    exact (List.map_congr_left fun c hc =>
      alternative_push hrooted _ (List.mem_filter.mp hc).1).symm
  · show QueryMachine.frames (b.scopes.push _) = QueryMachine.frames (a.scopes.push _)
    rw [frames_push hrooted.scopes.toLinked, frames_push hrooted'.scopes.toLinked, h.frames]
    rfl

theorem withScopes (h : Alike p a b) {s t : RewindStack Activation}
    (hs : s.cells = a.scopes.cells) (ht : t.cells = b.scopes.cells)
    (hframes : QueryMachine.frames t = QueryMachine.frames s) :
    Alike p { a with scopes := s } { b with scopes := t } :=
  { h with
    branches := by
      rw [alternatives, alternative_of_cells hs, alternative_of_cells ht]
      exact h.branches
    frames := hframes }

theorem leaveScope {q : Program} (h : Alike p a b) (ha : a.Orderly p) (hb : b.Orderly q)
    (hrooted : a.Rooted) (hrooted' : b.Rooted) : EffectAlike p a.leaveScope b.leaveScope := by
  have hframes := h.frames
  have hresumes : (b.resuming || b.fault.isSome) = (a.resuming || a.fault.isSome) := by
    rw [h.resuming, h.sound, h.sound']
  unfold PlainMachine.leaveScope
  rw [hresumes]
  split
  · exact .stop h
  · rcases ha.pop_cases hrooted with ⟨hnone, -⟩ | ⟨x, s, hpop, hs, hcells, hx, hempty⟩
    · rw [hnone]
      exact .fail
    rcases hb.pop_cases hrooted' with ⟨-, hnil⟩ | ⟨y, t, hpop', ht, hcells', hy, hempty'⟩
    · rw [hnil, hx] at hframes
      cases hframes
    rw [hx, hy, List.cons.injEq] at hframes
    obtain ⟨hxy, hbelow⟩ := hframes
    rw [hpop, hpop']
    dsimp only
    rw [hs, ht, hempty, hempty', hbelow, Activation.returnPc_congr hxy]
    split
    · split
      · exact .fail
      · rename_i v a' hp
        obtain ⟨b', hb', halike⟩ := h.popValue hp
        rw [hb']
        refine .yield (halike.withScopes ?_ ?_ hbelow) v
        · rw [hcells, (Undiverted.popValue hp).scopes]
        · rw [hcells', (Undiverted.popValue hb').scopes]
    · exact .jump (h.withScopes hcells hcells' hbelow) _

/-! ## Variables -/

theorem register (h : Alike p a b) (hrooted : a.Rooted) (hrooted' : b.Rooted) (v : Address) :
    b.register v = a.register v := by
  have haccept : ∀ x : Activation, (x.bare.scope == v.scope) = (x.scope == v.scope) := fun _ => rfl
  have hfound := find?_frames hrooted'.scopes.toLinked (·.scope == v.scope) haccept
  rw [h.frames, ← find?_frames hrooted.scopes.toLinked (·.scope == v.scope) haccept] at hfound
  unfold PlainMachine.register
  rw [h.size]
  cases ha : a.scopes.find? (·.scope == v.scope) with
  | none =>
    rw [ha, Option.map_none, Option.map_eq_none_iff] at hfound
    rw [hfound]
  | some x =>
    rw [ha, Option.map_some] at hfound
    obtain ⟨y, hy, hxy⟩ := Option.map_eq_some_iff.mp hfound
    rw [hy]
    dsimp only
    rw [Activation.base_congr hxy]

theorem loadVariable (h : Alike p a b) {v : Address} (hregister : b.register v = a.register v) :
    EffectAlike p (a.loadVariable v) (b.loadVariable v) := by
  unfold PlainMachine.loadVariable
  rw [hregister]
  split
  · exact .fail
  · exact .next (h.pushOperand (h.registers _))

theorem storeVariable (h : Alike p a b) {v : Address} (hregister : b.register v = a.register v) :
    EffectAlike p (a.storeVariable v) (b.storeVariable v) := by
  unfold PlainMachine.storeVariable
  rw [hregister]
  split
  · exact .fail
  · rename_i r hr
    split
    · exact .fail
    · rename_i x a' hp
      obtain ⟨y, b', hy, hxy, halike⟩ := h.popOperand hp
      have hlt : r < a'.registers.size := by
        obtain ⟨below, -, rfl⟩ := popOperand_eq_ok hp
        exact lt_size_of_register hr
      rw [hy]
      refine .next { halike with size := ?_, registers := ?_ }
      · rw [Array.size_setIfInBounds, Array.size_setIfInBounds, halike.size]
      · intro j
        rw [Machine.getD_setIfInBounds hlt, Machine.getD_setIfInBounds (halike.size ▸ hlt)]
        split
        · exact hxy
        · exact halike.registers j

theorem appendVariable (h : Alike p a b) {v : Address} (hregister : b.register v = a.register v) :
    EffectAlike p (a.appendVariable v) (b.appendVariable v) := by
  unfold PlainMachine.appendVariable
  rw [hregister]
  split
  · exact .fail
  · rename_i r hr
    split
    · exact .fail
    · rename_i w a' hp
      obtain ⟨b', hb', halike⟩ := h.popValue hp
      have hlt : r < a'.registers.size := by
        obtain ⟨below, -, rfl⟩ := popOperand_eq_ok (popValue_eq_ok hp)
        exact lt_size_of_register hr
      have hgathered := halike.registers r
      rw [hb']
      dsimp only
      split
      · rename_i items hitems
        rw [hitems] at hgathered
        rw [Operand.eq_of_bare_value hgathered]
        refine .next { halike with size := ?_, registers := ?_ }
        · rw [Array.size_modify, Array.size_modify, halike.size]
        · intro j
          rw [Machine.getD_modify hlt, Machine.getD_modify (halike.size ▸ hlt)]
          split
          · rw [Operand.gather_bare, Operand.gather_bare, halike.registers j]
          · exact halike.registers j
      · exact .fail
      · exact .fail

/-! ## Recorded paths -/

theorem isReached (h : Alike p a b) (v : Value) : b.isReached v = a.isReached v := by
  rw [PlainMachine.isReached, PlainMachine.isReached, h.paths]

theorem tracksPath (h : Alike p a b) : b.tracksPath = a.tracksPath := by
  rw [PlainMachine.tracksPath, PlainMachine.tracksPath, h.paths]

theorem withPaths (h : Alike p a b) (paths : List PlainRecord) :
    Alike p { a with paths } { b with paths } :=
  { h with paths := rfl }

theorem openPath (h : Alike p a b) : EffectAlike p a.openPath b.openPath := by
  unfold PlainMachine.openPath
  split
  · exact .fail
  · rename_i x hx
    obtain ⟨y, hy, hxy⟩ := h.head? hx
    rw [hy]
    dsimp only
    rw [Operand.toValue_congr hxy, h.paths]
    split
    · exact .fail
    · exact .next (h.withPaths _)

theorem closePath (h : Alike p a b) : EffectAlike p a.closePath b.closePath := by
  unfold PlainMachine.closePath
  rw [h.paths]
  split
  · exact .fail
  · split
    · exact .fail
    · rename_i v a' hp
      obtain ⟨b', hb', halike⟩ := h.popValue hp
      rw [hb']
      dsimp only
      rw [halike.isReached]
      split
      · exact .fail
      · exact .next ((halike.withPaths _).pushValue _)

/-! ## Native calls -/

theorem popCall (h : Alike p a b) {argc : Nat} {input : Value} {args : List Value}
    (hp : a.popCall argc = .ok (input, args, a')) :
    ∃ b', b.popCall argc = .ok (input, args, b') ∧ Alike p a' b' := by
  unfold PlainMachine.popCall at hp ⊢
  split at hp
  · cases hp
  · rename_i hv
    obtain ⟨b₁, hb₁, h₁⟩ := h.popValue hv
    split at hp
    · cases hp
    · rename_i hvalues
      obtain ⟨b', hb', halike⟩ := h₁.popValues hvalues
      rw [Except.ok.injEq, Prod.mk.injEq, Prod.mk.injEq] at hp
      obtain ⟨rfl, rfl, rfl⟩ := hp
      rw [hb₁]
      dsimp only
      rw [hb']
      exact ⟨b', rfl, halike⟩

theorem tripFlag (h : Alike p a b) (table : NativeTable) (id : NativeId) (argc : Nat) :
    Alike p (a.tripFlag table id argc) (b.tripFlag table id argc) := by
  unfold PlainMachine.tripFlag
  split
  · exact { h with }
  · exact h

theorem recordStep (h : Alike p a b) {role : Role} {args : List Value} {output : Value}
    (hr : a.recordStep role args output = .ok a') :
    ∃ b', b.recordStep role args output = .ok b' ∧ Alike p a' b' := by
  unfold PlainMachine.recordStep at hr ⊢
  rw [h.tracksPath]
  split at hr
  · rename_i htracks
    obtain rfl := Except.ok.inj hr
    rw [if_pos htracks]
    exact ⟨b, rfl, h⟩
  · rename_i htracks
    rw [if_neg htracks]
    split at hr
    · rw [h.isReached, h.paths]
      split at hr
      · rename_i hreached
        obtain rfl := Except.ok.inj hr
        rw [if_pos hreached]
        exact ⟨_, rfl, h.withPaths _⟩
      · cases hr
    · obtain rfl := Except.ok.inj hr
      exact ⟨b, rfl, h⟩

theorem callNative (h : Alike p a b) (table : NativeTable) (id : NativeId) (argc : Nat) :
    EffectAlike p (a.callNative table id argc) (b.callNative table id argc) := by
  unfold PlainMachine.callNative
  split
  · exact .fail
  · rename_i input args a₁ hp
    obtain ⟨b₁, hb₁, h₁⟩ := h.popCall hp
    have hcalled := h₁.tripFlag table id argc
    rw [hb₁]
    dsimp only
    split
    · exact .fail
    · split
      · exact .fail
      · rename_i output _ _ a' hr
        obtain ⟨b', hb', halike⟩ := hcalled.recordStep hr
        rw [hb']
        exact .next (halike.pushValue output)

/-! ## Branching -/

theorem pushBranch (h : Alike p a b) (kind : BranchKind) (hkept : p.handlesAt a.pc = false) :
    Alike p (a.pushBranch kind) (b.pushBranch kind) :=
  { h with
    branches := by
      have hfreeze : ∀ s : RewindStack Activation,
          PlainBranch.alternative s.freeze = PlainBranch.alternative s :=
        fun s => alternative_of_cells rfl
      have hnew : PlainBranch.alternative b.scopes
            ⟨b.pc, kind, b.stack, b.paths, b.scopes.savepoint⟩ =
          PlainBranch.alternative a.scopes ⟨a.pc, kind, a.stack, a.paths, a.scopes.savepoint⟩ := by
        have hframes : framesAt b.scopes b.scopes.top = framesAt a.scopes a.scopes.top := h.frames
        simp only [PlainBranch.alternative, savepoint, h.pc, h.stack, h.paths, hframes]
      simp only [alternatives, PlainMachine.pushBranch, hfreeze, List.map_cons]
      rw [List.filter_cons_of_pos (by simp [hkept]), List.map_cons, hnew, h.branches]
      rfl
    frames := (frames_freeze b.scopes).trans (h.frames.trans (frames_freeze a.scopes).symm) }

/-- The branch of a handler does not show. -/
theorem pushHandler (h : Alike p a b) (kind : BranchKind) (hhandler : p.handlesAt a.pc = true) :
    Alike p (a.pushBranch kind) b :=
  { h with
    branches := by
      have hfreeze : PlainBranch.alternative a.scopes.freeze = PlainBranch.alternative a.scopes :=
        alternative_of_cells rfl
      simp only [alternatives, PlainMachine.pushBranch, hfreeze]
      rw [List.filter_cons_of_neg (by simp [hhandler]), h.branches]
      rfl
    frames := h.frames.trans (frames_freeze a.scopes).symm }

/-- Both machines go forward again. -/
theorem goForward (h : Alike p a b) :
    Alike p { a with resuming := false } { b with resuming := false } :=
  { h with resuming := rfl }

theorem fork (h : Alike p a b) (target : Nat) (hkept : p.handlesAt a.pc = false) :
    EffectAlike p (a.fork target) (b.fork target) := by
  have hforward : (!b.resuming) = !a.resuming := by rw [h.resuming]
  unfold PlainMachine.fork
  rw [hforward]
  split
  · exact .next (h.pushBranch .fork hkept)
  · rw [if_neg (by simp [h.sound]), if_neg (by simp [h.sound'])]
    exact .jump h.goForward target

theorem entriesOf (h : Alike p a b) (hxy : y.bare = x.bare) : b.entriesOf y = a.entriesOf x := by
  cases x with
  | value v =>
    obtain rfl := Operand.eq_of_bare_value hxy
    rw [PlainMachine.entriesOf, PlainMachine.entriesOf, h.tracksPath, h.isReached]
  | closure pc scope =>
    cases y with
    | closure => rfl
    | value | entries => cases hxy
  | entries rest =>
    cases y with
    | entries =>
      cases hxy
      rfl
    | value | closure => cases hxy

theorem suspendEntries (h : Alike p a b) (rest : List (Value × Value))
    (hkept : p.handlesAt a.pc = false) :
    Alike p (a.suspendEntries rest) (b.suspendEntries rest) := by
  unfold PlainMachine.suspendEntries
  split
  · exact h
  · have hpush : Alike p (a.pushOperand (.entries rest)) (b.pushOperand (.entries rest)) :=
      h.pushOperand rfl
    exact { hpush.pushBranch .each hkept with stack := h.stack }

theorem visit (h : Alike p a b) (key v : Value) : Alike p (a.visit key v) (b.visit key v) := by
  unfold PlainMachine.visit
  rw [h.tracksPath, h.paths]
  split
  · exact (h.withPaths _).pushValue v
  · exact h.pushValue v

theorem iterate (h : Alike p a b) (hkept : p.handlesAt a.pc = false) :
    EffectAlike p a.iterate b.iterate := by
  unfold PlainMachine.iterate
  rw [if_neg (by simp [h.sound]), if_neg (by simp [h.sound'])]
  split
  · exact .fail
  · rename_i x a' hp
    obtain ⟨y, b', hy, hxy, halike⟩ := h.popOperand hp
    have hpc := (Undiverted.popOperand hp).pc
    rw [hy]
    dsimp only
    rw [halike.entriesOf hxy]
    split
    · exact .fail
    · exact .stop halike
    · rename_i key v rest _
      have hkept' : p.handlesAt a'.pc = false := by rw [hpc, hkept]
      exact .next ((halike.goForward.suspendEntries rest hkept').visit key v)

end Alike

/-! ## Instructions -/

variable {p : Program} {a b : PlainMachine} {i : Instruction}

/-- Unless it fails, every instruction but a handler and the call of a closure does the same to
machines that look alike. -/
theorem alike_execute {q : Program} (h : Alike p a b) (ha : a.Orderly p) (hb : b.Orderly q)
    (hrooted : a.Rooted) (hrooted' : b.Rooted) (hat : p.at? a.pc = some i)
    (hi : i.isHandler = false) (hne : i ≠ .callPc) :
    EffectAlike p (a.execute p i) (b.execute p.withoutHandlers i) := by
  have hkept : p.handlesAt a.pc = false := by
    rw [Program.handlesAt, hat]
    exact hi
  cases i with
  | nop => exact .next h
  | push v => exact .next (h.pushValue v)
  | pop => exact h.dropTop
  | dup => exact h.duplicate
  | swap => exact h.exchange
  | const v => exact h.replaceTop v
  | load v => exact h.loadVariable (h.register hrooted hrooted' v)
  | store v => exact h.storeVariable (h.register hrooted hrooted' v)
  | append v => exact h.appendVariable (h.register hrooted hrooted' v)
  | object pairs => exact h.buildObject pairs
  | fork target => exact h.fork target hkept
  | backtrack => exact .stop h
  | each => exact h.iterate hkept
  | jump target => exact .jump h target
  | jumpIfNot target => exact h.jumpUnless target
  | call target => exact h.callAt target
  | callNative id argc => exact h.callNative p.natives id argc
  | pushPc target => exact .next (h.pushOperand rfl)
  | scope id slots =>
    show EffectAlike p (a.enterScope id slots p.length)
      (b.enterScope id slots p.withoutHandlers.length)
    rw [Program.length_withoutHandlers]
    exact h.enterScope ha hb hrooted hrooted' id slots p.length
  | ret => exact h.leaveScope ha hb hrooted hrooted'
  | pathBegin => exact h.openPath
  | pathEnd => exact h.closePath
  | forkOpt | forkLabel => cases hi
  | callPc => exact absurd rfl hne

end PlainMachine
end QueryMachine
