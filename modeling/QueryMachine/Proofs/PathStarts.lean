import QueryMachine.Proofs.Backtracking
import QueryMachine.Proofs.Frames

/-!
# Where paths start

The start of a path is a cell of the path stack. It was written by the instruction that opened the
path, and nothing has written it since: `opens_course`. That is what makes this instruction the one
that belongs to the instruction that closes the path.
-/

namespace QueryMachine

open RewindStack

namespace Machine

variable {m m' : Machine} {p : Program} {i : Instruction}

/-! ## What a dispatch writes -/

/-- What becomes of the cells of the path stack: nothing, or a step is pushed, or an instruction
opens a path. -/
inductive Writes (p : Program) (m m' : Machine) : Prop where
  | none (h : m'.paths.cells = m.paths.cells)
  | step (component v : Value) (h : m'.paths.cells = (m.paths.push (.step component v)).cells)
  | start (v : Value) (hat : p.at? m.pc = some .pathBegin)
      (htop : m.stack.top? = some (.value v)) (hdepth : m'.pathDepth = some m.paths.nextCell)
      (h : m'.paths.cells = (m.paths.push (.start v m.pathDepth)).cells)

theorem Writes.of_paths (h : m'.paths = m.paths) : Writes p m m' :=
  .none (by rw [h])

/-- A return moves between activations and records no step. -/
theorem paths_leaveScope (m : Machine) : m.leaveScope.machine.paths = m.paths := by
  unfold leaveScope
  split
  · rfl
  · split
    · rfl
    · dsimp only
      split
      · split
        · rfl
        · rename_i hp
          exact (OperandsOnly.popValue hp).paths
      · rfl

theorem writes_of_inPlace (h : InPlace m m') : Writes p m m' := by
  rcases h.paths with heq | ⟨component, v, heq⟩
  · rcases heq with heq | heq
    · exact .none (by rw [heq])
    · exact .none (by rw [heq]; rfl)
  · rcases heq with heq | heq
    · exact .step component v (by rw [heq])
    · exact .step component v (by rw [heq, cells_push_freeze])

theorem writes_openPath (hat : p.at? m.pc = some .pathBegin) : Writes p m m.openPath.machine := by
  unfold openPath
  split
  · exact .none rfl
  · rename_i x htop
    cases x with
    | value v => exact .start v hat htop rfl rfl
    | closure pc scope => exact .none rfl
    | entries rest => exact .none rfl

theorem writes_closePath (m : Machine) : Writes p m m.closePath.machine := by
  unfold closePath
  split
  · exact .none rfl
  · split
    · exact .none rfl
    · rename_i hp
      have hpaths := (OperandsOnly.popValue hp).paths
      split
      · exact .none rfl
      · dsimp only
        split
        · rename_i hcut
          obtain ⟨cell, -, -, rfl⟩ := pop?_eq_some hcut
          exact .none (congrArg (·.cells) hpaths)
        · exact .none rfl

theorem writes_execute (hat : p.at? m.pc = some i) : Writes p m (m.execute p i).machine := by
  cases i with
  | scope => exact .none rfl
  | ret => exact .of_paths (paths_leaveScope m)
  | pathBegin => exact writes_openPath hat
  | pathEnd => exact writes_closePath m
  | _ => exact writes_of_inPlace (inPlace_execute p rfl)

theorem writes_step (hat : p.at? m.pc = some i) : Writes p m (m.step p i).machine := by
  rcases step_eq m p i with ⟨ticks, hstep⟩ | ⟨reason, -, hstep⟩
  · rw [hstep]
    rcases writes_execute (m := { m with ticks }) hat with
        h | ⟨component, v, h⟩ | ⟨v, hat, htop, hdepth, h⟩
    · exact .none h
    · exact .step component v h
    · exact .start v hat htop hdepth h
  · rw [hstep]
    exact .none rfl

theorem cells_unwind (m : Machine) : m.unwind.machine.paths.cells = m.paths.cells := by
  unfold unwind
  split <;> rfl

/-- A dispatch writes at most one record. -/
theorem writes_dispatch (p : Program) (m : Machine) : Writes p m (dispatch p m).machine := by
  rcases dispatch_cases p m with hover | ⟨e, he, hunwind⟩ | ⟨i, pc, resuming, -, hat, hnext⟩
  · rw [hover]
    exact .none rfl
  · rw [hunwind]
    exact .none ((cells_unwind e).trans (congrArg (·.cells) (ending?_untouched he).paths))
  · rw [hnext]
    rcases writes_step hat with h | ⟨component, v, h⟩ | ⟨v, hat, htop, hdepth, h⟩
    · exact .none h
    · exact .step component v h
    · exact .start v hat htop hdepth h

/-! ## The instruction that opened a path -/

/-- Dispatch `k` of a run opened a path at the value `base`. The cell `i` that it wrote has not
been written since, up to the machine after `n` dispatches. -/
structure Opens (p : Program) (run : Nat → Machine) (k n i : Nat) (base : Value) : Prop where
  lt : k < n
  instruction : p.at? (run k).pc = some .pathBegin
  top : (run k).stack.top? = some (.value base)
  depth : (run (k + 1)).pathDepth = some i
  record : ∃ outer below, ∀ j, k < j → j ≤ n →
    (run j).paths.cells[i]? = some ⟨.start base outer, below⟩

theorem Opens.succ {run : Nat → Machine} {k n i : Nat} {base : Value} (h : Opens p run k n i base)
    (hsame : (run (n + 1)).paths.cells[i]? = (run n).paths.cells[i]?) :
    Opens p run k (n + 1) i base := by
  obtain ⟨outer, below, hrecord⟩ := h.record
  refine { h with lt := Nat.lt_succ_of_lt h.lt, record := ⟨outer, below, ?_⟩ }
  intro j hj hle
  by_cases hlast : j = n + 1
  · rw [hlast, hsame]
    exact hrecord n h.lt (Nat.le_refl n)
  · exact hrecord j hj (by omega)

/-- Every start of a path comes from an instruction that opened it. -/
theorem opens_course (hstart : m.Coherent) (hempty : m.paths.cells = #[]) (p : Program)
    (signals : Nat → Signals) (n : Nat) :
    ∀ i base outer below,
      (course p m signals n).paths.cells[i]? = some ⟨.start base outer, below⟩ →
      ∃ k, Opens p (course p m signals) k n i base := by
  induction n with
  | zero =>
    intro i base outer below hcell
    rw [course, hempty] at hcell
    simp at hcell
  | succ n ih =>
    intro i base outer below hcell
    have hnext := (coherent_course hstart p signals n).paths.nextCell_le
    have hwrites := writes_dispatch p ((course p m signals n).withSignals (signals n))
    rw [← course] at hwrites
    -- a start whose cell is not written has been opened before
    have hstays : (course p m signals (n + 1)).paths.cells[i]? =
        (course p m signals n).paths.cells[i]? →
        ∃ k, Opens p (course p m signals) k (n + 1) i base := by
      intro hsame
      obtain ⟨k, hopens⟩ := ih i base outer below (hsame.symm.trans hcell)
      exact ⟨k, hopens.succ hsame⟩
    rcases hwrites with h | ⟨component, v, h⟩ | ⟨v, hat, htop, hdepth, h⟩
    · exact hstays (by rw [h])
    · by_cases hi : i = (course p m signals n).paths.nextCell
      · rw [h] at hcell
        rw [getElem?_push hnext, if_pos hi] at hcell
        simp at hcell
      · apply hstays
        rw [h]
        exact (getElem?_push hnext _ i).trans (if_neg hi)
    · by_cases hi : i = (course p m signals n).paths.nextCell
      -- the cell has just been written
      · have hnew : (course p m signals (n + 1)).paths.cells[i]? = _ :=
          (congrArg (·[i]?) h).trans ((getElem?_push hnext _ i).trans (if_pos hi))
        have hbase : v = base := by
          rw [hnew, Option.some.injEq, Cell.mk.injEq, PathRecord.start.injEq] at hcell
          exact hcell.1.1
        rw [hbase] at htop
        rw [← hi] at hdepth
        refine ⟨n, Nat.lt_succ_self n, hat, htop, hdepth, outer, below, ?_⟩
        intro j hj hle
        obtain rfl : j = n + 1 := by omega
        exact hcell
      · apply hstays
        rw [h]
        exact (getElem?_push hnext _ i).trans (if_neg hi)

end Machine
end QueryMachine
