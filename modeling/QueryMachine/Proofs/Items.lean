import QueryMachine.Machine.Run

/-!
# The items of a run

A host that pulls for long enough gets the next item, if there is one: `Gives`. `Pulled` numbers
the items that it gets one after the other.
-/

namespace QueryMachine

/-- Pulling on, unless there is an item already. -/
def Progress.pull (p : Program) : Progress → Nat → Progress
  | .running m, fuel => Machine.pull p m fuel
  | .done m item, _ => .done m item

theorem Progress.pull_zero (p : Program) (progress : Progress) :
    progress.pull p 0 = progress := by
  cases progress <;> rfl

namespace Machine

variable {p : Program} {m m' m'' : Machine} {item item' : Item} {fuel fuel' : Nat}

/-! ## Pulls in parts -/

theorem pull_succ (p : Program) (m : Machine) (fuel : Nat) :
    pull p m (fuel + 1) = (dispatch p m).pull p fuel := by
  rw [pull]
  cases dispatch p m <;> rfl

/-- A pull goes on where it paused. -/
theorem pull_add (h : pull p m fuel = .running m') (more : Nat) :
    pull p m (fuel + more) = pull p m' more := by
  induction fuel generalizing m with
  | zero =>
    rw [pull, Progress.running.injEq] at h
    rw [h, Nat.zero_add]
  | succ fuel ih =>
    rw [pull_succ] at h
    rw [Nat.add_right_comm, pull_succ]
    cases hd : dispatch p m with
    | running m₁ =>
      rw [hd] at h
      exact ih h
    | done m₁ item =>
      rw [hd] at h
      cases h

/-- Dispatches that are left over make no difference to the item. -/
theorem pull_of_done (h : pull p m fuel = .done m' item) (hle : fuel ≤ fuel') :
    pull p m fuel' = .done m' item := by
  induction fuel generalizing m fuel' with
  | zero => cases h
  | succ fuel ih =>
    obtain ⟨more, rfl⟩ := Nat.exists_eq_add_of_le hle
    rw [pull_succ] at h
    rw [Nat.add_right_comm, pull_succ]
    cases hd : dispatch p m with
    | running m₁ =>
      rw [hd] at h
      exact ih h (Nat.le_add_right fuel more)
    | done m₁ item =>
      rw [hd] at h
      exact h

/-- A pull that has paused has the rest before it. -/
theorem pull_rest (h : pull p m fuel = .done m' item) (hpaused : pull p m fuel' = .running m'') :
    ∃ rest, fuel = fuel' + rest ∧ pull p m'' rest = .done m' item := by
  rcases Nat.le_total fuel fuel' with hle | hle
  · rw [pull_of_done h hle] at hpaused
    cases hpaused
  · obtain ⟨rest, rfl⟩ := Nat.exists_eq_add_of_le hle
    exact ⟨rest, rfl, (pull_add hpaused rest).symm.trans h⟩

/-! ## Items -/

/-- Pulling the machine for long enough gives the item, and leaves the machine `m'` for the next
pull. -/
def Gives (p : Program) (m m' : Machine) (item : Item) : Prop :=
  ∃ fuel, pull p m fuel = .done m' item

/-- A dispatch that gives an item ends the pull. -/
theorem gives_of_done (h : dispatch p m = .done m' item) : Gives p m m' item := by
  refine ⟨1, ?_⟩
  rw [pull, h]

/-- Any other dispatch leaves the item to the rest of the pull. -/
theorem gives_of_running (h : dispatch p m = .running m') (hrest : Gives p m' m'' item) :
    Gives p m m'' item := by
  obtain ⟨fuel, hpull⟩ := hrest
  refine ⟨fuel + 1, ?_⟩
  rw [pull, h]
  exact hpull

/-- There is only one next item. -/
theorem Gives.unique (h : Gives p m m' item) (h' : Gives p m m'' item') :
    m'' = m' ∧ item' = item := by
  obtain ⟨fuel, hpull⟩ := h
  obtain ⟨fuel', hpull'⟩ := h'
  have hlong := pull_of_done hpull (Nat.le_max_left fuel fuel')
  rw [pull_of_done hpull' (Nat.le_max_right fuel fuel'), Progress.done.injEq] at hlong
  exact hlong

/-- Pull number `k` of a host gives the item and leaves the machine `m'`. Before each pull the host
may change the signals. -/
inductive Pulled (p : Program) (m : Machine) (signals : Nat → Signals) :
    Nat → Machine → Item → Prop where
  | first {m' : Machine} {item : Item} (h : Gives p { m with signals := signals 0 } m' item) :
      Pulled p m signals 0 m' item
  | next {k : Nat} {m₁ m' : Machine} {before item : Item} (h : Pulled p m signals k m₁ before)
      (hgives : Gives p { m₁ with signals := signals (k + 1) } m' item) :
      Pulled p m signals (k + 1) m' item

/-- However a host changes the signals, its pulls give these items one after the other, and then
nothing for ever. -/
def GivesAll (p : Program) (m : Machine) (items : List (Except Fault Value)) : Prop :=
  ∀ (signals : Nat → Signals) (k : Nat), ∃ m', Pulled p m signals k m' items[k]?

end Machine
end QueryMachine
