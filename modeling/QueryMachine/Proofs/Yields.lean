import QueryMachine.Proofs.Items
import QueryMachine.Proofs.PlainSimulation

/-!
# All items of a run

`PlainMachine.Yields` says which items are left of a run, from any state of the machine without
sharing: it follows the run dispatch by dispatch, through all its pulls. What such a machine yields,
a host gets from the machine that shares its cells (`Machine.givesAll_of_yields`).
-/

namespace QueryMachine

/-- From this state on the run gives these items, and then nothing. -/
inductive PlainMachine.Yields (p : Program) : PlainMachine → List (Except Fault Value) → Prop where
  | goOn {m m' : PlainMachine} {items : List (Except Fault Value)}
      (hd : dispatch p m = .running m') (h : Yields p m' items) : Yields p m items
  /-- The host may change the signals before it pulls again. -/
  | result {m m' : PlainMachine} {v : Value} {items : List (Except Fault Value)}
      (hd : dispatch p m = .done m' (some (.ok v)))
      (h : ∀ signals, Yields p { m' with signals } items) : Yields p m (.ok v :: items)
  | ended {m m' : PlainMachine} (fault : Option Fault)
      (hd : dispatch p m = .done m' (fault.map .error)) (hover : m'.finished = true) :
      Yields p m (fault.toList.map .error)

/-- A run that is over yields nothing. -/
theorem PlainMachine.yields_nil {p : Program} {m : PlainMachine} (hover : m.finished = true) :
    Yields p m [] :=
  .ended none (dispatch_finished hover) hover

namespace Machine

variable {p : Program} {m m' : Machine} {items : List (Except Fault Value)}

/-- Once the run is over, there is nothing left to pull. -/
theorem pulled_finished {signals : Nat → Signals} {k : Nat} {item : Item}
    (h : Pulled p m signals k m' item) (hover : m'.finished = true) (d : Nat) :
    ∃ m'', Pulled p m signals (k + 1 + d) m'' none ∧ m''.finished = true := by
  have hlast : ∀ {j : Nat} {m₁ : Machine} {item : Item}, Pulled p m signals j m₁ item →
      m₁.finished = true → ∃ m'', Pulled p m signals (j + 1) m'' none ∧ m''.finished = true := by
    intro j m₁ item hpulled hover
    have hsignals : (m₁.withSignals (signals (j + 1))).finished = true := hover
    exact ⟨_, .next hpulled (gives_of_done (dispatch_finished hsignals)), hover⟩
  induction d with
  | zero => exact hlast h hover
  | succ d ih =>
    obtain ⟨m'', hpulled, hover⟩ := ih
    exact hlast hpulled hover

/-- The machine goes on where the one without sharing does. -/
theorem dispatch_of_running (h : m.Coherent) {a : PlainMachine}
    (hd : PlainMachine.dispatch p m.plain = .running a) :
    ∃ m', dispatch p m = .running m' ∧ m'.Coherent ∧ m'.plain = a := by
  have hnext := (move_dispatch h p).coherent
  rw [← plain_dispatch h] at hd
  cases hdispatch : dispatch p m with
  | running m' =>
    rw [hdispatch] at hd hnext
    exact ⟨m', rfl, hnext, PlainProgress.running.inj hd⟩
  | done m' item =>
    rw [hdispatch] at hd
    cases hd

/-- The machine gives an item where the one without sharing does, and the same. -/
theorem dispatch_of_done (h : m.Coherent) {a : PlainMachine} {item : Item}
    (hd : PlainMachine.dispatch p m.plain = .done a item) :
    ∃ m', dispatch p m = .done m' item ∧ m'.Coherent ∧ m'.plain = a := by
  have hnext := (move_dispatch h p).coherent
  rw [← plain_dispatch h] at hd
  cases hdispatch : dispatch p m with
  | running m' =>
    rw [hdispatch] at hd
    cases hd
  | done m' item =>
    rw [hdispatch] at hd hnext
    obtain ⟨hplain, rfl⟩ := PlainProgress.done.inj hd
    exact ⟨m', rfl, hnext, hplain⟩

/-- The next pull gives the first of the items, and leaves the others to the pulls after it. -/
theorem exists_gives_of_yields (h : m.Coherent) (hyields : m.plain.Yields p items) :
    ∃ m', Gives p m m' items.head? ∧ m'.Coherent ∧
      ∀ signals, (m'.withSignals signals).plain.Yields p items.tail := by
  generalize hplain : m.plain = a at hyields
  induction hyields generalizing m with
  | goOn hd _ ih =>
    obtain ⟨m₁, hdispatch, hcoherent₁, hplain₁⟩ := dispatch_of_running h (hplain ▸ hd)
    obtain ⟨m', hgives, hcoherent, hrest⟩ := ih hcoherent₁ hplain₁
    exact ⟨m', gives_of_running hdispatch hgives, hcoherent, hrest⟩
  | result hd hrest _ =>
    obtain ⟨m₁, hdispatch, hcoherent, rfl⟩ := dispatch_of_done h (hplain ▸ hd)
    exact ⟨m₁, gives_of_done hdispatch, hcoherent, hrest⟩
  | ended fault hd hover =>
    obtain ⟨m₁, hdispatch, hcoherent, rfl⟩ := dispatch_of_done h (hplain ▸ hd)
    have hgives := gives_of_done hdispatch
    refine ⟨m₁, ?_, hcoherent, ?_⟩
    · cases fault <;> exact hgives
    · cases fault <;> exact fun _ => PlainMachine.yields_nil hover

/-- What the machine without sharing yields, whatever the signals at the first pull, a host gets. -/
theorem givesAll_of_yields (h : m.Coherent)
    (hyields : ∀ signals, (m.withSignals signals).plain.Yields p items) : GivesAll p m items := by
  intro signals k
  suffices hpulled : ∃ m', Pulled p m signals k m' items[k]? ∧ m'.Coherent ∧
      ∀ signals, (m'.withSignals signals).plain.Yields p (items.drop (k + 1)) by
    obtain ⟨m', hpulled, -⟩ := hpulled
    exact ⟨m', hpulled⟩
  induction k with
  | zero =>
    obtain ⟨m', hgives, hcoherent, hrest⟩ :=
      exists_gives_of_yields (h.withSignals _) (hyields (signals 0))
    rw [List.head?_eq_getElem?] at hgives
    rw [← List.drop_one] at hrest
    exact ⟨m', .first hgives, hcoherent, hrest⟩
  | succ k ih =>
    obtain ⟨m₁, hpulled, hcoherent₁, hrest₁⟩ := ih
    obtain ⟨m', hgives, hcoherent, hrest⟩ :=
      exists_gives_of_yields (hcoherent₁.withSignals _) (hrest₁ (signals (k + 1)))
    rw [List.head?_drop] at hgives
    rw [List.tail_drop] at hrest
    exact ⟨m', .next hpulled hgives, hcoherent, hrest⟩

end Machine
end QueryMachine
