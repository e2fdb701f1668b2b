import QueryMachine.Proofs.SelfEquality
import QueryMachine.Machine.State

/-!
# Equality and what it cannot tell apart

Equality of values is symmetric and transitive, and it is reflexive but for a NaN. Navigation
respects it: from equal values every index and every slice fails for both or finds equal values,
and an iteration visits the same keys with equal values under them.

So a machine that compares a value with the one its recorded path has reached may take either of
the two to navigate from (`equality_respected`).
-/

namespace QueryMachine

/-- IEEE equality is symmetric. -/
theorem Binary64.equal_comm (x y : Binary64) : x.equal y = y.equal x := by
  have hbits : (x.bits == y.bits) = (y.bits == x.bits) := Bool.beq_comm
  rw [Binary64.equal, Binary64.equal, hbits, Bool.and_comm (!x.isNaN), Bool.and_comm x.isZero]

namespace Value

variable {u v w : Value}

/-! ## Symmetry -/

theorem equal_symm (h : v.equal w = true) : w.equal v = true := by
  induction v using members_induction generalizing w with
  | step v hitems hentries =>
    rcases equal_cases h with
        rfl | ⟨x, y, rfl, rfl, hxy⟩ | ⟨as, bs, rfl, rfl, hmembers⟩ | ⟨as, bs, rfl, rfl, hmembers⟩
    · exact h
    · rw [equal, Binary64.equal_comm]
      exact hxy
    · -- the items of the first array are smaller than it
      refine equal_array_iff.mpr (List.Forall₂.flip ?_)
      refine ((List.forall₂_and_left _ _).mpr ⟨hitems as rfl, hmembers⟩).imp ?_
      rintro a b ⟨ih, hab⟩
      exact ih hab
    · refine equal_object_iff.mpr (List.Forall₂.flip ?_)
      refine ((List.forall₂_and_left _ _).mpr ⟨hentries as rfl, hmembers⟩).imp ?_
      rintro a b ⟨ih, hkey, hab⟩
      exact ⟨hkey.symm, ih hab⟩

theorem equal_comm (v w : Value) : v.equal w = w.equal v :=
  Bool.eq_iff_iff.mpr ⟨equal_symm, equal_symm⟩

/-! ## Navigation -/

/-- Both answers are failures, or both are values, and these are equal. -/
inductive SameAnswer : Except NativeFailure Value → Except NativeFailure Value → Prop where
  | failed (failure failure' : NativeFailure) : SameAnswer (.error failure) (.error failure')
  | found {v w : Value} (h : v.equal w = true) : SameAnswer (.ok v) (.ok w)

/-- An answer is the same if each side finds whatever the other one does. -/
theorem SameAnswer.of_found {x y : Except NativeFailure Value}
    (hx : ∀ v, x = .ok v → ∃ w, y = .ok w ∧ w.equal v = true)
    (hy : ∀ w, y = .ok w → ∃ v, x = .ok v ∧ v.equal w = true) : SameAnswer x y := by
  cases x with
  | ok v =>
    obtain ⟨w, rfl, hequal⟩ := hx v rfl
    exact .found (equal_symm hequal)
  | error failure =>
    cases y with
    | error failure' => exact .failed failure failure'
    | ok w =>
      obtain ⟨v, hv, -⟩ := hy w rfl
      cases hv

/-- Both values have no entries, or both have the same keys, with equal values under them. -/
inductive SameEntries : Option (List (Value × Value)) → Option (List (Value × Value)) → Prop where
  | none : SameEntries none none
  | some {as bs : List (Value × Value)}
      (h : List.Forall₂ (fun a b => a.1 = b.1 ∧ a.2.equal b.2 = true) as bs) :
      SameEntries (some as) (some bs)

theorem sameEntries_keyed? (h : v.equal w = true) : SameEntries v.keyed? w.keyed? := by
  cases w with
  | array bs =>
    obtain ⟨as, rfl, hmembers⟩ := equal_array h
    -- the keys are the positions, and those are the same
    obtain ⟨hlength, hget⟩ := List.forall₂_iff_get.mp hmembers
    refine .some (List.forall₂_iff_get.mpr ⟨by simpa using hlength, ?_⟩)
    intro i hi hi'
    have hitem := hget i (by simpa using hi) (by simpa using hi')
    simpa using hitem
  | object bs =>
    obtain ⟨as, rfl, hmembers⟩ := equal_object h
    refine .some ?_
    rw [List.forall₂_map_left_iff, List.forall₂_map_right_iff]
    exact hmembers.imp fun a b hab => ⟨congrArg Value.string hab.1, hab.2⟩
  | _ =>
    -- nothing but a container equals a container
    cases v with
    | array | object => simp [equal] at h
    | _ => exact .none

/-- Whatever is navigated to from one value is navigated to from the other. -/
structure NavigatesAlike (v w : Value) : Prop where
  index : ∀ key, SameAnswer (v.index key) (w.index key)
  slice : ∀ start stop, SameAnswer (v.slice start stop) (w.slice start stop)
  entries : SameEntries v.keyed? w.keyed?

theorem navigatesAlike_of_equal (h : v.equal w = true) : NavigatesAlike v w where
  index := fun _ =>
    .of_found (fun _ hv => index_congr (equal_symm h) hv) fun _ hw => index_congr h hw
  slice := fun _ _ =>
    .of_found (fun _ hv => slice_congr (equal_symm h) hv) fun _ hw => slice_congr h hw
  entries := sameEntries_keyed? h

end Value

/-- What a path is checked against is equal to the value it is checked for. -/
theorem Machine.equal_of_isReached {m : Machine} {v : Value} (h : m.isReached v = true) :
    ∃ reached, m.reached? = some reached ∧ reached.equal v = true := by
  rw [isReached, Option.any_eq_true] at h
  exact h

namespace Value

/-- Equality is a partial equivalence, with the values without a NaN as those it is reflexive on,
and navigation respects it. So navigation may go on from the value that a path has reached or from
the one that was compared with it. -/
theorem equality_respected (u v w : Value) :
    v.equal w = w.equal v ∧
    (u.equal v = true → v.equal w = true → u.equal w = true) ∧
    (v.equal v = true ↔ ¬ v.HasNaN) ∧
    (v.equal w = true → NavigatesAlike v w) ∧
    ∀ m : Machine, m.isReached v = true →
      ∃ reached, m.reached? = some reached ∧ NavigatesAlike reached v := by
  refine ⟨equal_comm v w, equal_trans, equal_self_iff, navigatesAlike_of_equal, ?_⟩
  intro m h
  obtain ⟨reached, hreached, hequal⟩ := m.equal_of_isReached h
  exact ⟨reached, hreached, navigatesAlike_of_equal hequal⟩

/-- A zero of either sign inside an array inside an object. -/
def nestedZero (bits : UInt64) : Value :=
  .object [("a", .array #[.float ⟨bits⟩])]

/-- The two nested zeros are not the same value, but nothing that navigates can tell. -/
theorem equality_respected_nestedZero :
    (nestedZero 0).equal (nestedZero 0x8000000000000000) = true ∧
    (nestedZero 0x8000000000000000).equal (nestedZero 0) = true ∧
    Machine.isReached { paths := RewindStack.empty.push (.start (nestedZero 0) none) }
      (nestedZero 0x8000000000000000) = true ∧
    (nestedZero 0).equal (nestedZero 0) = true ∧
    NavigatesAlike (nestedZero 0x8000000000000000) (nestedZero 0) ∧
    ∃ reached,
      Machine.reached? { paths := RewindStack.empty.push (.start (nestedZero 0) none) } =
        some reached ∧ NavigatesAlike reached (nestedZero 0x8000000000000000) := by
  have hequal : (nestedZero 0).equal (nestedZero 0x8000000000000000) = true := by decide
  have hreached : Machine.isReached
      { paths := RewindStack.empty.push (.start (nestedZero 0) none) }
      (nestedZero 0x8000000000000000) = true := hequal
  obtain ⟨hcomm, htrans, -, hback, hpath⟩ :=
    equality_respected (nestedZero 0) (nestedZero 0x8000000000000000) (nestedZero 0)
  have hsymm : (nestedZero 0x8000000000000000).equal (nestedZero 0) = true := hcomm ▸ hequal
  exact ⟨hequal, hsymm, hreached, htrans hequal hsymm, hback hsymm, hpath _ hreached⟩

end Value
end QueryMachine
