import Mathlib.Tactic.Common
import QueryMachine.RewindStack

/-!
# What rewinding keeps

A push takes the cell above `top` and `frozen`, and nothing else ever writes a cell. From this
one rule follows what a savepoint is worth:

* `RewindStack.Keeps s saves`: the stack is well linked, and the savepoints can be restored one
  after the other, the first one next;
* `RewindStack.Extends s t`: `t` came from `s` without writing a cell that `s` had frozen;
* `chainAt_congr`: a chain depends only on the cells up to its start, so a savepoint's chain is
  the same in every stack that extends the one it was taken from.

Places are compared by their `level`, which turns "no cell is below every cell" into arithmetic.
-/

namespace QueryMachine
namespace RewindStack

variable {α : Type} {s t u : RewindStack α} {saves : List Savepoint}

/-! ## Levels -/

/-- How many cells there are up to and including a place. -/
def level (place : Option Nat) : Nat :=
  place.elim 0 (· + 1)

@[simp] theorem level_none : level none = 0 := rfl

@[simp] theorem level_some (i : Nat) : level (some i) = i + 1 := rfl

theorem level_higher (a b : Option Nat) : level (higher a b) = max (level a) (level b) := by
  cases a with
  | none => simp [higher]
  | some i =>
    cases b with
    | none => simp [higher]
    | some j =>
      simp only [higher, level_some]
      omega

/-- The next push goes above the top and above everything frozen. -/
theorem nextCell_eq (s : RewindStack α) : s.nextCell = max (level s.top) (level s.frozen) :=
  level_higher s.top s.frozen

/-- The level that going back to a savepoint relies on. -/
def reach (save : Savepoint) : Nat :=
  max (level save.top) (level save.frozen)

/-! ## The chain from a place -/

/-- The chain from a place downwards, with its cells. -/
def chainAt (s : RewindStack α) (place : Option Nat) : List (Nat × α) :=
  place.elim [] s.chainFrom

/-- The values from a place downwards. -/
def listAt (s : RewindStack α) (place : Option Nat) : List α :=
  (s.chainAt place).map (·.2)

@[simp] theorem chainAt_none (s : RewindStack α) : s.chainAt none = [] := rfl

theorem chain_eq_chainAt (s : RewindStack α) : s.chain = s.chainAt s.top := rfl

theorem toList_eq_listAt (s : RewindStack α) : s.toList = s.listAt s.top := rfl

/-- A walk only reads cells up to its start. -/
theorem chainFrom_congr (place : Nat) (h : ∀ i ≤ place, t.cells[i]? = s.cells[i]?) :
    t.chainFrom place = s.chainFrom place := by
  -- a walk only goes downwards, so the induction is on where it starts
  induction place using Nat.strongRecOn with
  | ind place ih =>
    rw [chainFrom, chainFrom, h place (Nat.le_refl _)]
    cases s.cells[place]? with
    | none => rfl
    | some cell =>
      cases hb : cell.below with
      | none => simp only [hb]
      | some next =>
        simp only [hb]
        split
        · rename_i hlt
          rw [ih next hlt fun i hi => h i (by omega)]
        · rfl

/-- A chain depends only on the cells below its level. -/
theorem chainAt_congr {place : Option Nat}
    (h : ∀ i < level place, t.cells[i]? = s.cells[i]?) : t.chainAt place = s.chainAt place := by
  cases place with
  | none => rfl
  | some i => exact chainFrom_congr i fun j hj => h j (by rw [level_some]; omega)

theorem listAt_congr {place : Option Nat}
    (h : ∀ i < level place, t.cells[i]? = s.cells[i]?) : t.listAt place = s.listAt place := by
  rw [listAt, listAt, chainAt_congr h]

theorem chain_setTop (s : RewindStack α) (place : Option Nat) :
    (s.setTop place).chain = s.chainAt place :=
  chainAt_congr fun _ _ => rfl

/-! ## Well-linked stacks -/

/-- The two cursors point into the buffer, and every link leads downwards. -/
structure Linked (s : RewindStack α) : Prop where
  top_le : level s.top ≤ s.cells.size
  frozen_le : level s.frozen ≤ s.cells.size
  below_le : ∀ i cell, s.cells[i]? = some cell → level cell.below ≤ i

namespace Linked

/-- A push never leaves a gap in the buffer. -/
theorem nextCell_le (h : s.Linked) : s.nextCell ≤ s.cells.size := by
  have htop := h.top_le
  have hfrozen := h.frozen_le
  rw [nextCell_eq]
  omega

/-- In a well-linked stack a chain is its first cell and the chain below it. -/
theorem chainAt_some (h : s.Linked) {i : Nat} {cell : Cell α} (hc : s.cells[i]? = some cell) :
    s.chainAt (some i) = (i, cell.value) :: s.chainAt cell.below := by
  have hle := h.below_le i cell hc
  show s.chainFrom i = _
  rw [chainFrom, hc]
  cases hb : cell.below with
  | none => simp only [hb]; rfl
  | some next =>
    rw [hb, level_some] at hle
    simp only [hb]
    rw [dif_pos (by omega)]
    rfl

/-- A place inside the buffer holds a cell. -/
theorem exists_cell {i : Nat} (hi : level (some i) ≤ s.cells.size) :
    ∃ cell, s.cells[i]? = some cell := by
  rw [level_some] at hi
  exact ⟨s.cells[i], Array.getElem?_eq_getElem hi⟩

end Linked

/-! ## Pushing -/

/-- A push writes the next cell and no other. -/
theorem getElem?_push (h : s.nextCell ≤ s.cells.size) (v : α) (i : Nat) :
    (s.push v).cells[i]? = if i = s.nextCell then some ⟨v, s.top⟩ else s.cells[i]? := by
  simp only [push]
  split
  · rename_i hlt
    rw [Array.getElem?_setIfInBounds, if_pos hlt]
    simp only [eq_comm]
  -- the buffer has no gap, so the next cell is the one after its end
  · have heq : s.nextCell = s.cells.size := by omega
    rw [Array.getElem?_push, heq]

theorem push_top (s : RewindStack α) (v : α) : (s.push v).top = some s.nextCell := by
  simp only [push]
  split <;> rfl

theorem push_frozen (s : RewindStack α) (v : α) : (s.push v).frozen = s.frozen := by
  simp only [push]
  split <;> rfl

theorem push_size (s : RewindStack α) (v : α) (h : s.nextCell ≤ s.cells.size) :
    (s.push v).cells.size = max s.cells.size (s.nextCell + 1) := by
  simp only [push]
  split
  · rw [Array.size_setIfInBounds]
    omega
  · rw [Array.size_push]
    omega

theorem Linked.push (h : s.Linked) (v : α) : (s.push v).Linked := by
  have hnext := h.nextCell_le
  have hsize := push_size s v hnext
  refine ⟨?_, ?_, ?_⟩
  · rw [push_top, level_some, hsize]
    omega
  · have hfrozen := h.frozen_le
    rw [push_frozen, hsize]
    omega
  · intro i cell hc
    rw [getElem?_push hnext] at hc
    by_cases hi : i = s.nextCell
    · rw [if_pos hi, Option.some.injEq] at hc
      have heq := nextCell_eq s
      rw [← hc, hi]
      show level s.top ≤ s.nextCell
      omega
    · rw [if_neg hi] at hc
      exact h.below_le i cell hc

/-- What lies below the next cell is untouched by a push. -/
theorem chainAt_push (h : s.Linked) (v : α) {place : Option Nat} (hp : level place ≤ s.nextCell) :
    (s.push v).chainAt place = s.chainAt place := by
  apply chainAt_congr
  intro i hi
  rw [getElem?_push h.nextCell_le, if_neg (by omega)]

theorem chain_push (h : s.Linked) (v : α) : (s.push v).chain = (s.nextCell, v) :: s.chain := by
  -- the new cell is the top, and what lies below it was there before
  have hcell : (s.push v).cells[s.nextCell]? = some ⟨v, s.top⟩ := by
    rw [getElem?_push h.nextCell_le, if_pos rfl]
  have hle : level s.top ≤ s.nextCell := by
    rw [nextCell_eq]
    omega
  rw [chain_eq_chainAt, push_top, (h.push v).chainAt_some hcell, chainAt_push h v hle]
  rfl

theorem toList_push (h : s.Linked) (v : α) : (s.push v).toList = v :: s.toList := by
  rw [toList, chain_push h, List.map_cons]
  rfl

/-- A push takes the same cell whether or not the stack has been frozen. -/
theorem cells_push_freeze (s : RewindStack α) (v : α) :
    (s.freeze.push v).cells = (s.push v).cells := by
  have hnext : s.freeze.nextCell = s.nextCell := by
    rw [nextCell_eq, nextCell_eq]
    show max (level s.top) (level (higher s.top s.frozen)) = _
    rw [level_higher]
    omega
  simp only [push, hnext]
  show (if s.nextCell < s.cells.size then _ else _ : RewindStack α).cells = _
  split <;> rfl

/-- Every cell of the buffer, in use or not, holds a value that fits its place. -/
def Holds (s : RewindStack α) (P : Nat → α → Prop) : Prop :=
  ∀ (i : Nat) (cell : Cell α), s.cells[i]? = some cell → P i cell.value

theorem Holds.push {P : Nat → α → Prop} (hs : s.Holds P) (h : s.Linked) {v : α}
    (hv : P s.nextCell v) : (s.push v).Holds P := by
  intro i cell hc
  rw [getElem?_push h.nextCell_le] at hc
  by_cases hi : i = s.nextCell
  · rw [if_pos hi, Option.some.injEq] at hc
    rw [← hc, hi]
    exact hv
  · rw [if_neg hi] at hc
    exact hs i cell hc

theorem Holds.mono {P Q : Nat → α → Prop} (hs : s.Holds P) (h : ∀ i v, P i v → Q i v) :
    s.Holds Q :=
  fun i cell hc => h i cell.value (hs i cell hc)

/-! ## Popping -/

/-- A pop moves the top and nothing else. -/
theorem pop?_eq_some (h : s.pop? = some (x, t)) :
    ∃ cell, s.cell? s.top = some cell ∧ x = cell.value ∧ t = s.setTop cell.below := by
  obtain ⟨cell, hcell, heq⟩ := Option.map_eq_some_iff.mp h
  rw [Prod.mk.injEq] at heq
  exact ⟨cell, hcell, heq.1.symm, heq.2.symm⟩

theorem cell?_eq_some {place : Option Nat} {cell : Cell α} (h : s.cell? place = some cell) :
    ∃ i, place = some i ∧ s.cells[i]? = some cell := by
  cases place with
  | none => simp [cell?] at h
  | some i => exact ⟨i, rfl, h⟩

/-- Either the stack is empty, or a pop takes the first value of its chain. -/
theorem pop?_cases (h : s.Linked) :
    (s.pop? = none ∧ s.top = none ∧ s.chain = []) ∨
      ∃ i x t, s.pop? = some (x, t) ∧ s.top = some i ∧ s.chain = (i, x) :: t.chain := by
  cases htop : s.top with
  | none =>
    left
    refine ⟨?_, rfl, ?_⟩
    · rw [pop?, htop]
      rfl
    · rw [chain_eq_chainAt, htop, chainAt_none]
  | some i =>
    right
    have hi := h.top_le
    rw [htop] at hi
    obtain ⟨cell, hcell⟩ := Linked.exists_cell hi
    refine ⟨i, cell.value, s.setTop cell.below, ?_, rfl, ?_⟩
    · rw [pop?, htop, cell?, hcell]
      rfl
    · rw [chain_eq_chainAt, htop, h.chainAt_some hcell, chain_setTop]

/-- A stack with a top holds a value. -/
theorem chain_ne_nil (h : s.Linked) {i : Nat} (htop : s.top = some i) : s.chain ≠ [] := by
  rcases pop?_cases h with ⟨-, hnone, -⟩ | ⟨j, x, t, -, -, hchain⟩
  · rw [hnone] at htop
    cases htop
  · rw [hchain]
    exact List.cons_ne_nil _ _

theorem Linked.setTop (h : s.Linked) {place : Option Nat} (hp : level place ≤ s.cells.size) :
    (s.setTop place).Linked :=
  ⟨hp, h.frozen_le, h.below_le⟩

theorem Linked.of_pop? (h : s.Linked) (hpop : s.pop? = some (x, t)) : t.Linked := by
  obtain ⟨cell, hcell, -, rfl⟩ := pop?_eq_some hpop
  obtain ⟨i, htop, hget⟩ := cell?_eq_some hcell
  have hle := h.below_le i cell hget
  have hi := h.top_le
  rw [htop, level_some] at hi
  exact h.setTop (by omega)

theorem chain_of_pop? (h : s.Linked) (hpop : s.pop? = some (x, t)) :
    ∃ i, s.top = some i ∧ s.chain = (i, x) :: t.chain := by
  rcases pop?_cases h with ⟨hnone, -⟩ | ⟨i, y, u, hsome, htop, hchain⟩
  · rw [hnone] at hpop
    cases hpop
  · rw [hsome, Option.some.injEq, Prod.mk.injEq] at hpop
    rw [← hpop.1, ← hpop.2]
    exact ⟨i, htop, hchain⟩

/-- Popping, as a list sees it. -/
theorem pop?_toList (h : s.Linked) :
    s.pop?.map (fun popped => (popped.1, popped.2.toList)) =
      match s.toList with
      | [] => none
      | x :: rest => some (x, rest) := by
  rcases pop?_cases h with ⟨hnone, -, hchain⟩ | ⟨i, x, t, hsome, -, hchain⟩
  · rw [hnone, toList, hchain]
    rfl
  · rw [hsome, toList, hchain]
    rfl

theorem Linked.drop (h : s.Linked) : s.drop.Linked := by
  rw [RewindStack.drop]
  cases hpop : s.pop? with
  | none => exact h
  | some popped => exact h.of_pop? hpop

theorem chain_drop (h : s.Linked) : s.drop.chain = s.chain.tail := by
  rcases pop?_cases h with ⟨hnone, -, hchain⟩ | ⟨i, x, t, hsome, -, hchain⟩
  · rw [drop, hnone, Option.elim_none, hchain]
    rfl
  · rw [drop, hsome, hchain]
    rfl

/-- Dropping, as a list sees it. -/
theorem toList_drop (h : s.Linked) : s.drop.toList = s.toList.tail := by
  rw [toList, chain_drop h, List.map_tail]
  rfl

theorem top?_eq_head? (h : s.Linked) : s.top? = s.toList.head? := by
  have hpop := pop?_toList h
  rw [pop?, Option.map_map] at hpop
  rw [top?]
  cases htop : s.cell? s.top with
  | none =>
    rw [htop] at hpop
    cases hl : s.toList with
    | nil => rfl
    | cons x rest => simp [hl] at hpop
  | some cell =>
    rw [htop] at hpop
    cases hl : s.toList with
    | nil => simp [hl] at hpop
    | cons x rest =>
      simp only [hl, Option.map_some, Function.comp, Option.some.injEq, Prod.mk.injEq] at hpop
      simp [hpop.1]

theorem top?_push (h : s.Linked) (v : α) : (s.push v).top? = some v := by
  rw [top?_eq_head? (h.push v), toList_push h, List.head?_cons]

theorem isEmpty_eq (h : s.Linked) : s.isEmpty = s.toList.isEmpty := by
  rcases pop?_cases h with ⟨-, htop, hchain⟩ | ⟨i, x, t, -, htop, hchain⟩
  · rw [isEmpty, htop, toList, hchain]
    rfl
  · rw [isEmpty, htop, toList, hchain]
    rfl

/-! ## Going down a chain -/

/-- A chain that is not empty starts at its place, and goes on below it. -/
theorem chainAt_eq_cons (h : s.Linked) {place : Option Nat} {i : Nat} {x : α}
    {rest : List (Nat × α)} (hc : s.chainAt place = (i, x) :: rest) :
    ∃ cell, place = some i ∧ s.cells[i]? = some cell ∧ cell.value = x ∧
      s.chainAt cell.below = rest := by
  cases place with
  | none => cases hc
  | some j =>
    cases hcell : s.cells[j]? with
    | none =>
      rw [show s.chainAt (some j) = s.chainFrom j from rfl, chainFrom, hcell] at hc
      cases hc
    | some cell =>
      rw [h.chainAt_some hcell] at hc
      obtain ⟨hhead, hrest⟩ := List.cons.inj hc
      obtain ⟨rfl, rfl⟩ := Prod.mk.inj hhead
      exact ⟨cell, rfl, hcell, rfl, hrest⟩

/-- Any part of a chain is the chain from its first cell. -/
theorem chainAt_eq_append (h : s.Linked) {place : Option Nat} {above rest : List (Nat × α)}
    {i : Nat} {x : α} (hc : s.chainAt place = above ++ (i, x) :: rest) :
    ∃ cell, s.cells[i]? = some cell ∧ cell.value = x ∧ s.chainAt cell.below = rest := by
  induction above generalizing place with
  | nil =>
    obtain ⟨cell, -, hcell⟩ := chainAt_eq_cons h hc
    exact ⟨cell, hcell⟩
  | cons first above ih =>
    obtain ⟨cell, -, -, -, hrest⟩ := chainAt_eq_cons h hc
    exact ih hrest

/-- Every cell of a chain lies below the level it starts from. -/
theorem lt_level_of_mem_chainAt (h : s.Linked) {place : Option Nat} {i : Nat} {x : α}
    (hmem : (i, x) ∈ s.chainAt place) : i < level place := by
  -- every link leads downwards, so the cells fall along the chain
  induction hl : s.chainAt place generalizing place with
  | nil =>
    rw [hl] at hmem
    cases hmem
  | cons first rest ih =>
    obtain ⟨j, y⟩ := first
    obtain ⟨cell, rfl, hcell, rfl, hrest⟩ := chainAt_eq_cons h hl
    have hbelow := h.below_le j cell hcell
    rw [level_some]
    rw [hl] at hmem
    cases hmem with
    | head => omega
    | tail _ hmem =>
      rw [← hrest] at hmem
      have hlt := ih hmem hrest
      omega

/-- The walk of `find?` visits the chain. -/
theorem findFrom_eq (h : s.Linked) (accept : α → Bool) (place : Nat) :
    s.findFrom accept place = (s.listAt (some place)).find? accept := by
  induction place using Nat.strongRecOn with
  | ind place ih =>
    rw [findFrom]
    cases hcell : s.cells[place]? with
    | none =>
      rw [listAt, show s.chainAt (some place) = s.chainFrom place from rfl, chainFrom, hcell]
      rfl
    | some cell =>
      rw [listAt, h.chainAt_some hcell, List.map_cons, List.find?_cons]
      cases hfound : accept cell.value with
      | true => simp only [hfound, if_true]
      | false =>
        have hle := h.below_le place cell hcell
        simp only [hfound, Bool.false_eq_true, if_false]
        cases hbelow : cell.below with
        | none => rfl
        | some next =>
          rw [hbelow, level_some] at hle
          dsimp only
          rw [dif_pos (by omega), ih next (by omega)]
          rfl

/-- Searching the stack, as a list sees it. -/
theorem find?_eq (h : s.Linked) (accept : α → Bool) :
    s.find? accept = s.toList.find? accept := by
  rw [find?, toList, chain_eq_chainAt]
  cases s.top with
  | none => rfl
  | some place => exact findFrom_eq h accept place

/-- What is found is accepted, and lies in a cell. -/
theorem Holds.of_find? {P : Nat → α → Prop} {accept : α → Bool} {x : α} (hs : s.Holds P)
    (h : s.Linked) (hfind : s.find? accept = some x) : accept x = true ∧ ∃ i, P i x := by
  rw [find?_eq h] at hfind
  refine ⟨List.find?_some hfind, ?_⟩
  obtain ⟨⟨i, y⟩, hmem, rfl⟩ := List.mem_map.mp (List.mem_of_find?_eq_some hfind)
  obtain ⟨above, rest, hchain⟩ := List.append_of_mem hmem
  obtain ⟨cell, hcell, rfl, -⟩ := chainAt_eq_append h hchain
  exact ⟨i, hs i cell hcell⟩

/-- The walk of `since` visits the chain down to the base. -/
theorem sinceFrom_eq (h : s.Linked) (base : Nat) (found : List α) (place : Nat) :
    s.sinceFrom base found place =
      (((s.chainAt (some place)).takeWhile (·.1 != base)).map (·.2)).reverse ++ found := by
  induction place using Nat.strongRecOn generalizing found with
  | ind place ih =>
    rw [sinceFrom]
    cases hcell : s.cells[place]? with
    | none =>
      rw [show s.chainAt (some place) = s.chainFrom place from rfl, chainFrom, hcell]
      split <;> rfl
    | some cell =>
      rw [h.chainAt_some hcell]
      by_cases hplace : place = base
      · rw [if_pos hplace, List.takeWhile_cons_of_neg (by simpa using hplace)]
        rfl
      · have hle := h.below_le place cell hcell
        rw [if_neg hplace, List.takeWhile_cons_of_pos (by simpa using hplace)]
        cases hbelow : cell.below with
        | none =>
          simp only [hbelow]
          rfl
        | some next =>
          rw [hbelow, level_some] at hle
          simp only [hbelow]
          rw [dif_pos (by omega), ih next (by omega)]
          simp

/-- What lies above a base, oldest first; everything, if the base is not part of the stack. -/
theorem since_eq_takeWhile (h : s.Linked) (base : Nat) :
    s.since base = ((s.chain.takeWhile (·.1 != base)).map (·.2)).reverse := by
  rw [since, chain_eq_chainAt]
  cases s.top with
  | none => rfl
  | some place => rw [Option.elim_some, sinceFrom_eq h, List.append_nil]

/-- The cells of a chain fall. -/
theorem lt_of_mem_above (h : s.Linked) {place : Option Nat} {above rest : List (Nat × α)}
    {base : Nat} {x : α} (hc : s.chainAt place = above ++ (base, x) :: rest) :
    ∀ r ∈ above, base < r.1 := by
  induction above generalizing place with
  | nil =>
    intro r hr
    cases hr
  | cons first above ih =>
    obtain ⟨j, y⟩ := first
    obtain ⟨cell, rfl, hcell, rfl, hrest⟩ := chainAt_eq_cons h hc
    have hmem : (base, x) ∈ s.chainAt cell.below := by
      rw [hrest]
      exact List.mem_append_right above List.mem_cons_self
    have hlt := lt_level_of_mem_chainAt h hmem
    have hbelow := h.below_le j cell hcell
    intro r hr
    cases hr with
    | head => exact Nat.lt_of_lt_of_le hlt hbelow
    | tail _ hr => exact ih hrest r hr

/-- What lies above a cell of the chain, oldest first. -/
theorem since_eq (h : s.Linked) {base : Nat} {above rest : List (Nat × α)} {x : α}
    (hc : s.chain = above ++ (base, x) :: rest) :
    s.since base = (above.map (·.2)).reverse := by
  rw [chain_eq_chainAt] at hc
  have hne : ∀ r ∈ above, (r.1 != base) = true := by
    intro r hr
    have hlt := lt_of_mem_above h hc r hr
    simpa using Nat.ne_of_gt hlt
  rw [since_eq_takeWhile h, chain_eq_chainAt, hc, List.takeWhile_append_of_pos hne,
    List.takeWhile_cons_of_neg (by simp), List.append_nil]

/-! ## Going on without touching what is frozen -/

/-- `t` came from `s` by steps that left every cell frozen in `s` as it was. -/
structure Extends (s t : RewindStack α) : Prop where
  frozen_le : level s.frozen ≤ level t.frozen
  size_le : s.cells.size ≤ t.cells.size
  same : ∀ i < level s.frozen, t.cells[i]? = s.cells[i]?

namespace Extends

theorem refl (s : RewindStack α) : s.Extends s :=
  ⟨Nat.le_refl _, Nat.le_refl _, fun _ _ => rfl⟩

theorem trans (h : s.Extends t) (h' : t.Extends u) : s.Extends u := by
  refine ⟨Nat.le_trans h.frozen_le h'.frozen_le, Nat.le_trans h.size_le h'.size_le, ?_⟩
  intro i hi
  rw [h'.same i (Nat.lt_of_lt_of_le hi h.frozen_le), h.same i hi]

theorem push (h : s.Linked) (v : α) : s.Extends (s.push v) := by
  refine ⟨Nat.le_of_eq (by rw [push_frozen]), ?_, ?_⟩
  · rw [push_size s v h.nextCell_le]
    omega
  · intro i hi
    have heq := nextCell_eq s
    rw [getElem?_push h.nextCell_le, if_neg (by omega)]

theorem setTop (s : RewindStack α) (place : Option Nat) : s.Extends (s.setTop place) :=
  ⟨Nat.le_refl _, Nat.le_refl _, fun _ _ => rfl⟩

theorem of_pop? (h : s.pop? = some (x, t)) : s.Extends t := by
  obtain ⟨cell, -, -, rfl⟩ := pop?_eq_some h
  exact setTop s cell.below

theorem drop (s : RewindStack α) : s.Extends s.drop := by
  rw [RewindStack.drop]
  cases hpop : s.pop? with
  | none => exact refl s
  | some popped => exact of_pop? hpop

theorem freeze (s : RewindStack α) : s.Extends s.freeze := by
  refine ⟨?_, Nat.le_refl _, fun _ _ => rfl⟩
  show level s.frozen ≤ level (higher s.top s.frozen)
  rw [level_higher]
  omega

end Extends

/-! ## Savepoints -/

/-- The savepoints can be restored one after the other: what each relies on is frozen when its
turn comes. -/
def Guards (frozen : Option Nat) : List Savepoint → Prop
  | [] => True
  | save :: older => reach save ≤ level frozen ∧ Guards save.frozen older

theorem Guards.mono {a b : Option Nat} (hle : level a ≤ level b) (h : Guards a saves) :
    Guards b saves := by
  cases saves with
  | nil => trivial
  | cons save older => exact ⟨Nat.le_trans h.1 hle, h.2⟩

/-- Whatever an older savepoint relies on is frozen now. -/
theorem Guards.reach_le {frozen : Option Nat} (h : Guards frozen saves) {save : Savepoint}
    (hmem : save ∈ saves) : reach save ≤ level frozen := by
  induction saves generalizing frozen with
  | nil => cases hmem
  | cons first older ih =>
    cases hmem with
    | head => exact h.1
    | tail _ hmem =>
      -- the older savepoint needs no more than what was frozen before the first one
      have hle := ih h.2 hmem
      have hfirst := h.1
      rw [reach] at hfirst
      omega

/-- Without the newest savepoints the older ones can still be restored. -/
theorem Guards.of_append {newer older : List Savepoint} {frozen : Option Nat}
    (h : Guards frozen (newer ++ older)) : Guards frozen older := by
  induction newer generalizing frozen with
  | nil => exact h
  | cons save newer ih =>
    have hsave := h.1
    rw [reach] at hsave
    exact (ih h.2).mono (by omega)

/-- A well-linked stack that can go back to each of its savepoints. -/
structure Keeps (s : RewindStack α) (saves : List Savepoint) : Prop extends Linked s where
  guards : Guards s.frozen saves

namespace Keeps

theorem of_extends (h : s.Keeps saves) (hlinked : t.Linked) (hext : s.Extends t) :
    t.Keeps saves :=
  ⟨hlinked, h.guards.mono hext.frozen_le⟩

theorem push (h : s.Keeps saves) (v : α) : (s.push v).Keeps saves :=
  h.of_extends (h.toLinked.push v) (.push h.toLinked v)

theorem freeze (h : s.Keeps saves) : s.freeze.Keeps saves := by
  refine h.of_extends ⟨h.top_le, ?_, h.below_le⟩ (.freeze s)
  have htop := h.top_le
  have hfrozen := h.frozen_le
  show level (higher s.top s.frozen) ≤ s.cells.size
  rw [level_higher]
  omega

/-- Freezing the stack makes its savepoint good. -/
theorem savepoint (h : s.Keeps saves) : s.freeze.Keeps (s.savepoint :: saves) := by
  refine ⟨h.freeze.toLinked, ?_, h.guards⟩
  exact Nat.le_of_eq (level_higher s.top s.frozen).symm

/-- The next savepoint can be restored, and then the older ones are next. -/
theorem restore {save : Savepoint} (h : s.Keeps (save :: saves)) :
    (s.restore save).Keeps saves := by
  have hreach := h.guards.1
  have hfrozen := h.frozen_le
  rw [reach] at hreach
  refine ⟨⟨?_, ?_, h.below_le⟩, h.guards.2⟩
  · show level save.top ≤ s.cells.size
    omega
  · show level save.frozen ≤ s.cells.size
    omega

/-- Giving up the newest savepoints keeps the older ones. -/
theorem of_append {newer older : List Savepoint} (h : s.Keeps (newer ++ older)) :
    s.Keeps older :=
  ⟨h.toLinked, h.guards.of_append⟩

theorem nil (h : s.Linked) : s.Keeps [] :=
  ⟨h, trivial⟩

theorem empty : (RewindStack.empty : RewindStack α).Keeps [] :=
  nil ⟨Nat.le_refl _, Nat.le_refl _, fun i cell hc => by simp [RewindStack.empty] at hc⟩

/-- A savepoint's chain stays the same as long as the stack only goes on from it. -/
theorem chainAt_eq (h : s.Keeps saves) (hext : s.Extends t) {save : Savepoint}
    (hmem : save ∈ saves) : t.chainAt save.top = s.chainAt save.top := by
  have hreach := h.guards.reach_le hmem
  rw [reach] at hreach
  exact chainAt_congr fun i hi => hext.same i (by omega)

end Keeps

/-- Restoring makes the savepoint's chain the current one. -/
theorem chain_restore (s : RewindStack α) (save : Savepoint) :
    (s.restore save).chain = s.chainAt save.top :=
  chainAt_congr fun _ _ => rfl

/-- A savepoint brings back the chain of the stack that it was taken from, as long as the cells
that it relies on are as they were. -/
theorem chain_restore_savepoint (hsame : ∀ i < reach s.savepoint, t.cells[i]? = s.cells[i]?) :
    (t.restore s.savepoint).chain = s.chain := by
  rw [chain_restore]
  apply chainAt_congr
  intro i hi
  apply hsame i
  rw [reach]
  omega

theorem chainAt_restore (s : RewindStack α) (save : Savepoint) (place : Option Nat) :
    (s.restore save).chainAt place = s.chainAt place :=
  chainAt_congr fun _ _ => rfl

theorem chainAt_freeze (s : RewindStack α) (place : Option Nat) :
    s.freeze.chainAt place = s.chainAt place :=
  chainAt_congr fun _ _ => rfl

theorem listAt_restore (s : RewindStack α) (save : Savepoint) (place : Option Nat) :
    (s.restore save).listAt place = s.listAt place :=
  listAt_congr fun _ _ => rfl

theorem listAt_freeze (s : RewindStack α) (place : Option Nat) :
    s.freeze.listAt place = s.listAt place :=
  listAt_congr fun _ _ => rfl

end RewindStack
end QueryMachine
