import Mathlib.Data.List.Forall2
import Mathlib.Data.List.Induction
import Mathlib.Tactic.IntervalCases
import QueryMachine.Proofs.RewindStack

/-!
# Savepoints are as good as copies

Whoever uses a `RewindStack` may take savepoints at any time and go back to any of them, as long as
neither it nor an older one has been restored before. The stack then cannot be told from a plain
list that is copied as a whole for every savepoint:

* `SharedUse` and `CopiedUse`: the same calls on the stack and on the list;
* `Outstanding`: a savepoint that may be restored;
* `Tracks`: what ties the stack to the list. Every call keeps it, and it gives all that a user can
  see.
-/

namespace QueryMachine

open RewindStack

variable {α : Type}

/-! ## Calls -/

/-- A call of a stack's user. A savepoint is known by the number of those taken before it. -/
inductive StackCall (α : Type) where
  | push (value : α)
  | pop
  | save
  | restore (number : Nat)

namespace StackCall

/-- Whether the call takes a savepoint. -/
def saves : StackCall α → Bool
  | .save => true
  | _ => false

end StackCall

/-- A stack in use, with the cells that the pushes took and the savepoints, both in their order. -/
structure SharedUse (α : Type) where
  stack : RewindStack α := .empty
  cells : List Nat := []
  saves : List Savepoint := []

namespace SharedUse

/-- What a call answers with: the value that it pops. -/
def answer (u : SharedUse α) : StackCall α → Option α
  | .pop => u.stack.pop?.map (·.1)
  | _ => none

/-- The stack after a call. -/
def call (u : SharedUse α) : StackCall α → SharedUse α
  | .push v => { u with stack := u.stack.push v, cells := u.cells ++ [u.stack.nextCell] }
  | .pop => { u with stack := u.stack.drop }
  | .save => { u with stack := u.stack.freeze, saves := u.saves ++ [u.stack.savepoint] }
  | .restore number => { u with stack := u.saves[number]?.elim u.stack u.stack.restore }

/-- The stack after some calls, empty at first. -/
def run (calls : List (StackCall α)) : SharedUse α :=
  calls.foldl call {}

end SharedUse

/-- A list in the place of the stack, with the copies made for savepoints. Every value carries the
number of its push. -/
structure CopiedUse (α : Type) where
  list : List (Nat × α) := []
  pushes : Nat := 0
  copies : List (List (Nat × α)) := []

namespace CopiedUse

/-- The values of the list, from the top down. -/
def values (u : CopiedUse α) : List α :=
  u.list.map (·.2)

/-- What a call answers with: the value that it pops. -/
def answer (u : CopiedUse α) : StackCall α → Option α
  | .pop => u.values.head?
  | _ => none

/-- The list after a call. -/
def call (u : CopiedUse α) : StackCall α → CopiedUse α
  | .push v => { u with list := (u.pushes, v) :: u.list, pushes := u.pushes + 1 }
  | .pop => { u with list := u.list.tail }
  | .save => { u with copies := u.copies ++ [u.list] }
  | .restore number => { u with list := u.copies[number]?.getD u.list }

/-- The list after some calls, empty at first. -/
def run (calls : List (StackCall α)) : CopiedUse α :=
  calls.foldl call {}

end CopiedUse

/-! ## Outstanding savepoints -/

/-- The savepoint of this number has been taken, and since then neither it nor an older one has
been restored. -/
def Outstanding (calls : List (StackCall α)) (number : Nat) : Prop :=
  ∃ before after, calls = before ++ .save :: after ∧ before.countP (·.saves) = number ∧
    ∀ k, .restore k ∈ after → number < k

/-- Only outstanding savepoints are restored. -/
def Disciplined (calls : List (StackCall α)) : Prop :=
  ∀ before number after, calls = before ++ .restore number :: after → Outstanding before number

namespace Outstanding

variable {calls : List (StackCall α)} {call : StackCall α} {number : Nat}

/-- A savepoint that is outstanding after a call was so before it, or has just been taken. -/
theorem of_concat (h : Outstanding (calls ++ [call]) number) :
    (call = .save ∧ number = calls.countP (·.saves)) ∨
      (Outstanding calls number ∧ ∀ k, call = .restore k → number < k) := by
  obtain ⟨before, after, heq, hnumber, hafter⟩ := h
  rcases List.eq_nil_or_concat after with rfl | ⟨after, last, rfl⟩
  · obtain ⟨rfl, hlast⟩ := List.append_inj' heq rfl
    exact .inl ⟨List.singleton_inj.mp hlast, hnumber.symm⟩
  · right
    rw [List.concat_eq_append, ← List.cons_append, ← List.append_assoc] at heq
    obtain ⟨rfl, hlast⟩ := List.append_inj' heq rfl
    obtain rfl := List.singleton_inj.mp hlast
    refine ⟨⟨before, after, rfl, hnumber, fun k hk => hafter k ?_⟩, fun k hk => hafter k ?_⟩
    · simp [hk]
    · simp [hk]

end Outstanding

theorem Disciplined.of_concat {calls : List (StackCall α)} {call : StackCall α}
    (h : Disciplined (calls ++ [call])) :
    Disciplined calls ∧ ∀ number, call = .restore number → Outstanding calls number := by
  constructor
  · intro before number after heq
    exact h before number (after ++ [call]) (by simp [heq])
  · intro number hcall
    exact h calls number [] (by rw [hcall])

theorem Disciplined.earlier {before calls : List (StackCall α)} (h : Disciplined calls)
    (hbefore : before <+: calls) : Disciplined before := by
  obtain ⟨rest, rfl⟩ := hbefore
  intro first number after heq
  exact h first number (after ++ rest) (by simp [heq])

/-! ## What ties the stack to the list -/

/-- A cell of the stack holds the value of an entry of the list, and its push took this cell. -/
def Lies (cells : List Nat) (place entry : Nat × α) : Prop :=
  cells[entry.1]? = some place.1 ∧ place.2 = entry.2

/-- A chain of cells is a list of entries. -/
abbrev Lists (cells : List Nat) (chain list : List (Nat × α)) : Prop :=
  List.Forall₂ (Lies cells) chain list

/-- Cells that later pushes take make no difference. -/
theorem Lists.mono {cells cells' : List Nat} {chain list : List (Nat × α)}
    (h : Lists cells chain list) (hcells : cells <+: cells') : Lists cells' chain list := by
  obtain ⟨more, rfl⟩ := hcells
  refine h.imp fun place entry hlies => ⟨?_, hlies.2⟩
  obtain ⟨hlt, -⟩ := List.getElem?_eq_some_iff.mp hlies.1
  rw [List.getElem?_append_left hlt]
  exact hlies.1

theorem Lists.tail {cells : List Nat} {chain list : List (Nat × α)} (h : Lists cells chain list) :
    Lists cells chain.tail list.tail := by
  cases h with
  | nil => exact .nil
  | cons hlies h => exact h

theorem Lists.values {cells : List Nat} {chain list : List (Nat × α)} (h : Lists cells chain list) :
    chain.map (·.2) = list.map (·.2) := by
  induction h with
  | nil => rfl
  | cons hlies h ih => rw [List.map_cons, List.map_cons, hlies.2, ih]

/-- An entry of the list lies in the cell of its push, with the entries above it above this cell. -/
theorem Lists.split {cells : List Nat} {chain above rest : List (Nat × α)} {number cell : Nat}
    {v : α} (h : Lists cells chain (above ++ (number, v) :: rest))
    (hcell : cells[number]? = some cell) :
    ∃ higher lower, chain = higher ++ (cell, v) :: lower ∧ Lists cells higher above := by
  have habove := List.forall₂_take_append _ _ _ h
  have hbelow := List.forall₂_drop_append _ _ _ h
  obtain ⟨⟨place, w⟩, lower, hlies, -, hdrop⟩ := List.forall₂_cons_right_iff.mp hbelow
  obtain ⟨hplace, rfl⟩ := hlies
  obtain rfl : cell = place := Option.some.inj (hcell.symm.trans hplace)
  exact ⟨_, lower, by rw [← hdrop, List.take_append_drop], habove⟩

/-- A savepoint that may be restored, with the copy in its place. -/
structure SavedCopy (α : Type) where
  number : Nat
  save : Savepoint
  copy : List (Nat × α)

/-- After the calls the stack is the list, and every savepoint that may still be restored leads back
to its copy. The newest of them comes first. -/
structure Tracks (calls : List (StackCall α)) (u : SharedUse α) (c : CopiedUse α)
    (saved : List (SavedCopy α)) : Prop where
  keeps : u.stack.Keeps (saved.map (·.save))
  chain : Lists u.cells u.stack.chain c.list
  pushes : c.pushes = u.cells.length
  saves : u.saves.length = calls.countP (·.saves)
  copies : c.copies.length = calls.countP (·.saves)
  newestFirst : saved.Pairwise fun newer older => older.number < newer.number
  leadsBack : ∀ k ∈ saved, u.saves[k.number]? = some k.save ∧
    c.copies[k.number]? = some k.copy ∧ Lists u.cells (u.stack.chainAt k.save.top) k.copy
  complete : ∀ number, Outstanding calls number → ∃ k ∈ saved, k.number = number

namespace Tracks

variable {calls : List (StackCall α)} {u : SharedUse α} {c : CopiedUse α}
  {saved : List (SavedCopy α)}

theorem empty : Tracks ([] : List (StackCall α)) {} {} [] where
  keeps := .empty
  chain := .nil
  pushes := rfl
  saves := rfl
  copies := rfl
  newestFirst := .nil
  leadsBack := fun k hk => by cases hk
  complete := by
    rintro number ⟨before, after, heq, -⟩
    simp at heq

/-- A savepoint's chain stays the same as long as the stack goes on from it. -/
theorem lists_chainAt (h : Tracks calls u c saved) {t : RewindStack α} (hext : u.stack.Extends t)
    {k : SavedCopy α} (hk : k ∈ saved) : Lists u.cells (t.chainAt k.save.top) k.copy := by
  obtain ⟨-, -, hlists⟩ := h.leadsBack k hk
  rw [h.keeps.chainAt_eq hext (List.mem_map_of_mem hk)]
  exact hlists

/-- Pushing and popping leave the savepoints alone. -/
theorem goOn (h : Tracks calls u c saved) (call : StackCall α) (hsave : call.saves = false)
    {t : RewindStack α} {cells : List Nat} {list : List (Nat × α)} (hlinked : t.Linked)
    (hext : u.stack.Extends t) (hcells : u.cells <+: cells) (hchain : Lists cells t.chain list) :
    Tracks (calls ++ [call]) { u with stack := t, cells }
      { c with list, pushes := cells.length } saved where
  keeps := h.keeps.of_extends hlinked hext
  chain := hchain
  pushes := rfl
  saves := by
    rw [List.countP_append, List.countP_singleton, hsave]
    exact h.saves
  copies := by
    rw [List.countP_append, List.countP_singleton, hsave]
    exact h.copies
  newestFirst := h.newestFirst
  leadsBack := by
    intro k hk
    obtain ⟨hsaved, hcopy, -⟩ := h.leadsBack k hk
    exact ⟨hsaved, hcopy, Lists.mono (h.lists_chainAt hext hk) hcells⟩
  complete := by
    intro number hout
    rcases hout.of_concat with ⟨rfl, -⟩ | ⟨hold, -⟩
    · cases hsave
    · exact h.complete number hold

theorem push (h : Tracks calls u c saved) (v : α) :
    Tracks (calls ++ [.push v]) (u.call (.push v)) (c.call (.push v)) saved := by
  have hlinked := h.keeps.toLinked
  have hcells : u.cells <+: u.cells ++ [u.stack.nextCell] := List.prefix_append _ _
  have hchain : Lists (u.cells ++ [u.stack.nextCell]) (u.stack.push v).chain
      ((c.pushes, v) :: c.list) := by
    rw [chain_push hlinked]
    refine .cons ⟨?_, rfl⟩ (Lists.mono h.chain hcells)
    rw [h.pushes]
    exact List.getElem?_concat_length
  have hpush := h.goOn (.push v) rfl (hlinked.push v) (.push hlinked v) hcells hchain
  rw [List.length_append, ← h.pushes] at hpush
  exact hpush

theorem pop (h : Tracks calls u c saved) :
    Tracks (calls ++ [.pop]) (u.call .pop) (c.call .pop) saved := by
  have hlinked := h.keeps.toLinked
  have hchain : Lists u.cells u.stack.drop.chain c.list.tail := by
    rw [chain_drop hlinked]
    exact Lists.tail h.chain
  have hpop := h.goOn .pop rfl hlinked.drop (.drop u.stack) List.prefix_rfl hchain
  rw [← h.pushes] at hpop
  exact hpop

theorem save (h : Tracks calls u c saved) :
    Tracks (calls ++ [.save]) (u.call .save) (c.call .save)
      (⟨calls.countP (·.saves), u.stack.savepoint, c.list⟩ :: saved) where
  keeps := h.keeps.savepoint
  chain := by
    show Lists u.cells (u.stack.freeze.chainAt u.stack.top) c.list
    rw [chainAt_freeze]
    exact h.chain
  pushes := h.pushes
  saves := by
    rw [List.countP_append, ← h.saves]
    exact List.length_append
  copies := by
    rw [List.countP_append, ← h.copies]
    exact List.length_append
  newestFirst := by
    refine List.pairwise_cons.mpr ⟨fun k hk => ?_, h.newestFirst⟩
    obtain ⟨hlt, -⟩ := List.getElem?_eq_some_iff.mp (h.leadsBack k hk).1
    rw [← h.saves]
    exact hlt
  leadsBack := by
    intro k hk
    rcases List.mem_cons.mp hk with rfl | hk
    · refine ⟨?_, ?_, ?_⟩
      · rw [← h.saves]
        exact List.getElem?_concat_length
      · rw [← h.copies]
        exact List.getElem?_concat_length
      · show Lists u.cells (u.stack.freeze.chainAt u.stack.top) c.list
        rw [chainAt_freeze]
        exact h.chain
    · obtain ⟨hsaved, hcopy, -⟩ := h.leadsBack k hk
      refine ⟨?_, ?_, h.lists_chainAt (.freeze u.stack) hk⟩
      · exact (List.getElem?_append_left (List.getElem?_eq_some_iff.mp hsaved).1).trans hsaved
      · exact (List.getElem?_append_left (List.getElem?_eq_some_iff.mp hcopy).1).trans hcopy
  complete := by
    intro number hout
    rcases hout.of_concat with ⟨-, rfl⟩ | ⟨hold, -⟩
    · exact ⟨_, List.mem_cons_self, rfl⟩
    · obtain ⟨k, hk, hnumber⟩ := h.complete number hold
      exact ⟨k, List.mem_cons_of_mem _ hk, hnumber⟩

/-- Restoring a savepoint gives up the newer ones, and itself. -/
theorem restore {newer older : List (SavedCopy α)} {k : SavedCopy α}
    (h : Tracks calls u c (newer ++ k :: older)) :
    Tracks (calls ++ [.restore k.number]) (u.call (.restore k.number))
      (c.call (.restore k.number)) older := by
  obtain ⟨hsaved, hcopy, hlists⟩ := h.leadsBack k (by simp)
  have hu : u.call (.restore k.number) = { u with stack := u.stack.restore k.save } := by
    rw [SharedUse.call, hsaved, Option.elim_some]
  have hc : c.call (.restore k.number) = { c with list := k.copy } := by
    rw [CopiedUse.call, hcopy, Option.getD_some]
  rw [hu, hc]
  refine ⟨?_, ?_, h.pushes, ?_, ?_, ?_, ?_, ?_⟩
  · have hkeeps := h.keeps
    rw [List.map_append] at hkeeps
    exact hkeeps.of_append.restore
  · rw [chain_restore]
    exact hlists
  · rw [List.countP_append]
    exact h.saves
  · rw [List.countP_append]
    exact h.copies
  · exact (List.pairwise_cons.mp (List.pairwise_append.mp h.newestFirst).2.1).2
  · intro o ho
    rw [chainAt_restore]
    exact h.leadsBack o (by simp [ho])
  · intro number hout
    rcases hout.of_concat with ⟨hcall, -⟩ | ⟨hold, holder⟩
    · cases hcall
    -- what is outstanding now is older than what has been restored
    · have hlt := holder k.number rfl
      obtain ⟨o, ho, rfl⟩ := h.complete number hold
      refine ⟨o, ?_, rfl⟩
      have hpairwise := List.pairwise_append.mp h.newestFirst
      rcases List.mem_append.mp ho with hnewer | hrest
      · have hfalls := hpairwise.2.2 o hnewer k List.mem_cons_self
        omega
      · rcases List.mem_cons.mp hrest with rfl | holder
        · omega
        · exact holder

end Tracks

/-- Whatever is called for, the stack and the list stay tied together. -/
theorem tracks_run {calls : List (StackCall α)} (h : Disciplined calls) :
    ∃ saved, Tracks calls (SharedUse.run calls) (CopiedUse.run calls) saved := by
  induction calls using List.reverseRecOn with
  | nil => exact ⟨[], .empty⟩
  | append_singleton calls call ih =>
    obtain ⟨hcalls, houtstanding⟩ := h.of_concat
    obtain ⟨saved, htracks⟩ := ih hcalls
    simp only [SharedUse.run, CopiedUse.run, List.foldl_append, List.foldl_cons, List.foldl_nil]
    cases call with
    | push v => exact ⟨saved, htracks.push v⟩
    | pop => exact ⟨saved, htracks.pop⟩
    | save => exact ⟨_, htracks.save⟩
    | restore number =>
      obtain ⟨k, hk, rfl⟩ := htracks.complete number (houtstanding number rfl)
      obtain ⟨newer, older, rfl⟩ := List.append_of_mem hk
      exact ⟨older, htracks.restore⟩

/-! ## What a user sees -/

/-- Nothing that a user can ask the stack for tells it from the list. -/
structure LooksLike (u : SharedUse α) (c : CopiedUse α) : Prop where
  toList : u.stack.toList = c.values
  top? : u.stack.top? = c.values.head?
  isEmpty : u.stack.isEmpty = c.values.isEmpty
  depth : u.stack.depth = c.values.length
  answer : ∀ call, u.answer call = c.answer call
  /-- The cell that a push took leads to the values pushed onto it, oldest first. -/
  since : ∀ above number v rest cell, c.list = above ++ (number, v) :: rest →
    u.cells[number]? = some cell → u.stack.since cell = (above.map (·.2)).reverse

theorem Tracks.looksLike {calls : List (StackCall α)} {u : SharedUse α} {c : CopiedUse α}
    {saved : List (SavedCopy α)} (h : Tracks calls u c saved) : LooksLike u c := by
  have hlinked := h.keeps.toLinked
  have hlist : u.stack.toList = c.values := h.chain.values
  refine ⟨hlist, ?_, ?_, ?_, ?_, ?_⟩
  · rw [top?_eq_head? hlinked, hlist]
  · rw [isEmpty_eq hlinked, hlist]
  · rw [← hlist, RewindStack.toList, List.length_map]
    rfl
  · intro call
    cases call with
    | pop =>
      rw [CopiedUse.answer, ← hlist, ← top?_eq_head? hlinked]
      exact Option.map_map _ _ _
    | _ => rfl
  · intro above number v rest cell hc hcell
    have hchain := h.chain
    rw [hc] at hchain
    obtain ⟨higher, lower, hsplit, habove⟩ := Lists.split hchain hcell
    rw [since_eq hlinked hsplit, habove.values]

/-- After every call of a disciplined use the stack looks like the list that is copied. -/
theorem savepoints_like_copies (calls : List (StackCall α)) (h : Disciplined calls)
    (before : List (StackCall α)) (hbefore : before <+: calls) :
    LooksLike (SharedUse.run before) (CopiedUse.run before) := by
  obtain ⟨saved, htracks⟩ := tracks_run (h.earlier hbefore)
  exact htracks.looksLike

/-- The older of two savepoints is restored, after the values below both have been popped. -/
def rewindingCalls : List (StackCall Nat) :=
  [.push 1, .save, .push 2, .save, .pop, .pop, .push 3, .restore 0, .push 4]

theorem disciplined_rewindingCalls : Disciplined rewindingCalls := by
  intro before number after heq
  have hat : rewindingCalls[before.length]? = some (.restore number) := by
    rw [heq, List.getElem?_append_right (Nat.le_refl _), Nat.sub_self]
    rfl
  have hlt : before.length < 9 := (List.getElem?_eq_some_iff.mp hat).1
  have htake : before = rewindingCalls.take before.length := by
    rw [heq, List.take_left]
  -- only one of the calls restores a savepoint
  generalize before.length = i at hat hlt htake
  interval_cases i
  all_goals cases hat
  rw [htake]
  exact ⟨[.push 1], [.push 2, .save, .pop, .pop, .push 3], rfl, rfl, by simp⟩

theorem savepoints_like_copies_rewindingCalls :
    Disciplined rewindingCalls ∧ rewindingCalls <+: rewindingCalls ∧
      LooksLike (SharedUse.run rewindingCalls) (CopiedUse.run rewindingCalls) :=
  ⟨disciplined_rewindingCalls, List.prefix_rfl,
    savepoints_like_copies rewindingCalls disciplined_rewindingCalls rewindingCalls
      List.prefix_rfl⟩

end QueryMachine
