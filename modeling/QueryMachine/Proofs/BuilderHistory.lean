import Mathlib.Order.Lattice
import Mathlib.Tactic.Common
import QueryMachine.Program.Builder

/-!
# What a program keeps of its builder's history

A builder is told what to do call by call. The code, the line table and the function marks each
keep only a part of that: a patch overwrites the target that was there before, the line table has
an entry only where the line changes, and a mark holds no more than its position. Still the
finished program answers as if it could look up the whole history (`build_replays`).

Histories are read backwards, the latest call first, so that the last call of a kind is the first
one met. Position `i` of the code belongs to the call before which `i` instructions had been added
(`Emits`).
-/

namespace QueryMachine

/-! ## Targets -/

namespace Instruction

variable {i : Instruction} {s t : Nat}

/-- The instructions that have a target, each as a function of it. -/
def jumps : List (Nat → Instruction) :=
  [.fork, .forkOpt, .jump, .jumpIfNot, .call, .pushPc]

/-- The two instructions are the same but for their targets, and the second has this one. -/
def Retargeted (i j : Instruction) (target : Nat) : Prop :=
  ∃ form ∈ jumps, ∃ old, i = form old ∧ j = form target

theorem retargeted_retarget (h : i.target?.isSome) : Retargeted i (i.retarget t) t := by
  cases i
  case fork old => exact ⟨.fork, by simp [jumps], old, rfl, rfl⟩
  case forkOpt old => exact ⟨.forkOpt, by simp [jumps], old, rfl, rfl⟩
  case jump old => exact ⟨.jump, by simp [jumps], old, rfl, rfl⟩
  case jumpIfNot old => exact ⟨.jumpIfNot, by simp [jumps], old, rfl, rfl⟩
  case call old => exact ⟨.call, by simp [jumps], old, rfl, rfl⟩
  case pushPc old => exact ⟨.pushPc, by simp [jumps], old, rfl, rfl⟩
  all_goals cases h

/-- Of two patches the later one counts. -/
@[simp]
theorem retarget_retarget (i : Instruction) (s t : Nat) :
    (i.retarget s).retarget t = i.retarget t := by
  cases i <;> rfl

end Instruction

/-! ## Searching marks -/

namespace Program

variable {α : Type} {position : α → Nat} {marks : List α} {pc : Nat}

theorem lastMark?_concat (marks : List α) (mark : α) (pc : Nat) :
    lastMark? position (marks ++ [mark]) pc =
      if position mark ≤ pc then some mark else lastMark? position marks pc := by
  by_cases h : position mark ≤ pc <;> simp [lastMark?, h]

theorem lastMark?_reverse (marks : List α) (pc : Nat) :
    lastMark? position marks.reverse pc = marks.find? (position · ≤ pc) := by
  rw [lastMark?, List.filter_reverse, List.getLast?_reverse, List.head?_filter]

/-- From a position behind all marks the last mark is seen. -/
theorem lastMark?_of_le (h : ∀ mark ∈ marks, position mark ≤ pc) :
    lastMark? position marks pc = marks.getLast? := by
  rw [lastMark?, List.filter_eq_self.mpr (by simpa using h)]

/-- What a binary search for a key among ascending keys may answer: where the key is, or, if it is
not there, where it could be put in. -/
def Searched (keys : List Nat) (key : Nat) : Except Nat Nat → Prop
  | .ok k => keys[k]? = some key
  | .error k => key ∉ keys ∧ k ≤ keys.length ∧
      (∀ x ∈ keys.take k, x ≤ key) ∧ ∀ x ∈ keys.drop k, key ≤ x

/-- The mark that the answer of a search leads to: the one found, or else the one before the
place where the key is missing. -/
def markFound? (marks : List α) : Except Nat Nat → Option α
  | .ok k => marks[k]?
  | .error k => if 0 < k then marks[k - 1]? else none

/-- Where no two marks share a position, every search that does its job finds the last mark. -/
theorem markFound?_eq_lastMark? {found : Except Nat Nat}
    (hasc : (marks.map position).Pairwise (· < ·))
    (h : Searched (marks.map position) pc found) :
    markFound? marks found = lastMark? position marks pc := by
  -- either way the search splits the marks into those up to `pc` and those beyond
  have hsplit : ∀ k, (∀ mark ∈ marks.take k, position mark ≤ pc) →
      (∀ mark ∈ marks.drop k, pc < position mark) →
      lastMark? position marks pc = (marks.take k).getLast? := by
    intro k hbefore hbeyond
    have hall : (marks.take k).filter (position · ≤ pc) = marks.take k := by
      simpa using hbefore
    have hnone : (marks.drop k).filter (position · ≤ pc) = [] := by
      simpa using hbeyond
    have hfilter : marks.filter (position · ≤ pc) = marks.take k := by
      conv_lhs => rw [← List.take_append_drop k marks, List.filter_append, hall, hnone,
        List.append_nil]
    rw [lastMark?, hfilter]
  cases found with
  | ok k =>
    obtain ⟨mark, hmark, hpc⟩ : ∃ mark, marks[k]? = some mark ∧ position mark = pc := by
      simpa [Searched] using h
    obtain ⟨hk, rfl⟩ := List.getElem?_eq_some_iff.mp hmark
    have hlt := List.pairwise_iff_getElem.mp (List.pairwise_map.mp hasc)
    rw [hsplit (k + 1), List.getLast?_take, markFound?, if_neg (Nat.succ_ne_zero k),
      Nat.add_sub_cancel, hmark, Option.some_or]
    · intro mark hbefore
      obtain ⟨i, hi, rfl⟩ := List.mem_take_iff_getElem.mp hbefore
      rcases Nat.lt_or_ge i k with hik | hik
      · exact hpc ▸ (hlt i k (by omega) hk hik).le
      · obtain rfl : i = k := by omega
        exact hpc.le
    · intro mark hbeyond
      obtain ⟨i, hi, rfl⟩ := List.mem_drop_iff_getElem.mp hbeyond
      exact hpc ▸ hlt k (k + 1 + i) hk (by omega) (by omega)
  | error k =>
    obtain ⟨hmissing, hk, hbefore, hbeyond⟩ := h
    rw [List.length_map] at hk
    rw [hsplit k, List.getLast?_take, markFound?]
    · rcases Nat.eq_zero_or_pos k with rfl | hpos
      · rfl
      · rw [if_pos hpos, if_neg hpos.ne', List.getElem?_eq_getElem (by omega)]
        rfl
    · intro mark hmem
      exact hbefore _ (List.map_take ▸ List.mem_map_of_mem hmem)
    · intro mark hmem
      refine lt_of_le_of_ne (hbeyond _ (List.map_drop ▸ List.mem_map_of_mem hmem)) ?_
      rintro rfl
      exact hmissing (List.mem_map_of_mem (List.mem_of_mem_drop hmem))

end Program

namespace Builder

/-! ## Histories -/

/-- What a builder can be told to do. -/
inductive Call where
  /-- Add an instruction. -/
  | emit (i : Instruction)
  /-- Add an instruction whose target is set later. -/
  | emitOpen (i : Instruction)
  /-- Set the target of a label's instruction. -/
  | bind (label : Label) (target : Nat)
  /-- Set the target of a label's instruction to the position of the next one. -/
  | bindHere (label : Label)
  /-- Name the source line of the instructions that follow. -/
  | setLine (line : UInt32)
  /-- Name the function that starts at the next instruction. -/
  | markFunction (name : String)

namespace Call

/-- The builder after the call. -/
def perform (b : Builder) : Call → Builder
  | .emit i => b.emit i
  | .emitOpen i => (b.emitOpen i).1
  | .bind label target => b.bind label target
  | .bindHere label => b.bindHere label
  | .setLine line => b.setLine line
  | .markFunction name => b.markFunction name

/-- The instruction that the call adds. -/
def instruction? : Call → Option Instruction
  | .emit i | .emitOpen i => some i
  | _ => none

/-- The source line that the call names. -/
def line? : Call → Option UInt32
  | .setLine line => some line
  | _ => none

end Call

/-- The builder after a history of calls, the latest of them first. -/
def after (b : Builder) (calls : List Call) : Builder :=
  calls.foldr (fun call earlier => call.perform earlier) b

/-- The number of instructions that a history has added. -/
def emitted (calls : List Call) : Nat :=
  calls.countP (·.instruction?.isSome)

/-- The history adds this instruction at position `i`, and `before` is what happened before. -/
def Emits (calls : List Call) (i : Nat) (ins : Instruction) (before : List Call) : Prop :=
  ∃ call, call :: before <:+ calls ∧ call.instruction? = some ins ∧ emitted before = i

/-- The patches of a history, the latest one first: which position gets which target. -/
def patches : List Call → List (Nat × Nat)
  | [] => []
  | .bind label target :: earlier => (label.pc, target) :: patches earlier
  | .bindHere label :: earlier => (label.pc, emitted earlier) :: patches earlier
  | _ :: earlier => patches earlier

/-- The target of the last patch made through a label of a position. -/
def lastTarget? (i : Nat) (calls : List Call) : Option Nat :=
  ((patches calls).find? (·.1 = i)).map (·.2)

/-- The argument of the last call that named a source line. -/
def lastLine? (calls : List Call) : Option UInt32 :=
  calls.findSome? Call.line?

/-- The function marks of a history, the latest one first. -/
def marks : List Call → List FunctionMark
  | [] => []
  | .markFunction name :: earlier => ⟨name, emitted earlier⟩ :: marks earlier
  | _ :: earlier => marks earlier

/-- The name of the last mark made at a position up to `pc`. -/
def lastName? (pc : Nat) (calls : List Call) : Option String :=
  ((marks calls).find? (·.pc ≤ pc)).map (·.name)

/-- The history has handed out the label, for an instruction with a target. -/
def HandedOut (b : Builder) (label : Label) (calls : List Call) : Prop :=
  ∃ ins before, .emitOpen ins :: before <:+ calls ∧ ins.target?.isSome ∧
    label = ((b.after before).emitOpen ins).2

/-- Labels are used after they were handed out only. -/
def WellMade (b : Builder) : List Call → Prop
  | [] => True
  | .bind label _ :: earlier | .bindHere label :: earlier =>
    HandedOut b label earlier ∧ WellMade b earlier
  | _ :: earlier => WellMade b earlier

/-! ## Positions -/

variable {call : Call} {calls before : List Call} {i : Nat} {ins : Instruction} {b : Builder}

theorem emitted_cons (call : Call) (calls : List Call) :
    emitted (call :: calls) = emitted calls + if call.instruction?.isSome then 1 else 0 :=
  List.countP_cons

theorem emits_cons :
    Emits (call :: calls) i ins before ↔
      (call.instruction? = some ins ∧ before = calls ∧ i = emitted calls) ∨
        Emits calls i ins before := by
  constructor
  · rintro ⟨call', hsuffix, hins, rfl⟩
    rcases List.suffix_cons_iff.mp hsuffix with heq | hsuffix
    · obtain ⟨rfl, rfl⟩ := List.cons.inj heq
      exact .inl ⟨hins, rfl, rfl⟩
    · exact .inr ⟨call', hsuffix, hins, rfl⟩
  · rintro (⟨hins, rfl, rfl⟩ | ⟨call', hsuffix, hins, rfl⟩)
    · exact ⟨call, List.suffix_refl _, hins, rfl⟩
    · exact ⟨call', hsuffix.trans (List.suffix_cons call calls), hins, rfl⟩

theorem Emits.lt (h : Emits calls i ins before) : i < emitted calls := by
  obtain ⟨call, hsuffix, hins, rfl⟩ := h
  have hle : emitted (call :: before) ≤ emitted calls := hsuffix.sublist.countP_le
  simp only [emitted_cons, hins, Option.isSome_some, if_true] at hle
  exact hle

/-- A position belongs to one call only. -/
theorem Emits.unique {ins' : Instruction} {before' : List Call} (h : Emits calls i ins before)
    (h' : Emits calls i ins' before') : ins = ins' ∧ before = before' := by
  induction calls with
  | nil => exact absurd h.lt (Nat.not_lt_zero i)
  | cons call calls ih =>
    rcases emits_cons.mp h with ⟨hins, rfl, rfl⟩ | hold
    · rcases emits_cons.mp h' with ⟨hins', rfl, -⟩ | hold'
      · exact ⟨Option.some.inj (hins.symm.trans hins'), rfl⟩
      · exact absurd hold'.lt (Nat.lt_irrefl _)
    · rcases emits_cons.mp h' with ⟨-, -, rfl⟩ | hold'
      · exact absurd hold.lt (Nat.lt_irrefl _)
      · exact ih hold hold'

/-- Every position up to the number of instructions belongs to a call. -/
theorem exists_emits (h : i < emitted calls) : ∃ ins before, Emits calls i ins before := by
  induction calls with
  | nil => exact absurd h (Nat.not_lt_zero i)
  | cons call calls ih =>
    rcases Nat.lt_or_ge i (emitted calls) with hlt | hge
    · obtain ⟨ins, before, hold⟩ := ih hlt
      exact ⟨ins, before, emits_cons.mpr (.inr hold)⟩
    · rw [emitted_cons] at h
      split at h
      · obtain ⟨ins, hins⟩ := Option.isSome_iff_exists.mp ‹_›
        exact ⟨ins, calls, emits_cons.mpr (.inl ⟨hins, rfl, by omega⟩)⟩
      · omega

/-- The next position is the number of instructions added so far. -/
theorem pc_after (hb : b.code = #[]) (calls : List Call) : (b.after calls).pc = emitted calls := by
  induction calls with
  | nil => rw [pc, after, List.foldr_nil, hb]; rfl
  | cons call calls ih =>
    rw [emitted_cons, ← ih]
    cases call <;>
      simp [after, Call.perform, Call.instruction?, pc, emit, emitOpen, bind, bindHere, setLine,
        markFunction]

/-! ## Instructions and their patches -/

variable {label : Label} {target : Nat}

/-- A label that was handed out is the position of an instruction with a target. -/
theorem HandedOut.emits (hb : b.code = #[]) (h : HandedOut b label calls) :
    ∃ ins before, ins.target?.isSome ∧ Emits calls label.pc ins before := by
  obtain ⟨ins, before, hsuffix, htarget, rfl⟩ := h
  exact ⟨ins, before, htarget, .emitOpen ins, hsuffix, rfl, (pc_after hb before).symm⟩

/-- So is every position that was patched. -/
theorem emits_of_mem_patches (hb : b.code = #[]) (h : WellMade b calls)
    (hmem : (i, target) ∈ patches calls) :
    ∃ ins before, ins.target?.isSome ∧ Emits calls i ins before := by
  have later : ∀ {call : Call} {calls : List Call},
      (∃ ins before, ins.target?.isSome ∧ Emits calls i ins before) →
        ∃ ins before, ins.target?.isSome ∧ Emits (call :: calls) i ins before :=
    fun ⟨ins, before, htarget, hold⟩ => ⟨ins, before, htarget, emits_cons.mpr (.inr hold)⟩
  induction calls with
  | nil => cases hmem
  | cons call calls ih =>
    cases call
    case bind label t =>
      rcases List.mem_cons.mp hmem with heq | hmem
      · obtain ⟨rfl, -⟩ := Prod.mk.inj heq
        exact later (h.1.emits hb)
      · exact later (ih h.2 hmem)
    case bindHere label =>
      rcases List.mem_cons.mp hmem with heq | hmem
      · obtain ⟨rfl, -⟩ := Prod.mk.inj heq
        exact later (h.1.emits hb)
      · exact later (ih h.2 hmem)
    all_goals exact later (ih h hmem)

theorem mem_patches_of_lastTarget? (h : lastTarget? i calls = some target) :
    (i, target) ∈ patches calls := by
  obtain ⟨⟨place, t⟩, hfind, rfl⟩ := Option.map_eq_some_iff.mp h
  obtain rfl : place = i := by simpa using List.find?_some hfind
  exact List.mem_of_find?_eq_some hfind

/-- The next instruction has not been patched yet. -/
theorem lastTarget?_emitted (hb : b.code = #[]) (h : WellMade b calls) :
    lastTarget? (emitted calls) calls = none := by
  rw [Option.eq_none_iff_forall_ne_some]
  intro target htarget
  obtain ⟨ins, before, -, hemits⟩ := emits_of_mem_patches hb h (mem_patches_of_lastTarget? htarget)
  exact absurd hemits.lt (Nat.lt_irrefl _)

theorem after_cons (b : Builder) (call : Call) (calls : List Call) :
    b.after (call :: calls) = call.perform (b.after calls) := rfl

/-- Adding an instruction takes the next position and leaves the others alone. -/
theorem getElem?_code_emit (b : Builder) (j : Instruction) (i : Nat) :
    (b.emit j).code[i]? = if i = b.pc then some j else b.code[i]? :=
  Array.getElem?_push

theorem getElem?_code_bind (b : Builder) (label : Label) (target i : Nat) :
    (b.bind label target).code[i]? =
      if label.pc = i then b.code[i]?.map (Instruction.retarget target) else b.code[i]? :=
  Array.getElem?_modify

/-- An instruction stays as it was added, up to its last patch. -/
theorem getElem?_code_after (hb : b.code = #[]) (h : WellMade b calls)
    (hemits : Emits calls i ins before) :
    (b.after calls).code[i]? =
      some ((lastTarget? i calls).elim ins fun target => ins.retarget target) := by
  induction calls with
  | nil => exact absurd hemits.lt (Nat.not_lt_zero i)
  | cons call calls ih =>
    -- the three kinds of call: one that adds, one that patches, one that does neither
    have added : ∀ {j : Instruction}, WellMade b calls →
        (some j = some ins ∧ before = calls ∧ i = emitted calls) ∨ Emits calls i ins before →
        ((b.after calls).emit j).code[i]? =
          some ((lastTarget? i calls).elim ins fun target => ins.retarget target) := by
      intro j h hemits
      rw [getElem?_code_emit, pc_after hb]
      rcases hemits with ⟨heq, -, rfl⟩ | hold
      · rw [if_pos rfl, lastTarget?_emitted hb h]
        exact heq
      · rw [if_neg hold.lt.ne, ih h hold]
    have patched : ∀ {label : Label} {target : Nat}, WellMade b calls → Emits calls i ins before →
        ((b.after calls).bind label target).code[i]? =
          some ((((label.pc, target) :: patches calls).find? (·.1 = i)).map (·.2) |>.elim ins
            fun target => ins.retarget target) := by
      intro label target h hold
      rw [getElem?_code_bind, ih h hold]
      by_cases heq : label.pc = i
      · rw [if_pos heq, List.find?_cons_of_pos (by simpa using heq)]
        cases lastTarget? i calls <;> simp
      · rw [if_neg heq, List.find?_cons_of_neg (by simpa using heq)]
        rfl
    have hold := emits_cons.mp hemits
    cases call with
    | emit j => exact added h hold
    | emitOpen j => exact added h hold
    | bind label target => exact patched h.2 (hold.resolve_left fun hins => nomatch hins.1)
    | bindHere label =>
      rw [after_cons, Call.perform, bindHere, pc_after hb]
      exact patched h.2 (hold.resolve_left fun hins => nomatch hins.1)
    | setLine line => exact ih h (hold.resolve_left fun hins => nomatch hins.1)
    | markFunction name => exact ih h (hold.resolve_left fun hins => nomatch hins.1)

/-! ## The line table -/

theorem linesHere_of_none (h : b.line = none) : b.linesHere = b.lines := by
  rw [linesHere, h]

theorem linesHere_of_some {line : UInt32} (h : b.line = some line) :
    b.linesHere =
      if b.lines.back?.map (·.line) = some line then b.lines else b.lines.push ⟨b.pc, line⟩ := by
  rw [linesHere, h]

/-- The line table of a builder with this history tells the line of every instruction. -/
structure TellsLines (calls : List Call) (b : Builder) : Prop where
  /-- The builder's line is the last one named. -/
  line : b.line = lastLine? calls
  /-- The next position is the number of instructions added so far. -/
  pc : b.pc = emitted calls
  /-- There are no marks before the first line was named. -/
  unmarked : lastLine? calls = none → b.lines.toList = []
  /-- All marks are on instructions. -/
  below : ∀ mark ∈ b.lines.toList, mark.pc < emitted calls
  /-- The marks ascend. -/
  ascending : (b.lines.toList.map (·.pc)).Pairwise (· < ·)
  /-- The last mark up to an instruction has the line that was the last one named before. -/
  tells : ∀ {i ins before}, Emits calls i ins before →
    (Program.lastMark? LineMark.pc b.lines.toList i).map (·.line) = lastLine? before

/-- A call that adds no instruction and names no line leaves the line table as it is. -/
theorem TellsLines.of_same {b' : Builder} (h : TellsLines calls b) (hins : call.instruction? = none)
    (hline : b'.line = lastLine? (call :: calls)) (hlines : b'.lines = b.lines)
    (hsize : b'.pc = b.pc) (hnone : lastLine? (call :: calls) = none → lastLine? calls = none) :
    TellsLines (call :: calls) b' := by
  have hemitted : emitted (call :: calls) = emitted calls := by
    simp [emitted_cons, hins]
  refine ⟨hline, by rw [hsize, hemitted, h.pc], ?_, ?_, ?_, ?_⟩
  · exact fun hcalls => hlines ▸ h.unmarked (hnone hcalls)
  · rw [hlines, hemitted]
    exact h.below
  · rw [hlines]
    exact h.ascending
  · intro i ins before hemits
    rw [hlines]
    refine h.tells ((emits_cons.mp hemits).resolve_left ?_)
    rw [hins]
    exact fun hnew => nomatch hnew.1

/-- The number of instructions and the line, after an instruction was added. -/
theorem TellsLines.emit_basic {j : Instruction} (h : TellsLines calls b)
    (hins : call.instruction? = some j) (hline : call.line? = none) :
    emitted (call :: calls) = emitted calls + 1 ∧ lastLine? (call :: calls) = lastLine? calls ∧
      (b.emit j).line = lastLine? (call :: calls) ∧ (b.emit j).pc = emitted (call :: calls) := by
  have hemitted : emitted (call :: calls) = emitted calls + 1 := by
    simp [emitted_cons, hins]
  have hlast : lastLine? (call :: calls) = lastLine? calls := by
    simp [lastLine?, hline]
  refine ⟨hemitted, hlast, hlast ▸ h.line, ?_⟩
  rw [hemitted, ← h.pc]
  exact Array.size_push j

/-- If the last mark has the line of a new instruction already, the table may stay as it is. -/
theorem TellsLines.emit_of_same {j : Instruction} (h : TellsLines calls b)
    (hins : call.instruction? = some j) (hline : call.line? = none)
    (hsame : b.linesHere = b.lines) (hnew : b.lines.back?.map (·.line) = lastLine? calls) :
    TellsLines (call :: calls) (b.emit j) := by
  obtain ⟨hemitted, hlast, hline, hpc⟩ := h.emit_basic hins hline
  have hlines : (b.emit j).lines.toList = b.lines.toList := congrArg Array.toList hsame
  refine ⟨hline, hpc, ?_, ?_, hlines ▸ h.ascending, ?_⟩
  · rw [hlast, hlines]
    exact h.unmarked
  · rw [hlines, hemitted]
    exact fun mark hmark => Nat.lt_succ_of_lt (h.below mark hmark)
  · intro i ins before hemits
    rw [hlines]
    rcases emits_cons.mp hemits with ⟨-, rfl, rfl⟩ | hold
    · -- every mark there was is seen from the new instruction
      rw [Program.lastMark?_of_le fun mark hmark => (h.below mark hmark).le,
        Array.getLast?_toList, hnew]
    · exact h.tells hold

/-- A mark at a new instruction leaves the older instructions their lines. -/
theorem TellsLines.emit_of_push {j : Instruction} {line : UInt32} (h : TellsLines calls b)
    (hins : call.instruction? = some j) (hline : call.line? = none)
    (hcurrent : lastLine? calls = some line) (hpush : b.linesHere = b.lines.push ⟨b.pc, line⟩) :
    TellsLines (call :: calls) (b.emit j) := by
  obtain ⟨hemitted, hlast, hline, hpc⟩ := h.emit_basic hins hline
  have hlines : (b.emit j).lines.toList = b.lines.toList ++ [⟨emitted calls, line⟩] := by
    rw [← h.pc]
    exact (congrArg Array.toList hpush).trans Array.toList_push
  refine ⟨hline, hpc, ?_, ?_, ?_, ?_⟩
  · rw [hlast, hcurrent]
    exact fun hnone => nomatch hnone
  · intro mark hmark
    rw [hemitted]
    rcases List.mem_append.mp (hlines ▸ hmark) with hold | hnew
    · exact Nat.lt_succ_of_lt (h.below mark hold)
    · rw [List.mem_singleton.mp hnew]
      exact Nat.lt_succ_self _
  · rw [hlines, List.map_append, List.pairwise_append]
    refine ⟨h.ascending, List.pairwise_singleton _ _, ?_⟩
    intro old hold new hnew
    obtain ⟨mark, hmark, rfl⟩ := List.mem_map.mp hold
    rw [List.mem_singleton.mp hnew]
    exact h.below mark hmark
  · intro i ins before hemits
    rw [hlines, Program.lastMark?_concat]
    rcases emits_cons.mp hemits with ⟨-, rfl, rfl⟩ | hold
    · rw [if_pos (le_refl _), hcurrent]
      rfl
    · rw [if_neg (Nat.not_le.mpr hold.lt)]
      exact h.tells hold

theorem TellsLines.emit {j : Instruction} (h : TellsLines calls b)
    (hins : call.instruction? = some j) (hline : call.line? = none) :
    TellsLines (call :: calls) (b.emit j) := by
  cases hcurrent : lastLine? calls with
  | none =>
    refine h.emit_of_same hins hline (linesHere_of_none (h.line.trans hcurrent)) ?_
    rw [← Array.getLast?_toList, h.unmarked hcurrent, hcurrent]
    rfl
  | some line =>
    have hhere := linesHere_of_some (h.line.trans hcurrent)
    split at hhere
    · exact h.emit_of_same hins hline hhere (by rw [hcurrent]; assumption)
    · exact h.emit_of_push hins hline hcurrent hhere

theorem tellsLines_after (name : String) (natives : NativeTable) (calls : List Call) :
    TellsLines calls ((withNatives name natives).after calls) := by
  induction calls with
  | nil => exact ⟨rfl, rfl, fun _ => rfl, nofun, List.Pairwise.nil, fun h => absurd h.lt nofun⟩
  | cons call calls ih =>
    rw [after_cons]
    cases call with
    | emit j => exact ih.emit rfl rfl
    | emitOpen j => exact ih.emit rfl rfl
    | bind label target => exact ih.of_same rfl ih.line rfl (Array.size_modify ..) id
    | bindHere label => exact ih.of_same rfl ih.line rfl (Array.size_modify ..) id
    | setLine line => exact ih.of_same rfl rfl rfl rfl nofun
    | markFunction name => exact ih.of_same rfl ih.line rfl rfl id

/-! ## The function marks -/

theorem functions_after (name : String) (natives : NativeTable) (calls : List Call) :
    ((withNatives name natives).after calls).functions.toList = (marks calls).reverse := by
  induction calls with
  | nil => rfl
  | cons call calls ih =>
    rw [after_cons]
    cases call
    case markFunction mark =>
      have hpc := pc_after (b := withNatives name natives) rfl calls
      rw [marks, List.reverse_cons, ← ih, ← hpc]
      exact Array.toList_push
    all_goals exact ih

/-- Marks are made at ascending positions. -/
theorem marks_descending (calls : List Call) :
    ((marks calls).map (·.pc)).Pairwise (· ≥ ·) ∧
      ∀ mark ∈ marks calls, mark.pc ≤ emitted calls := by
  induction calls with
  | nil => exact ⟨List.Pairwise.nil, nofun⟩
  | cons call calls ih =>
    have hle : emitted calls ≤ emitted (call :: calls) := by
      rw [emitted_cons]
      exact Nat.le_add_right _ _
    have hold : ∀ mark ∈ marks calls, mark.pc ≤ emitted (call :: calls) :=
      fun mark hmark => (ih.2 mark hmark).trans hle
    cases call
    case markFunction name =>
      refine ⟨List.pairwise_cons.mpr ⟨?_, ih.1⟩, List.forall_mem_cons.mpr ⟨hle, hold⟩⟩
      intro place hplace
      obtain ⟨mark, hmark, rfl⟩ := List.mem_map.mp hplace
      exact ih.2 mark hmark
    all_goals exact ⟨ih.1, hold⟩

/-! ## The finished program -/

/-- The program answers as the history says. Wherever a binary search is used to look something
up, any answer that such a search may give will do. -/
structure Replays (calls : List Call) (p : Program) : Prop where
  /-- There is one instruction for every call that added one. -/
  length : p.length = emitted calls
  emission : ∀ i < p.length, ∃ ins before, Emits calls i ins before
  /-- An instruction that was never patched is the one that was added. -/
  unpatched : ∀ {i ins before}, Emits calls i ins before → lastTarget? i calls = none →
    p.at? i = some ins
  /-- A patched one is the same but for its target, which is that of the last patch. -/
  patched : ∀ {i ins before target}, Emits calls i ins before →
    lastTarget? i calls = some target →
    ∃ j, p.at? i = some j ∧ ins.Retargeted j target
  /-- The line marks ascend, no two at one position. -/
  linesAscend : (p.lines.toList.map (·.pc)).Pairwise (· < ·)
  /-- The line is the last one named before the instruction was added. -/
  line : ∀ {i ins before}, Emits calls i ins before → p.lineAt? i = lastLine? before
  lineSearched : ∀ {i ins before found}, Emits calls i ins before →
    Program.Searched (p.lines.toList.map (·.pc)) i found →
    (Program.markFound? p.lines.toList found).map (·.line) = lastLine? before
  /-- The function marks ascend. -/
  functionsAscend : (p.functions.toList.map (·.pc)).Pairwise (· ≤ ·)
  /-- The function is the one of the last mark made up to the position. -/
  function : ((marks calls).map (·.pc)).Nodup → ∀ pc, p.functionAt? pc = lastName? pc calls
  functionSearched : ((marks calls).map (·.pc)).Nodup → ∀ {pc found},
    Program.Searched (p.functions.toList.map (·.pc)) pc found →
    (Program.markFound? p.functions.toList found).map (·.name) = lastName? pc calls

/-- A finished program replays the history of its builder, if labels were used as they were
handed out. -/
theorem build_replays (name : String) (natives : NativeTable) (calls : List Call)
    (h : WellMade (withNatives name natives) calls) :
    Replays calls ((withNatives name natives).after calls).build := by
  have hcode := fun {i ins before} (hemits : Emits calls i ins before) =>
    getElem?_code_after (b := withNatives name natives) rfl h hemits
  have hlines := tellsLines_after name natives calls
  have hfunctions := functions_after name natives calls
  have hfunction : ∀ pc, (Program.lastMark? FunctionMark.pc
      ((withNatives name natives).after calls).functions.toList pc).map (·.name) =
        lastName? pc calls := by
    intro pc
    rw [hfunctions, Program.lastMark?_reverse, lastName?]
  have hlength : ((withNatives name natives).after calls).build.length = emitted calls :=
    pc_after rfl calls
  constructor
  case length => exact hlength
  case emission => exact fun i hi => exists_emits (hlength ▸ hi)
  case unpatched =>
    intro i ins before hemits hnone
    have hat := hcode hemits
    rwa [hnone] at hat
  case patched =>
    intro i ins before target hemits htarget
    have hat := hcode hemits
    rw [htarget] at hat
    -- the label of the patch was handed out for this very instruction
    obtain ⟨ins', before', hjump, hemits'⟩ :=
      emits_of_mem_patches rfl h (mem_patches_of_lastTarget? htarget)
    obtain ⟨rfl, -⟩ := hemits.unique hemits'
    exact ⟨_, hat, Instruction.retargeted_retarget hjump⟩
  case linesAscend => exact hlines.ascending
  case line => exact fun hemits => hlines.tells hemits
  case lineSearched =>
    intro i ins before found hemits hfound
    have hsame := Program.markFound?_eq_lastMark? hlines.ascending hfound
    exact (congrArg (Option.map (·.line)) hsame).trans (hlines.tells hemits)
  case functionsAscend =>
    change (((withNatives name natives).after calls).functions.toList.map (·.pc)).Pairwise (· ≤ ·)
    rw [hfunctions, List.map_reverse, List.pairwise_reverse]
    exact (marks_descending calls).1
  case function => exact fun _ pc => hfunction pc
  case functionSearched =>
    intro hnodup pc found hfound
    have hasc : (((withNatives name natives).after calls).functions.toList.map (·.pc)).Pairwise
        (· < ·) := by
      rw [hfunctions, List.map_reverse, List.pairwise_reverse]
      have hdesc := List.pairwise_and_iff.mpr ⟨(marks_descending calls).1, hnodup⟩
      exact hdesc.imp fun h => lt_of_le_of_ne h.1 h.2.symm
    have hsame := Program.markFound?_eq_lastMark? hasc hfound
    exact (congrArg (Option.map (·.name)) hsame).trans (hfunction pc)

/-- A jump whose label is bound twice, between lines that return to an earlier one. -/
def twiceBound : List Call :=
  [.bind ⟨1⟩ 0, .emit .ret, .markFunction "helper", .setLine 1, .bindHere ⟨1⟩, .emit .nop,
    .setLine 2, .setLine 3, .emitOpen (.jump 9), .markFunction "main", .emit .nop, .setLine 1]

theorem build_replays_twiceBound :
    WellMade (withNatives "twice" {}) twiceBound ∧
      Replays twiceBound ((withNatives "twice" {}).after twiceBound).build := by
  have handedOut : ∀ later, HandedOut (withNatives "twice" {}) ⟨1⟩ (later ++
      [.emitOpen (.jump 9), .markFunction "main", .emit .nop, .setLine 1]) :=
    fun later => ⟨.jump 9, _, List.suffix_append later _, rfl, rfl⟩
  have hmade : WellMade (withNatives "twice" {}) twiceBound :=
    ⟨handedOut [.emit .ret, .markFunction "helper", .setLine 1, .bindHere ⟨1⟩, .emit .nop,
      .setLine 2, .setLine 3], handedOut [.emit .nop, .setLine 2, .setLine 3], trivial⟩
  exact ⟨hmade, build_replays "twice" {} twiceBound hmade⟩

end Builder

end QueryMachine
