import QueryMachine.Machine.Fault

/-!
# Interrupts

A run can be given an `Interrupt`: a flag that anyone who knows it may raise, and perhaps a
deadline. The state of the flags and of the clock is a `Signals`, which runs share. A raised
flag stays raised.
-/

namespace QueryMachine

/-- The raised flags, and the present time. -/
structure Signals where
  raised : List Nat := []
  now : Nat := 0
  deriving DecidableEq, Repr, Inhabited

namespace Signals

/-- Whether a flag is raised. -/
def isRaised (s : Signals) (flag : Nat) : Bool :=
  s.raised.contains flag

/-- Raise a flag. -/
def raise (s : Signals) (flag : Nat) : Signals :=
  if s.isRaised flag then s else { s with raised := flag :: s.raised }

/-- Raise a flag if there is one to raise. -/
def raise? (s : Signals) (flag : Option Nat) : Signals :=
  flag.elim s s.raise

end Signals

/-- The flag that a run obeys, and its deadline. Interrupts with the same flag are tripped
together. -/
structure Interrupt where
  flag : Nat
  deadline : Option Nat := none
  deriving DecidableEq, Repr, Inhabited

namespace Interrupt

/-- Whether the interrupt's flag is raised. -/
def isCanceled (i : Interrupt) (signals : Signals) : Bool :=
  signals.isRaised i.flag

/-- The reason to stop, if there is one. A request counts before the deadline. -/
def check (i : Interrupt) (signals : Signals) : Option CancelReason :=
  if i.isCanceled signals then some .requested
  else
    match i.deadline with
    | some deadline => if deadline ≤ signals.now then some .deadlineExceeded else none
    | none => none

end Interrupt

end QueryMachine
