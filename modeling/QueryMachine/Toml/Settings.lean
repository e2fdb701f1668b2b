import QueryMachine.Machine.Settings
import QueryMachine.Toml.Document

/-!
# Settings in TOML

Four names at the top of a document choose the settings. A name that is missing leaves its
default, and names of anything else are not looked at.
-/

namespace QueryMachine

namespace Toml

/-- The truth value that a node stands for. -/
def Node.boolean? : Node → Option Bool
  | .boolean b => some b
  | _ => none

/-- A whole number that is not negative. -/
def Node.natural? : Node → Option Nat
  | .integer n => if 0 ≤ n then some n.toNat else none
  | _ => none

/-- A whole number that 32 bits hold. -/
def Node.word32? (n : Node) : Option UInt32 := do
  let n ← n.natural?
  if n < UInt32.size then some (UInt32.ofNat n) else none

/-- What a name says, or the default if the name is missing; nothing if the name stands for a
node of another kind. -/
def Entries.read? {α : Type} (es : Entries) (name : String) (accept : Node → Option α)
    (default : α) : Option α :=
  match es.get? name with
  | none => some default
  | some n => accept n

end Toml

namespace Settings

open Toml in
/-- The settings that a TOML text chooses; nothing if it is not TOML or a setting has a value
of another kind or out of range. -/
def ofToml? (text : String) : Option Settings := do
  let es ← Entries.ofText? text
  let preset : Settings := {}
  return {
    trace := ← es.read? "trace" Node.boolean? preset.trace
    pollInterval := ← es.read? "interrupt_check_interval" Node.word32? preset.pollInterval
    poolCapacity := ← es.read? "pool_capacity" Node.natural? preset.poolCapacity
    initialRegisters :=
      ← es.read? "initial_registers" Node.natural? preset.initialRegisters }

end Settings

end QueryMachine
