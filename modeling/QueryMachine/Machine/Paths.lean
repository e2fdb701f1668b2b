import QueryMachine.Machine.Operands

/-!
# Recorded paths

While a path is open, every navigation adds a step: the component that was used and the value
it led to. Navigation has to go on from the value that the path has reached; anything else
means that the program computed a value where it should have navigated to one. Closing the
path answers with its components.
-/

namespace QueryMachine

namespace Machine

/-- `pathbegin` -/
def openPath (m : Machine) : Effect :=
  match m.stack.top? with
  | none => .fail m .stackUnderflow
  | some x =>
    match x.toValue with
    | .error fault => .fail m fault
    | .ok v =>
      .next { m with
        pathDepth := some m.paths.nextCell
        paths := m.paths.push (.start v m.pathDepth) }

/-- `pathend` -/
def closePath (m : Machine) : Effect :=
  match m.pathDepth with
  | none => .fail m .stackUnderflow
  | some start =>
    match m.popValue with
    | .error fault => .fail m fault
    | .ok (v, popped) =>
      if !popped.isReached v then .fail m (.invalidPath v)
      else
        let components := (popped.paths.since start).filterMap PathRecord.component?
        -- everything above the start goes at once, and the start with it
        match (popped.paths.setTop (some start)).pop? with
        | some (.start _ outer, paths) =>
          .next ({ popped with paths, pathDepth := outer }.pushValue (.array components.toArray))
        | _ => .fail m .stackUnderflow

/-- Record the step of a native call that navigates, if a path is open. -/
def recordStep (m : Machine) (role : Role) (args : List Value) (output : Value) :
    Except Fault Machine :=
  if !m.tracksPath then .ok m
  else
    match role.subject?.bind (args[·]?), role.component? args with
    | some subject, some component =>
      if m.isReached subject then .ok { m with paths := m.paths.push (.step component output) }
      else .error (.invalidPath subject)
    | _, _ => .ok m

end Machine

end QueryMachine
