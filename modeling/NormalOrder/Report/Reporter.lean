import NormalOrder.Failure
import NormalOrder.Report.Traceback

/-!
# Reporting failures

A reporter tells the user about failures. If they are fatal, the program ends with code 1 after the
first one; otherwise the lines being run are forgotten, and a failure that was a mistake of the user
ends there.
-/

namespace NormalOrder

structure Reporter where
  fatal : Bool
  traceback : Traceback := Roster.empty

namespace Reporter

/-- What a report prints, the reporter after it, and the failure that goes on, if one does. -/
structure Outcome where
  printed : Text.Styled
  reporter : Reporter
  raised : Option Failure

def throw (r : Reporter) (d : Diagnostic) : Outcome :=
  let printed := r.traceback.error d
  if r.fatal then ⟨printed, r, some (.exit 1)⟩
  else ⟨printed, { r with traceback := r.traceback.clearLines }, none⟩

/-- Deals with a failure that ended an action. -/
def handle (r : Reporter) (f : Failure) : Outcome :=
  match f.diagnostic? with
  | none => ⟨[], r, some f⟩
  | some d =>
    let thrown := r.throw d
    { thrown with raised := thrown.raised.or (if f.persists then some f else none) }

end Reporter

end NormalOrder
