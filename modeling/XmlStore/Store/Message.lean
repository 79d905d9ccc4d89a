/-
Messages that calls give off besides their answers: refusals, warnings and
news. A computation of type `Reported` may fail, and keeps the messages it
gave off before; one of type `Tracked` works on a state as well, and what it
has done to the state stays done when it fails.
-/
import XmlStore.Store.Error

namespace XmlStore

inductive Severity where
  | error
  | warning
  | status
deriving DecidableEq, Repr

def Severity.name : Severity → String
  | error => "error"
  | warning => "warning"
  | status => "status"

structure Message where
  severity : Severity
  text : String
deriving DecidableEq, Repr

/-- How a refusal is reported. That an element is not there is no more than news. -/
def Error.toMessage (e : Error) : Message :=
  ⟨if e.code = .elementNotFound then .status else .error, e.message⟩

abbrev Reported := ExceptT Error (StateM (List Message))

namespace Reported

def report (m : Message) : Reported Unit := modifyThe (List Message) (· ++ [m])

def warn (text : String) : Reported Unit := report ⟨.warning, text⟩

def tell (text : String) : Reported Unit := report ⟨.status, text⟩

end Reported

abbrev Tracked (σ : Type) := ExceptT Error (StateT σ (StateM (List Message)))

namespace Tracked

variable {σ α : Type}

/-- What only gives off messages leaves the state alone. -/
instance (priority := low) : MonadLift Reported (Tracked σ) := ⟨fun computation => StateT.lift computation.run⟩

/-- Runs a computation on a state of its own. -/
def runOn (state : σ) (computation : Tracked σ α) : Reported (α × σ) := do
  let (result, state) ← computation.run.run state
  return (← result, state)

end Tracked

end XmlStore
