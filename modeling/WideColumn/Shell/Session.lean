import WideColumn.Command.Parser
import WideColumn.Shell.Execute
import WideColumn.Shell.Render

/-! # Sessions: lines and their replies -/
namespace WideColumn.Shell
open WideColumn.Time

variable {m : Type → Type} [Monad m] [Host m]

structure Reply where
  outcome : Except Fault Outcome
  took : Duration

namespace Reply

/-- The text of the reply, if it can be laid out. -/
def text? (r : Reply) : Option String :=
  match r.outcome with
  | .ok o => o.render? r.took
  | .error fault => some (errorLine fault.message)

def exits (r : Reply) : Bool :=
  match r.outcome with
  | .ok .exit => true
  | _ => false

/-- Whether the line failed or was not understood. -/
def isError (r : Reply) : Bool :=
  match r.outcome with
  | .ok (.unknown _) | .error _ => true
  | _ => false

end Reply

def runCommand (confirm : List String → m Bool) (line : String) : CatalogM m Outcome := do
  execute confirm (← Command.parse line)

/-- Answer one line; a fault is an answer, too. -/
def runLine (confirm : List String → m Bool) (line : String) : StateT Catalog m Reply := do
  let start ← Host.stopwatch
  let outcome ← (runCommand confirm line).run
  let stop ← Host.stopwatch
  return { outcome, took := .ofNanoseconds (stop - start) }

end WideColumn.Shell
