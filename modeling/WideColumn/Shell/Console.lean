import WideColumn.Catalog.Basic
import WideColumn.Host.Machine
import WideColumn.Shell.Session

/-! # The console: commands given in advance, and commands read line by line

Lines given in advance are carried out until one fails. Lines that are read are carried out inside
the shell, which a gate phrase opens and which is left by `exit` or at the end of the input.

A reply that cannot be laid out has no text. To show it ends the program; a terminal, which only
keeps what is to appear, goes on. -/
namespace WideColumn.Shell
open WideColumn.Text

inductive Output where
  /-- A line of text. -/
  | line (text : String)
  /-- A question, after which the line goes on. -/
  | question (text : String)
  | reply (r : Reply)
  /-- A reply that ends the work, shown as an error. -/
  | failure (r : Reply)
  | notOpened (directory : String) (fault : Fault)

namespace Output

def isError : Output → Bool
  | failure _ | notOpened .. => true
  | _ => false

/-- The text that appears. An empty reply leaves no line. -/
def text? : Output → Option String
  | line s => some (s ++ "\n")
  | question s => some s
  | reply r => r.text?.map fun s => if s.toList.isEmpty then "" else s ++ "\n"
  | failure r => r.text?.map (· ++ "\n")
  | notOpened directory fault =>
    some ("Cannot open data directory " ++ directory ++ ": " ++ fault.display ++ "\n")

end Output

class Console (m : Type → Type) where
  /-- The next line of the input, without its end. Where a person types, the prompt asks for it. -/
  readLine (prompt : String) : m (Option String)
  emit (o : Output) : m Unit

instance (m n : Type → Type) [MonadLift m n] [Console m] : Console n where
  readLine prompt := liftM (Console.readLine prompt : m (Option String))
  emit o := liftM (Console.emit o : m Unit)

variable {m : Type → Type} [Monad m] [Host m] [Console m]

def gatePhrase : String := "hbase shell"

def gateHint : String := "Please access the hbase shell first by typing '" ++ gatePhrase ++ "'"

def askToDrop (names : List String) : m Bool := do
  names.forM fun name => Console.emit (.line name)
  Console.emit (.question ("\nDrop the above " ++ decimal names.length ++ " tables (y/n)? "))
  match ← Console.readLine "" with
  | some answer => return ["y", "Y", "yes"].contains (trimmed answer)
  | none => return false

/-- Carry out lines up to the first that fails or leaves. The answer is the exit code. -/
def runAll : List String → StateT Catalog m UInt32
  | [] => return 0
  | line :: rest => do
    let r ← runLine (fun _ => pure true) line
    if r.isError then
      Console.emit (.failure r)
      return 1
    Console.emit (.reply r)
    if r.exits then return 0
    runAll rest

def gatePrompt : String := "$ "

def shellPrompt (number : Nat) : String :=
  "hbase(main):" ++ .ofList (Numeral.padded 3 number) ++ ":0> "

def shellTurns (number : Nat) : Nat → StateT Catalog m Unit
  | 0 => return ()
  | turns + 1 => do
    match ← Console.readLine (shellPrompt number) with
    | none => Console.emit (.line "")
    | some line =>
      let r ← runLine askToDrop (trimmed line)
      Console.emit (.reply r)
      if r.exits then return ()
      shellTurns (number + 1) turns

def runShell (turns : Nat) : StateT Catalog m Unit := do
  Console.emit (.line "HBase Shell; enter 'help<RETURN>' for list of supported commands.")
  Console.emit (.line "Type \"exit<RETURN>\" to leave the HBase Shell")
  shellTurns 0 turns

def runGate : Nat → StateT Catalog m Unit
  | 0 => return ()
  | turns + 1 => do
    match ← Console.readLine gatePrompt with
    | none => Console.emit (.line "Bye!")
    | some line =>
      if trimmed line == gatePhrase then runShell turns
      else Console.emit (.line gateHint)
      runGate turns

structure Request where
  directory : String
  /-- Lines given in advance. -/
  lines : List String
  /-- Start inside the shell. -/
  skipGate : Bool

/-- Open the directory, do what is asked, and answer with the exit code. The input has fewer lines
than `turns`. -/
def run (turns : Nat) (request : Request) : m UInt32 := do
  match ← (Catalog.openAt request.directory true).run with
  | .error fault =>
    Console.emit (.notOpened request.directory fault)
    return 1
  | .ok catalog =>
    let work : StateT Catalog m UInt32 :=
      if request.lines.isEmpty then do
        if request.skipGate then
          runShell turns
          Console.emit (.line "Bye!")
        else runGate turns
        return 0
      else runAll request.lines
    return (← work.run catalog).1

/-- A machine with a console: the lines that will be read, and what has appeared. -/
structure Terminal where
  machine : Machine
  input : List String
  shown : List Output

/-- What a machine does, a terminal does with its machine. -/
def onMachine {α : Type} (act : StateM Machine α) : StateM Terminal α := fun t =>
  let (a, k) := act t.machine
  (a, { t with machine := k })

instance : MonadLift (StateM Machine) (StateM Terminal) := ⟨onMachine⟩

instance : Console (StateM Terminal) where
  readLine _ t :=
    match t.input with
    | [] => (none, t)
    | line :: rest => (some line, { t with input := rest })
  emit o t := ((), { t with shown := t.shown ++ [o] })

def defaultDirectory : String := "hbase/data"

/-- The value of an argument written `name=value`. -/
def inlineValue? (name argument : String) : Option String :=
  if (name.toList ++ ['=']).isPrefixOf argument.toList then
    some (.ofList (argument.toList.drop (name.length + 1)))
  else none

/-- Read arguments into a request, or answer with the first that has no meaning. -/
def readArguments (r : Request) : List String → Except String Request
  | [] => pure r
  | "--skip-gate" :: rest => readArguments { r with skipGate := true } rest
  | "--data-dir" :: directory :: rest => readArguments { r with directory } rest
  | "--exec" :: line :: rest => readArguments { r with lines := r.lines ++ [line] } rest
  | "-e" :: line :: rest => readArguments { r with lines := r.lines ++ [line] } rest
  | argument :: rest =>
    match inlineValue? "--data-dir" argument, inlineValue? "--exec" argument with
    | some directory, _ => readArguments { r with directory } rest
    | none, some line => readArguments { r with lines := r.lines ++ [line] } rest
    | none, none => throw argument

def Request.ofArguments (arguments : List String) : Except String Request :=
  readArguments { directory := defaultDirectory, lines := [], skipGate := false } arguments

end WideColumn.Shell
