import Std.Time.DateTime.Timestamp
import WideColumn.Shell.Console

/-! # The program: the shell on the files, the clock and the console of this machine -/
namespace WideColumn
open WideColumn.Shell WideColumn.Time

def attempt {α : Type} (act : IO α) : IO (Except DiskError α) := do
  try
    return .ok (← act)
  catch e =>
    match e with
    | .noFileOrDirectory .. => return .error .missing
    | .alreadyExists .. => return .error .present
    | e => return .error (.other (toString e))

def filesIn (path : String) : IO (List String) := do
  let entries ← (← IO.FS.realPath path).readDir
  let files ← entries.toList.filterM fun e => return (← e.path.pathExists) && !(← e.path.isDir)
  return files.map (·.fileName)

instance : Host IO where
  now := do
    let t ← Std.Time.Timestamp.now
    return (Instant.ofNanoseconds? t.toNanosecondsSinceUnixEpoch.val.toNat).getD .epoch
  newId := do
    let bytes ← IO.getRandomBytes 16
    return .ofRandom (bytes.toList.foldl (fun n b => n * 256 + b.toNat) 0)
  stopwatch := IO.monoNanosNow
  pathExists path := return (← attempt (IO.FS.realPath path)).isOk
  makeDirectory path := attempt (IO.FS.createDirAll path)
  fileNames path := attempt (filesIn path)
  readFile path := do
    match ← attempt (IO.FS.readBinFile path) with
    | .error e => return .error e
    | .ok bytes =>
      match String.fromUTF8? bytes with
      | some s => return .ok s
      | none => return .error .notText
  writeFile path text := attempt (IO.FS.writeFile path text)
  removeFile path := attempt (IO.FS.removeFile path)

instance : Console IO where
  readLine prompt := do
    let input ← IO.getStdin
    if ← input.isTty then
      IO.print prompt
      (← IO.getStdout).flush
    let line ← input.getLine
    return if line.isEmpty then none else some (.ofList (line.toList.takeWhile (· != '\n')))
  emit o := do
    let out ← if o.isError then IO.getStderr else IO.getStdout
    match o.text? with
    | some text =>
      out.putStr text
      out.flush
    | none => throw (.userError "a listing is too wide to be laid out")

def enoughTurns : Nat := 18_446_744_073_709_551_615

end WideColumn

def main (arguments : List String) : IO UInt32 := do
  match WideColumn.Shell.Request.ofArguments arguments with
  | .ok request => WideColumn.Shell.run WideColumn.enoughTurns request
  | .error argument =>
    IO.eprintln ("error: unexpected argument '" ++ argument ++ "' found")
    return 2
