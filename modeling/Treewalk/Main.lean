import Std.Time.DateTime.Timestamp
import Treewalk.Command

/-!
# The program

Reads the files that a command can ask for, and the lines typed at a prompt, and shows what the
command leaves behind. Imports name their paths in the source, so all files that a source can lead
to are known before it runs.
-/

namespace Treewalk.Main

/-- What reading each file gave, by its path. -/
abbrev Known := List (String × Except FileFault (List UInt8))

def faultOf : IO.Error → FileFault
  | .noFileOrDirectory .. => .missing
  | .inappropriateType _ code _ => if code = 21 then .isDirectory else .notDirectory
  | .invalidArgument (some _) .. => .nameTooLong
  | _ => .missing

def readFile (path : String) : IO (Except FileFault (List UInt8)) := do
  try
    let bytes ← IO.FS.readBinFile path
    return .ok bytes.toList
  catch e => return .error (faultOf e)

/-- Reads the modules that can be imported from `root`, and the modules that these can import. -/
partial def collect (root : String) (known : Known) : (paths : List String) → IO Known
  | [] => return known
  | path :: rest => do
    let place := Path.join root path
    if (known.lookup place).isSome then collect root known rest
    else
      let result ← readFile place
      let more := match result with
        | .ok bytes => Command.importsOf bytes
        | .error _ => []
      collect root ((place, result) :: known) (more ++ rest)

def reader (known : Known) : FileReader :=
  fun path => (known.lookup path).getD (.error .missing)

/-- Seconds since 1970, in steps of a millisecond. -/
def time : IO Float := do
  let now ← Std.Time.Timestamp.now
  return .ofInt now.toMillisecondsSinceUnixEpoch.val / 1000

/-- Reads and runs lines until the input ends. -/
partial def repl (root : String) (known : Known) (s : Session) : IO Unit := do
  let stdout ← IO.getStdout
  stdout.putStr Command.prompt
  stdout.flush
  let line ← (← IO.getStdin).getLine
  if line.isEmpty then stdout.putStr "\n"
  else
    let known ← collect root known (Command.importsOf (Text.Utf8.encode line))
    let clock := Clock.still (← time)
    let ready := { s with sources := Command.sources (reader known) root, clock := clock }
    let (out, err, s) := Command.replLine ready line
    stdout.putStr out
    (← IO.getStderr).putStr err
    repl root known s

def fileOf : Command → Option String
  | .tokenize _ file => file
  | .parse file => file
  | .evaluate file => file
  | .run file => file
  | .repl => none

def report (outcome : Outcome) : IO UInt32 := do
  (← IO.getStdout).putStr outcome.stdout
  (← IO.getStderr).putStr outcome.stderr
  return outcome.exit

def startLog (i : Invocation) : IO (Except FileFault Unit) := do
  if i.options.log then
    try
      IO.FS.writeFile Command.logFile ""
      return .ok ()
    catch e => return .error (faultOf e)
  else return .ok ()

def perform (i : Invocation) : IO UInt32 := do
  match ← startLog i with
  | .error fault => return ← report (.unlogged Command.logFile fault)
  | .ok () => pure ()
  match i.command, fileOf i.command with
  | .repl, _ =>
    repl i.importRoot [] (Command.session (reader []) i (.still (← time)))
    return 0
  | _, none => report (Command.perform (reader []) "" (.still 0) i)
  | _, some file =>
    let result ← readFile file
    let imports := match result with
      | .ok bytes => Command.importsOf bytes
      | .error _ => []
    let known ← collect i.importRoot [(file, result)] imports
    report (Command.perform (reader known) "" (.still (← time)) i)

end Treewalk.Main

def main (arguments : List String) : IO UInt32 :=
  match Treewalk.Invocation.ofArguments arguments with
  | some i => Treewalk.Main.perform i
  | none => Treewalk.Main.report .misused
