import Treewalk.Invocation
import Treewalk.Session.Entry
import Treewalk.Text.Blank
import Treewalk.Text.Quoted
import Treewalk.Token.Json
import Treewalk.Tree.Outline

/-!
# Commands

What the command line does, as a function of its arguments, of the files it can read and of the
lines typed at it. An error goes to the error output with its place; the exit code tells errors in
a source (65) from errors while it runs (70).
-/

namespace Treewalk

abbrev FileReader := String → Except FileFault (List UInt8)

structure Outcome where
  exit : UInt32
  stdout : String
  stderr : String

namespace Outcome

/-- One that has printed `stdout` and goes on. -/
def printed (stdout : String) : Outcome :=
  ⟨0, stdout, ""⟩

def exhausted (stdout : String) : Outcome :=
  ⟨70, stdout, "Out of steps.\n"⟩

/-- One that stops with an error, after it has printed `stdout`. -/
def failed (stdout : String) (e : Error) : Outcome :=
  ⟨if e.isStatic then 65 else 70, stdout, e.message ++ "\n"⟩

/-- One that stops because a file cannot be read. -/
def unreadable (path : String) (fault : FileFault) : Outcome :=
  let verb := match fault with
    | .isDirectory => "read"
    | _ => "open"
  ⟨1, "", "Error: Failed to " ++ verb ++ " file " ++ Text.Quoted.quote path ++
    "\n\nCaused by:\n    " ++ fault.message ++ "\n"⟩

/-- One that stops because it cannot make its log file. -/
def unlogged (path : String) (fault : FileFault) : Outcome :=
  ⟨1, "", "Error: Failed to create " ++ path ++ "\n\nCaused by:\n    " ++ fault.message ++ "\n"⟩

def noFile : Outcome :=
  printed "No input filepath was provided. Exiting...\n"

def misused : Outcome :=
  ⟨2, "", "Usage: treewalk [--log] [--module-root DIR] tokenize|parse|evaluate|run|repl [FILE]\n"⟩

end Outcome

namespace Command

/-- Enough steps for any program that ends. -/
def fuel : Nat :=
  1000000000000000000

/-- The sources of modules below a directory; only text counts. -/
def sources (read : FileReader) (root path : String) : Option String :=
  match read (Path.join root path) with
  | .ok bytes => (Text.Utf8.decode bytes).toOption
  | .error _ => none

def session (read : FileReader) (i : Invocation) (clock : Clock) : Session :=
  Session.start (sources read i.importRoot) none clock

/-- Lists tokens; faults are reported and make the exit code 65. -/
def tokenizeBytes (json : Bool) (bytes : List UInt8) : Outcome :=
  let items := Lexer.items bytes
  let tokens := items.filterMap Except.toOption
  let faults := items.filterMap fun item => match item with
    | .ok _ => none
    | .error e => some (e.message ++ "\n")
  let listing := if json then Token.renderJson tokens ++ "\n"
    else String.join (tokens.map fun t => t.listing ++ "\n")
  ⟨if faults.isEmpty then 0 else 65, listing, String.join faults⟩

def parseBytes (bytes : List UInt8) : Outcome :=
  let result := do
    let tokens ← Lexer.scan bytes
    (Parser.loneExpression tokens 0).1
  match result with
  | .ok e => .printed (e.outline ++ "\n")
  | .error e => .failed "" e

/-- Ends a computation: what it printed, then what is shown of its result or error. -/
def finish (action : Run String) (start : Session) : Outcome :=
  match action.run.run start with
  | (.ok shown, s) => .printed (s.output ++ shown)
  | (.error (.error e), s) => .failed s.output e
  | (.error _, s) => .exhausted s.output

/-- What is shown of a value. -/
def shown (value : Value) : Run String :=
  return (← Run.textOf value) ++ "\n"

def evaluateBytes (start : Session) (bytes : List UInt8) : Outcome :=
  match Text.Utf8.decode bytes with
  | .error fault => .failed "" (.encoding fault)
  | .ok source => finish (do shown (← Run.expression fuel source)) start

def runBytes (start : Session) (bytes : List UInt8) : Outcome :=
  match Text.Utf8.decode bytes with
  | .error fault => .failed "" (.encoding fault)
  | .ok source => finish (do Run.unit fuel source; return "") start

/-- Runs a typed line, which has all that was typed up to and with the line end. Gives what is
printed, what is reported, and the session after it. -/
def replLine (s : Session) (line : String) : String × String × Session :=
  if Text.isBlank line then ("", "", s)
  else
    let action : Run String := do
      match ← Run.line fuel line with
      | some value => shown value
      | none => return ""
    match action.run.run { s with output := "" } with
    | (.ok shown, s) => (s.output ++ shown, "", s)
    | (.error (.error e), s) => (s.output, e.message ++ "\n", s)
    | (.error _, s) => (s.output, (Outcome.exhausted "").stderr, s)

/-- Stands before every line that is typed. -/
def prompt : String :=
  "> "

def replLines (s : Session) : List String → Outcome
  | [] => .printed (prompt ++ "\n")
  | line :: rest =>
    let (out, err, s) := replLine s line
    let later := replLines s rest
    ⟨later.exit, prompt ++ out ++ later.stdout, err ++ later.stderr⟩

/-- Cuts typed text behind every line end. -/
def linesOf (typed : String) : List String :=
  let pieces := typed.splitOn "\n"
  let last := (pieces.getLast?).getD ""
  pieces.dropLast.map (· ++ "\n") ++ (if last = "" then [] else [last])

def withFile (read : FileReader) (file : Option String) (action : List UInt8 → Outcome) :
    Outcome :=
  match file with
  | none => .noFile
  | some path =>
    match read path with
    | .ok bytes => action bytes
    | .error fault => .unreadable path fault

def perform (read : FileReader) (typed : String) (clock : Clock) (i : Invocation) : Outcome :=
  let start := session read i clock
  match i.command with
  | .tokenize json file => withFile read file (tokenizeBytes json)
  | .parse file => withFile read file parseBytes
  | .evaluate file => withFile read file (evaluateBytes start)
  | .run file => withFile read file (runBytes start)
  | .repl => replLines start (linesOf typed)

def logFile : String :=
  "app.log"

/-- What a command line does among files. The log file is made before anything is read. -/
def performArguments (files : Files) (typed : String) (clock : Clock) (arguments : List String) :
    Outcome :=
  match Invocation.ofArguments arguments with
  | none => .misused
  | some i =>
    match if i.options.log then files.create logFile else .ok files with
    | .ok files => perform files.read typed clock i
    | .error fault => .unlogged logFile fault

/-- The paths that a source can import. -/
def importsOf (bytes : List UInt8) : List String :=
  let tokens := (Lexer.items bytes).filterMap Except.toOption
  (tokens.zip tokens.tail).filterMap fun (keyword, path) =>
    match keyword.kind, path.kind with
    | .kwImport, .text path => some path
    | _, _ => none

end Command

end Treewalk
