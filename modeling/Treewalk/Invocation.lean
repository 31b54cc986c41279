import Treewalk.Files

/-!
# Invocations

What the arguments of a command line ask for. The command's name divides them: the common options
may stand before it and behind it, once in each part, and behind it they count more. A lone `--`
behind the name ends the options.
-/

namespace Treewalk

inductive Command where
  | tokenize (json : Bool) (file : Option String)
  | parse (file : Option String)
  | evaluate (file : Option String)
  | run (file : Option String)
  | repl
deriving DecidableEq, Repr

structure Options where
  /-- Whether a log file is made first. -/
  log : Bool
  /-- The directory that imports start from. -/
  moduleRoot : Option String
deriving DecidableEq, Repr

namespace Options

def absent : Options :=
  ⟨false, none⟩

/-- Asks for a log file, unless that has been done. -/
def addLog (o : Options) : Option Options :=
  if o.log then none else some { o with log := true }

/-- Gives the directory of imports, unless it has been given. -/
def addModuleRoot (root : String) (o : Options) : Option Options :=
  if root = "" || o.moduleRoot.isSome then none else some { o with moduleRoot := some root }

/-- The options of two parts, of which the inner counts more. -/
def within (outer inner : Options) : Options :=
  ⟨outer.log || inner.log, inner.moduleRoot <|> outer.moduleRoot⟩

end Options

structure Invocation where
  command : Command
  options : Options
deriving DecidableEq, Repr

namespace Invocation

/-- Arguments with the options taken out. -/
structure Sifted where
  /-- The command's name and its files. -/
  words : List String
  json : Bool
  outer : Options
  inner : Options

namespace Sifted

def start : Sifted :=
  ⟨[], false, .absent, .absent⟩

def isNamed (s : Sifted) : Bool :=
  !s.words.isEmpty

/-- Adds a common option to the part that is being read. -/
def addOption (s : Sifted) (change : Options → Option Options) : Option Sifted :=
  if s.isNamed then (change s.inner).map fun inner => { s with inner := inner }
  else (change s.outer).map fun outer => { s with outer := outer }

end Sifted

/-- Whether an argument can only be an option. -/
def isOption (argument : String) : Bool :=
  argument.startsWith "-" && argument ≠ "-"

/-- Takes the options out of the arguments; `none` if one is unknown, misplaced or repeated. -/
def sift (s : Sifted) : List String → Option Sifted
  | [] => some s
  | "--" :: rest => if s.isNamed then some { s with words := s.words ++ rest } else none
  | "--log" :: rest => do sift (← s.addOption Options.addLog) rest
  | "--json" :: rest => if s.isNamed && !s.json then sift { s with json := true } rest else none
  | ["--module-root"] => none
  | "--module-root" :: root :: rest => do
    if isOption root then none
    else sift (← s.addOption (Options.addModuleRoot root)) rest
  | argument :: rest =>
    match argument.dropPrefix? "--module-root=" with
    | some root => do sift (← s.addOption (Options.addModuleRoot root.toString)) rest
    | none =>
      if isOption argument then none else sift { s with words := s.words ++ [argument] } rest

/-- The file among the words behind a command's name. -/
def file? : List String → Option (Option String)
  | [] => some none
  | [""] => none
  | [file] => some (some file)
  | _ => none

def command? (json : Bool) : List String → Option Command
  | "tokenize" :: rest => return .tokenize json (← file? rest)
  | "parse" :: rest => if json then none else return .parse (← file? rest)
  | "evaluate" :: rest => if json then none else return .evaluate (← file? rest)
  | "run" :: rest => if json then none else return .run (← file? rest)
  | ["repl"] => if json then none else return .repl
  | _ => none

def ofArguments (arguments : List String) : Option Invocation := do
  let s ← sift .start arguments
  return ⟨← command? s.json s.words, s.outer.within s.inner⟩

/-- The directory that imports start from: the given one, else that of the script that is run,
else the working directory. -/
def importRoot (i : Invocation) : String :=
  match i.options.moduleRoot, i.command with
  | some root, _ => root
  | none, .run (some file) => (Path.parent? file).getD "."
  | none, _ => "."

example : ofArguments ["--module-root", "a", "run", "--module-root", "b", "x", "--log"] =
    some ⟨.run (some "x"), ⟨true, some "b"⟩⟩ := by decide +kernel

end Invocation

end Treewalk
