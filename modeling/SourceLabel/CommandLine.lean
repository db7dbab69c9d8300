import SourceLabel.Relabel.Run

/-!
# The command line

Two file paths are taken: the input and the output. How a run has ended is told by the exit code, and if
it failed, by one line.
-/
namespace SourceLabel.CommandLine

/-- The exit code for a failure of each kind. -/
def exitCode : Category → UInt8
  | .malformedContainer => 3
  | .malformedClass => 4
  | .ioFailure => 5
  | .unsupportedNesting => 6
  | .cancelled => 130

/-- The exit code for arguments that make no sense. -/
def usageCode : UInt8 := 2

inductive Request where
  | run (input output : String)
  | help
  | version
deriving DecidableEq, Repr

/-- Why arguments make no sense. -/
inductive Misuse where
  | unknownOption (text : String)
  | emptyPath
  | tooMany (text : String)
  | tooFew
deriving DecidableEq, Repr

def takePath (paths : List String) (arg : String) : Except Misuse (List String) :=
  if arg = "" then .error .emptyPath
  else if 2 ≤ paths.length then .error (.tooMany arg)
  else .ok (paths ++ [arg])

/-- Reads arguments from left to right, up to the first that asks for help or for the version. After `--`
(`literal`) everything is a path; a single dash always is one. Options of one letter may be run together,
so nothing after the first letter matters. -/
def parseFrom (literal : Bool) (paths : List String) : List String → Except Misuse Request
  | [] =>
    match paths with
    | [input, output] => .ok (.run input output)
    | _ => .error .tooFew
  | arg :: args =>
    if literal || !arg.startsWith "-" || arg = "-" then do
      let paths ← takePath paths arg
      parseFrom literal paths args
    else if arg = "--" then parseFrom true paths args
    else if arg = "--help" || arg.startsWith "-h" then .ok .help
    else if arg = "--version" || arg.startsWith "-V" then .ok .version
    else .error (.unknownOption arg)

def parse (args : List String) : Except Misuse Request :=
  parseFrom false [] args

/-- How the program ends: its exit code, what it says about a failure, and the world after it. -/
structure Ending where
  code : UInt8
  errors : List String := []
  world : Relabel.World

def options : Relabel.Options := { watched := true }

def failureLine (e : Error) (phase : Relabel.Phase) : String :=
  s!"error: {e.message} during {phase.label}"

def perform (args : List String) (w : Relabel.World) : Ending :=
  match parse args with
  | .error _ => { code := usageCode, world := w }
  | .ok .help | .ok .version => { code := 0, world := w }
  | .ok (.run input output) =>
    match (options.run input output).run w with
    | (.ok _, w) => { code := 0, world := w }
    | (.error e, w) => { code := exitCode e.category, errors := [failureLine e w.phase], world := w }

end SourceLabel.CommandLine
