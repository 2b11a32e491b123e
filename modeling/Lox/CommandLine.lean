import Lox.Session

/-!
# The command line

What the program does with its arguments, as a function of them and of a host
that holds the standard input, reads files, and keeps the clock. With a script
the program runs it and exits with the status. Without one it prompts: every
input line is a step of one session, and the end of the input is success.
-/

set_option autoImplicit false

namespace Lox

inductive ReadFailure where
  | missing
  | directory
  | notText
  | other (reason : String)
  deriving DecidableEq, Repr

def ReadFailure.message : ReadFailure → String
  | missing => "No such file or directory (os error 2)"
  | directory => "Is a directory (os error 21)"
  | notText => "stream did not contain valid UTF-8"
  | other reason => reason

/-- What the program sees of the world around it. -/
structure Host where
  input : ByteArray
  readFile : String → Except ReadFailure ByteArray
  clock : Nat → Float

/-- What the program leaves behind when it ends. -/
structure Exit where
  code : Nat
  output : ByteArray
  errors : String

/-- What the arguments ask for. -/
inductive Request where
  | version
  | help
  | misuse
  | script (path : String) (mode : Mode)
  | prompt (mode : Mode)
  deriving DecidableEq, Repr

/-- The arguments read so far: whether a double dash has ended the flags,
what is to be done with the script, and the script. -/
structure Arguments where
  flagsEnded : Bool
  mode : Mode
  path : Option String

namespace Arguments

def none : Arguments := ⟨false, .execute, Option.none⟩

def request (arguments : Arguments) : Request :=
  match arguments.path with
  | some path => .script path arguments.mode
  | Option.none => .prompt arguments.mode

/-- Takes an argument as the script. There is at most one, and its path is not empty. -/
def takePath (arguments : Arguments) (path : String) : Except Request Arguments :=
  if arguments.path.isSome ∨ path = "" then .error .misuse
  else .ok { arguments with path := some path }

/-- Takes a flag by its long name. A flag that ends the program gives the request at once. -/
def takeFlag (arguments : Arguments) (name : String) : Except Request Arguments :=
  if name = "version" then .error .version
  else if name = "help" then .error .help
  else if name = "print-ast" ∧ arguments.mode = .execute then
    .ok { arguments with mode := .showTrees }
  else .error .misuse

/-- The request of a cluster of short flags. Each of them ends the program. -/
def shortFlag : Char → Request
  | 'V' => .version
  | 'h' => .help
  | _ => .misuse

/-- Takes the next argument. A single dash is a script, the standard input. -/
def take (arguments : Arguments) (argument : String) : Except Request Arguments :=
  if arguments.flagsEnded then arguments.takePath argument
  else
    match argument.toList with
    | ['-', '-'] => .ok { arguments with flagsEnded := true }
    | '-' :: '-' :: name => arguments.takeFlag (String.ofList name)
    | '-' :: flag :: _ => .error (shortFlag flag)
    | _ => arguments.takePath argument

end Arguments

/-- What a list of arguments asks for. The first one that ends the program or
is a misuse decides. -/
def Request.ofArguments (arguments : List String) : Request :=
  match arguments.foldlM Arguments.take Arguments.none with
  | .ok arguments => arguments.request
  | .error request => request

namespace CommandLine

/-- The exit code of a misuse and of a script that cannot be read. -/
def usageCode : Nat := 64

def versionText : String := "loxwalk 0.1.0\n"

def usageText : String := "Usage: loxwalk [--print-ast] [SCRIPT]\n"

def helpText : String :=
  "A tree-walking interpreter for Lox scripts. " ++
  "Starts an interactive prompt when no script is given.\n\n" ++
  usageText ++
  "\n  SCRIPT           Script to run, or - to read it from standard input\n" ++
  "  --print-ast      Print the parsed program instead of running it\n" ++
  "  -h, --help       Print help\n" ++
  "  -V, --version    Print version\n"

/-- Whether a path stands for the standard input: its one component is a dash.
Slashes and dots behind it name no further component. -/
def isStandardInput (path : String) : Bool :=
  match path.splitOn "/" with
  | first :: rest => first == "-" && rest.all fun part => part == "" || part == "."
  | [] => false

def readScript (host : Host) (path : String) : Except ReadFailure String := do
  let bytes ← if isStandardInput path then pure host.input else host.readFile path
  match String.fromUTF8? bytes with
  | some text => return text
  | none => throw .notText

/-- Runs a script as the only step of a session. -/
def runScript (depth : Nat) (host : Host) (path : String) (mode : Mode) : Exit :=
  match readScript host path with
  | .error failure =>
      ⟨usageCode, ByteArray.empty,
        "Could not read '" ++ path ++ "': " ++ failure.message ++ "\n"⟩
  | .ok source =>
      let (report, _) := step depth mode source (.start host.clock none)
      ⟨(report.status.map Status.code).getD 1, report.written, report.messages⟩

def inLine (byte : UInt8) : Bool := byte != 10

def inputLines : List UInt8 → List (List UInt8)
  | [] => []
  | byte :: rest =>
      let bytes := byte :: rest
      let later := bytes.dropWhile inLine
      (bytes.takeWhile inLine ++ later.take 1) :: inputLines (later.drop 1)
termination_by bytes => bytes.length
decreasing_by
  rw [List.length_drop]
  have := Source.length_dropWhile_le inLine (byte :: rest)
  simp only [List.length_cons] at this ⊢
  omega

def promptText : String := "> "

def notTextMessage : String :=
  "Error: Error \x7b kind: InvalidData, message: \"stream did not contain valid UTF-8\" \x7d\n"

/-- One line at the prompt: a step of the session, or none if the line is not text. -/
def promptStep (depth : Nat) (mode : Mode) (line : List UInt8) (machine : Machine) :
    Option (StepReport × Machine) :=
  match String.fromUTF8? ⟨line.toArray⟩ with
  | some source => some (step depth mode source machine)
  | none => none

/-- Prompts for the given lines and then for the end of the input. -/
def promptFor (depth : Nat) (mode : Mode) : List (List UInt8) → Machine → Exit
  | [], _ => ⟨0, promptText.toUTF8, ""⟩
  | line :: rest, machine =>
      match promptStep depth mode line machine with
      | none => ⟨1, promptText.toUTF8, notTextMessage⟩
      | some (report, after) =>
          let later := promptFor depth mode rest after
          { later with
            output := promptText.toUTF8 ++ report.written ++ later.output
            errors := report.messages ++ later.errors }

def answer (depth : Nat) (host : Host) : Request → Exit
  | .version => ⟨0, versionText.toUTF8, ""⟩
  | .help => ⟨0, helpText.toUTF8, ""⟩
  | .misuse => ⟨usageCode, ByteArray.empty, usageText⟩
  | .script path mode => runScript depth host path mode
  | .prompt mode => promptFor depth mode (inputLines host.input.toList) (.start host.clock none)

end CommandLine

end Lox
