import Lox.Syntax.Printer
import Lox.Program

/-!
# Sessions

A session runs one source after another on one machine, so names stay defined.
Instead of running a source, a step can show its statements as trees. Every
step reports what it wrote and the messages of its errors, one to a line, and
ends with a status.
-/

set_option autoImplicit false

namespace Lox

inductive Status where
  | success
  | rejected
  | stopped
  deriving DecidableEq, Repr

def Status.code : Status → Nat
  | success => 0
  | rejected => 65
  | stopped => 70

/-- The status of a step with the given errors: rejected if all are static. -/
def Status.ofErrors : List Error → Status
  | [] => success
  | errors => if errors.all Error.isStatic then rejected else stopped

inductive Mode where
  | execute
  | showTrees
  deriving DecidableEq, Repr

/-- What a step did. The status is missing if the trees could not be written. -/
structure StepReport where
  status : Option Status
  written : ByteArray
  messages : String

/-- The messages of some errors, each on its own line. -/
def errorLines (errors : List Error) : String :=
  String.join (errors.map fun error => error.message ++ "\n")

/-- Writes the trees of some statements, each on its own line, and tells whether all fitted. -/
def showTrees : List Stmt → Output → Output × Bool
  | [], output => (output, true)
  | statement :: rest, output =>
      match output.write (statement.text ++ "\n").toUTF8 with
      | (after, true) => showTrees rest after
      | (after, false) => (after, false)

def step (depth : Nat) (mode : Mode) (source : String) (machine : Machine) :
    StepReport × Machine :=
  let start := machine.output.written.size
  match mode with
  | .execute =>
      let run := run depth source machine
      (⟨some (.ofErrors run.errors), run.machine.output.since start, errorLines run.errors⟩,
        run.machine)
  | .showTrees =>
      match parse source with
      | .error errors =>
          (⟨some (.ofErrors errors), ByteArray.empty, errorLines errors⟩, machine)
      | .ok statements =>
          let (output, complete) := showTrees statements machine.output
          (⟨if complete then some .success else none, output.since start, ""⟩,
            { machine with output })

def session (depth : Nat) : List (Mode × String) → Machine → List StepReport
  | [], _ => []
  | (mode, source) :: rest, machine =>
      let (report, after) := step depth mode source machine
      report :: session depth rest after

end Lox
