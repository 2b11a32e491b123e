import Lox.Source.Scanner
import Lox.Grammar.Program
import Lox.Evaluation.Evaluate
import Lox.Error

/-!
# Programs

Checking a source text gives its statements or its errors: all lexical errors
if there are any, else the one syntax error. Running it executes the
statements on a machine, and nothing at all if there is an error. Both report
in order what happened on the way.
-/

set_option autoImplicit false

namespace Lox

inductive Event where
  | scanned (record : ScannedLine)
  | rewound (attempt : Attempt) (index : Nat)
  | evaluation (note : Note)
  deriving DecidableEq, Repr

/-- A source that has been checked: its statements or its errors, and what was reported. -/
structure Checked where
  result : Except (List Error) (List Stmt)
  events : List Event

def ParsedTokens.result (parsed : ParsedTokens) : Except (List Error) (List Stmt) :=
  match parsed.error with
  | none => .ok parsed.statements
  | some error => .error [.syntactic error]

/-- Scans a source and, if that gives no error, parses it. -/
def check (source : String) : Checked :=
  let scanned := (Scanner.ofSource source).scan
  let records := scanned.records.map Event.scanned
  match Item.errors scanned.items with
  | [] =>
      let parsed := parseTokens (Item.tokens scanned.items)
      let rewinds := parsed.rewinds.map fun (attempt, index) => Event.rewound attempt index
      ⟨parsed.result, records ++ rewinds⟩
  | errors => ⟨.error (errors.map .lexical), records⟩

def parse (source : String) : Except (List Error) (List Stmt) := (check source).result

/-- A source that has been run: its errors, what was reported, and the machine afterwards. -/
structure Run where
  errors : List Error
  events : List Event
  machine : Machine

/-- Checks a source and executes it on a machine, whose notes begin anew. -/
def run (depth : Nat) (source : String) (machine : Machine) : Run :=
  let checked := check source
  let fresh := { machine with notes := #[] }
  match checked.result with
  | .error errors => ⟨errors, checked.events, fresh⟩
  | .ok statements =>
      let (fault, after) := executeProgram depth statements fresh
      ⟨(fault.map Error.evaluation).toList,
        checked.events ++ after.notes.toList.map Event.evaluation, after⟩

end Lox
