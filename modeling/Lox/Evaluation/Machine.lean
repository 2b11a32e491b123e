import Lox.Evaluation.Fault
import Lox.Evaluation.Scope
import Lox.Evaluation.Output

/-!
# The machine

Everything that evaluation reads and changes, and the actions on it. The
current scope is part of the machine; `within` is the only action that changes
it, and it puts the former scope back however the inner action ends.
-/

set_option autoImplicit false

namespace Lox

inductive Note where
  | calling (function : String) (arguments : Nat)
  | halted (message : String)
  deriving DecidableEq, Repr

/-- The state of an evaluation. The clock gives the time of each reading in turn. -/
structure Machine where
  heap : Heap
  current : ScopeId
  functionsMade : Nat
  clock : Nat → Float
  readings : Nat
  output : Output
  notes : Array Note

/-- Evaluation that may stop with a fault. The machine is kept either way. -/
abbrev Action := EStateM Fault Machine

namespace Machine

/-- A machine that has evaluated nothing. Its only scope holds the built-in functions. -/
def start (clock : Nat → Float) (capacity : Option Nat) : Machine where
  heap := .ofGlobals [("clock", .builtin .clock)]
  current := 0
  functionsMade := 0
  clock := clock
  readings := 0
  output := .ofCapacity capacity
  notes := #[]

def addNote (machine : Machine) (note : Note) : Machine :=
  { machine with notes := machine.notes.push note }

end Machine

namespace Action

variable {α : Type}

def fault (fault : RuntimeFault) (token : Token) : Action α :=
  throw (.runtime ⟨fault, token⟩)

def ofExcept : Except Fault α → Action α
  | .ok value => pure value
  | .error fault => throw fault

def read (name : Token) : Action Value := do
  match (← get).heap.read? (← get).current name.lexeme with
  | some value => return value
  | none => fault .undefinedVariable name

theorem read_eq (name : Token) (machine : Machine) :
    read name machine =
      match machine.heap.read? machine.current name.lexeme with
      | some value => .ok value machine
      | none => .error (.runtime ⟨.undefinedVariable, name⟩) machine := by
  change (match machine.heap.read? machine.current name.lexeme with
    | some value => return value
    | none => fault .undefinedVariable name : Action Value) machine = _
  cases machine.heap.read? machine.current name.lexeme with
  | none => rfl
  | some value => rfl

def assign (name : Token) (value : Value) : Action Unit := fun machine =>
  match machine.heap.assign? machine.current name.lexeme value with
  | some heap => .ok () { machine with heap }
  | none => fault .undefinedVariable name machine

/-- Gives a name a value in the current scope. -/
def define (name : Token) (value : Value) : Action Unit :=
  modify fun machine =>
    { machine with heap := machine.heap.define machine.current name.lexeme value }

/-- Acts in a new scope, and puts the current scope back afterwards. -/
@[inline] def within (enclosing : ScopeId) (bindings : Bindings) (action : Action α) :
    Action α := fun machine =>
  let outer := machine.current
  let inner := machine.heap.nextId
  match action
      { machine with heap := machine.heap.create enclosing bindings, current := inner } with
  | .ok value after => .ok value { after with current := outer }
  | .error fault after => .error fault { after with current := outer }

/-- Makes the value of a function declaration that is executed now. -/
def makeFunction (name : Token) (parameters : List Token) (body : List Stmt) :
    Action Value := fun machine =>
  let closure := ⟨machine.functionsMade, machine.current, name, parameters, body⟩
  .ok (.function closure) { machine with functionsMade := machine.functionsMade + 1 }

def readClock : Action Value := fun machine =>
  .ok (.number (machine.clock machine.readings))
    { machine with readings := machine.readings + 1 }

def note (note : Note) : Action Unit := modify (·.addNote note)

def writeLine (text : String) : Action Unit := fun machine =>
  match machine.output.write (text ++ "\n").toUTF8 with
  | (output, true) => .ok () { machine with output }
  | (output, false) => .error .outputFull { machine with output }

end Action

end Lox
