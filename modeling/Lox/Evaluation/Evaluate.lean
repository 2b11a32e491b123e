import Lox.Evaluation.Machine
import Lox.Evaluation.Operator

/-!
# Evaluation

Expressions are evaluated and statements executed under a bound on the depth
of evaluation; at depth zero the machine stops. The bound also limits the
passes through one loop. Raising it changes no evaluation that stops otherwise.

The parts that do not descend into a tree take the actions on its parts as
arguments: a call, a sequence of statements, and a loop.
-/

set_option autoImplicit false

namespace Lox

/-- How a statement ended: it ran through, or a return left the function with a value. -/
inductive Completion where
  | normal
  | returned (value : Value)

namespace Completion

def value : Completion → Value
  | normal => .nil
  | returned value => value

end Completion

namespace Action

/-- Executes statements in order until one of them returns. -/
def sequence (execute : Stmt → Action Completion) : List Stmt → Action Completion
  | [] => return .normal
  | statement :: rest => do
      match ← execute statement with
      | .normal => sequence execute rest
      | .returned value => return .returned value

/-- Repeats a body as long as a condition holds and the body does not return,
for at most the given number of times. -/
def loop (condition : Action Bool) (body : Action Completion) : Nat → Action Completion
  | 0 => throw .tooDeep
  | bound + 1 => do
      if ← condition then
        match ← body with
        | .normal => loop condition body bound
        | .returned value => return .returned value
      else return .normal

/-- Calls a declared function in a new scope inside its own. -/
def callClosure (execute : Stmt → Action Completion) (closure : Closure)
    (arguments : List Value) : Action Value := do
  note (.calling closure.name.lexeme arguments.length)
  let completion ← within closure.scope (.ofArguments closure.parameters arguments)
    (sequence execute closure.body)
  return completion.value

/-- Calls a value with the given arguments. The parenthesis is where faults point. -/
def call (execute : Stmt → Action Completion) (paren : Token) (arguments : List Value) :
    Value → Action Value
  | .function closure =>
      if arguments.length = closure.parameters.length then
        callClosure execute closure arguments
      else fault (.wrongArity closure.parameters.length arguments.length) paren
  | .builtin function =>
      if arguments.length = function.arity then
        match function with
        | .clock => readClock
      else fault (.wrongArity function.arity arguments.length) paren
  | _ => fault .notCallable paren

end Action

mutual

def evaluate : Nat → Expr → Action Value
  | 0, _ => throw .tooDeep
  | _ + 1, .literal value => return .ofLiteral value
  | _ + 1, .variable name => Action.read name
  | depth + 1, .grouping inner => evaluate depth inner
  | depth + 1, .assign name value => do
      let value ← evaluate depth value
      match name with
      | some name => do
          Action.assign name value
          return value
      | none => return value
  | depth + 1, .unary operator operand => do
      let value ← evaluate depth operand
      match operator with
      | some operator => Action.ofExcept (Operator.unary operator value)
      | none => return value
  | depth + 1, .binary left operator right => do
      let left ← evaluate depth left
      let right ← evaluate depth right
      Action.ofExcept (Operator.binary operator left right)
  | depth + 1, .logical left operator right => do
      let left ← Action.ofExcept (Operator.truth operator (← evaluate depth left))
      match Operator.decisive? operator.kind with
      | none => throw (.internal (.notLogical operator.lexeme))
      | some decisive =>
          if left = decisive then return .bool left
          else do
            let right ← Action.ofExcept (Operator.truth operator (← evaluate depth right))
            return .bool right
  | depth + 1, .call callee paren arguments => do
      let callee ← evaluate depth callee
      let arguments ← arguments.mapM (evaluate depth)
      Action.call (execute depth) paren arguments callee

def execute : Nat → Stmt → Action Completion
  | 0, _ => throw .tooDeep
  | depth + 1, .expression value => do
      let _ ← evaluate depth value
      return .normal
  | depth + 1, .print value => do
      let value ← evaluate depth value
      Action.writeLine value.text
      return .normal
  | depth + 1, .variable name initializer => do
      let value ←
        match initializer with
        | some initializer => evaluate depth initializer
        | none => pure .nil
      Action.define name value
      return .normal
  | depth + 1, .block statements => do
      let current := (← get).current
      Action.within current [] (Action.sequence (execute depth) statements)
  | depth + 1, .branch keyword condition thenBranch elseBranch => do
      if ← Action.ofExcept (Operator.condition keyword (← evaluate depth condition)) then
        execute depth thenBranch
      else
        match elseBranch with
        | some elseBranch => execute depth elseBranch
        | none => return .normal
  | depth + 1, .loop keyword condition body =>
      Action.loop
        (do Action.ofExcept (Operator.condition keyword (← evaluate depth condition)))
        (execute depth body) depth
  | _ + 1, .function name parameters body => do
      let value ← Action.makeFunction name parameters body
      Action.define name value
      return .normal
  | depth + 1, .returning _ value => do
      match value with
      | some value => return .returned (← evaluate depth value)
      | none => return .returned .nil

end

/-- Executes the statements of a program in order until one stops with a
fault, which is then noted. A return outside every call is a fault of its
own and is not. -/
def executeProgram (depth : Nat) : List Stmt → Machine → Option Fault × Machine
  | [], machine => (none, machine)
  | statement :: rest, machine =>
      match execute depth statement machine with
      | .ok .normal after => executeProgram depth rest after
      | .ok (.returned _) after => (some (.internal .returnOutsideCall), after)
      | .error fault after => (some fault, after.addNote (.halted fault.message))

end Lox
