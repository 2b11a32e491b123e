import Lox.Proofs.Evaluation.Composition
import Lox.Proofs.Runs

/-!
# Moments of a run

The machines that an evaluation passes one after another. A passage is an
action together with the machines that it passes; passages are put together as
actions are, so the passage of a tree is written clause for clause as its
evaluation, and its action is that evaluation.
-/

set_option autoImplicit false

namespace Lox

/-- An action, and the machines that it passes from the one behind its start to its last one. -/
structure Passage (α : Type) where
  action : Action α
  moments : Machine → List Machine

namespace Passage

variable {α β : Type}

/-- An action that leaves the machine as it is. -/
def still (action : Action α) : Passage α := ⟨action, fun _ => []⟩

/-- An action that changes the machine once. -/
def single (action : Action α) : Passage α := ⟨action, fun machine => [action.finish machine]⟩

protected def bind (first : Passage α) (next : α → Passage β) : Passage β where
  action := first.action >>= fun value => (next value).action
  moments machine :=
    first.moments machine ++
      match first.action machine with
      | .ok value after => (next value).moments after
      | .error _ _ => []

instance : Monad Passage where
  pure value := still (pure value)
  bind := Passage.bind

/-- A passage in a new scope: into it, through it, and back. -/
def within (enclosing : ScopeId) (bindings : Bindings) (inner : Passage α) : Passage α where
  action := .within enclosing bindings inner.action
  moments machine :=
    let entered := Action.enter enclosing bindings machine
    entered :: (inner.moments entered ++
      [(Action.within enclosing bindings inner.action).finish machine])

/-! ## Parts of an evaluation -/

/-- The values of some expressions in turn. -/
def values (evaluate : Expr → Passage Value) : List Expr → Passage (List Value)
  | [] => return []
  | first :: rest => do
      let value ← evaluate first
      let others ← values evaluate rest
      return value :: others

def sequence (execute : Stmt → Passage Completion) : List Stmt → Passage Completion
  | [] => return .normal
  | statement :: rest => do
      match ← execute statement with
      | .normal => sequence execute rest
      | .returned value => return .returned value

def loop (condition : Passage Bool) (body : Passage Completion) : Nat → Passage Completion
  | 0 => still (throw .tooDeep)
  | bound + 1 => do
      if ← condition then
        match ← body with
        | .normal => loop condition body bound
        | .returned value => return .returned value
      else return .normal

def callClosure (execute : Stmt → Passage Completion) (closure : Closure)
    (arguments : List Value) : Passage Value := do
  single (.note (.calling closure.name.lexeme arguments.length))
  let completion ← within closure.scope (.ofArguments closure.parameters arguments)
    (sequence execute closure.body)
  return completion.value

def call (execute : Stmt → Passage Completion) (paren : Token) (arguments : List Value) :
    Value → Passage Value
  | .function closure =>
      if arguments.length = closure.parameters.length then
        callClosure execute closure arguments
      else still (.fault (.wrongArity closure.parameters.length arguments.length) paren)
  | .builtin function =>
      if arguments.length = function.arity then
        match function with
        | .clock => single .readClock
      else still (.fault (.wrongArity function.arity arguments.length) paren)
  | _ => still (.fault .notCallable paren)

end Passage

/-! ## Passages of trees -/

mutual

def Expr.passage : Nat → Expr → Passage Value
  | 0, _ => .still (throw .tooDeep)
  | _ + 1, .literal value => return .ofLiteral value
  | _ + 1, .variable name => .still (.read name)
  | depth + 1, .grouping inner => inner.passage depth
  | depth + 1, .assign name value => do
      let value ← value.passage depth
      match name with
      | some name => do
          .single (.assign name value)
          return value
      | none => return value
  | depth + 1, .unary operator operand => do
      let value ← operand.passage depth
      match operator with
      | some operator => .still (.ofExcept (Operator.unary operator value))
      | none => return value
  | depth + 1, .binary left operator right => do
      let left ← left.passage depth
      let right ← right.passage depth
      .still (.ofExcept (Operator.binary operator left right))
  | depth + 1, .logical left operator right => do
      let value ← left.passage depth
      let left ← .still (.ofExcept (Operator.truth operator value))
      match Operator.decisive? operator.kind with
      | none => .still (throw (.internal (.notLogical operator.lexeme)))
      | some decisive =>
          if left = decisive then return .bool left
          else do
            let value ← right.passage depth
            let right ← .still (.ofExcept (Operator.truth operator value))
            return .bool right
  | depth + 1, .call callee paren arguments => do
      let callee ← callee.passage depth
      let arguments ← Passage.values (Expr.passage depth) arguments
      Passage.call (Stmt.passage depth) paren arguments callee

def Stmt.passage : Nat → Stmt → Passage Completion
  | 0, _ => .still (throw .tooDeep)
  | depth + 1, .expression value => do
      let _ ← value.passage depth
      return .normal
  | depth + 1, .print value => do
      let value ← value.passage depth
      .single (.writeLine value.text)
      return .normal
  | depth + 1, .variable name initializer => do
      let value ←
        match initializer with
        | some initializer => initializer.passage depth
        | none => pure .nil
      .single (.define name value)
      return .normal
  | depth + 1, .block statements => do
      let machine ← .still get
      Passage.within machine.current [] (Passage.sequence (Stmt.passage depth) statements)
  | depth + 1, .branch keyword condition thenBranch elseBranch => do
      let value ← condition.passage depth
      if ← .still (.ofExcept (Operator.condition keyword value)) then
        thenBranch.passage depth
      else
        match elseBranch with
        | some elseBranch => elseBranch.passage depth
        | none => return .normal
  | depth + 1, .loop keyword condition body =>
      Passage.loop
        (do
          let value ← condition.passage depth
          .still (.ofExcept (Operator.condition keyword value)))
        (body.passage depth) depth
  | _ + 1, .function name parameters body => do
      let value ← .single (.makeFunction name parameters body)
      .single (.define name value)
      return .normal
  | depth + 1, .returning _ value => do
      match value with
      | some value => return .returned (← value.passage depth)
      | none => return .returned .nil

end

/-! ## Their actions -/

namespace Passage

variable {α β : Type}

theorem action_bind (first : Passage α) (next : α → Passage β) :
    (first >>= next).action = first.action >>= fun value => (next value).action := rfl

/-- Actions that go on alike are alike. -/
theorem action_bind_eq {first : Passage α} {next : α → Passage β} {action : Action α}
    {continued : α → Action β} (same : first.action = action)
    (sameNext : ∀ value, (next value).action = continued value) :
    (first >>= next).action = action >>= continued := by
  rw [action_bind, same]
  exact congrArg (action >>= ·) (funext sameNext)

theorem action_values {passage : Expr → Passage Value} {evaluate : Expr → Action Value}
    (same : ∀ expr, (passage expr).action = evaluate expr) (exprs : List Expr) :
    (values passage exprs).action = exprs.mapM evaluate := by
  induction exprs with
  | nil => rfl
  | cons first rest ih =>
      rw [List.mapM_cons]
      exact action_bind_eq (same first) fun value => action_bind_eq ih fun others => rfl

section Statements

variable {passage : Stmt → Passage Completion} {execute : Stmt → Action Completion}
  (same : ∀ stmt, (passage stmt).action = execute stmt)

include same

theorem action_sequence (statements : List Stmt) :
    (sequence passage statements).action = .sequence execute statements := by
  induction statements with
  | nil => rfl
  | cons first rest ih =>
      apply action_bind_eq (same first)
      intro completion
      cases completion with
      | normal => exact ih
      | returned value => rfl

theorem action_call (paren : Token) (arguments : List Value) (callee : Value) :
    (call passage paren arguments callee).action = .call execute paren arguments callee := by
  cases callee with
  | nil | bool | number | string => rfl
  | builtin function =>
      simp only [call, Action.call]
      split <;> rfl
  | function closure =>
      simp only [call, Action.call]
      split
      · simp only [callClosure, Action.callClosure]
        refine action_bind_eq rfl fun _ => action_bind_eq ?_ fun _ => rfl
        rw [within, action_sequence same]
      · rfl

end Statements

theorem action_loop {passage : Passage Bool} {condition : Action Bool}
    {passageBody : Passage Completion} {body : Action Completion}
    (same : passage.action = condition) (sameBody : passageBody.action = body) (bound : Nat) :
    (loop passage passageBody bound).action = .loop condition body bound := by
  induction bound with
  | zero => rfl
  | succ bound ih =>
      apply action_bind_eq same
      intro continues
      cases continues with
      | false => rfl
      | true =>
          apply action_bind_eq sameBody
          intro completion
          cases completion with
          | normal => exact ih
          | returned value => rfl

section Evaluation

variable {depth : Nat}
  (expressions : ∀ expr : Expr, (expr.passage depth).action = evaluate depth expr)
  (statements : ∀ stmt : Stmt, (stmt.passage depth).action = execute depth stmt)

include expressions statements

theorem action_expression (expr : Expr) :
    (expr.passage (depth + 1)).action = evaluate (depth + 1) expr := by
  cases expr with
  | literal value => rfl
  | «variable» name => rfl
  | grouping inner => exact expressions inner
  | assign name value =>
      apply action_bind_eq (expressions value)
      intro value
      cases name with
      | none => rfl
      | some name => rfl
  | unary operator operand =>
      apply action_bind_eq (expressions operand)
      intro value
      cases operator with
      | none => rfl
      | some operator => rfl
  | binary left operator right =>
      apply action_bind_eq (expressions left)
      intro left
      exact action_bind_eq (expressions right) fun right => rfl
  | logical left operator right =>
      apply action_bind_eq (expressions left)
      intro value
      apply action_bind_eq rfl
      intro truth
      cases Operator.decisive? operator.kind with
      | none => rfl
      | some decisive =>
          by_cases decided : truth = decisive
          · simp only [decided, if_true]
            rfl
          · simp only [decided, if_false]
            exact action_bind_eq (expressions right) fun value => rfl
  | call callee paren arguments =>
      apply action_bind_eq (expressions callee)
      intro callee
      apply action_bind_eq (action_values expressions arguments)
      intro arguments
      exact action_call statements paren arguments callee

theorem action_statement (stmt : Stmt) :
    (stmt.passage (depth + 1)).action = execute (depth + 1) stmt := by
  cases stmt with
  | expression value => exact action_bind_eq (expressions value) fun _ => rfl
  | print value => exact action_bind_eq (expressions value) fun _ => rfl
  | «variable» name initializer =>
      cases initializer with
      | none => rfl
      | some initializer => exact action_bind_eq (expressions initializer) fun _ => rfl
  | block inner =>
      apply action_bind_eq rfl
      intro machine
      rw [within, action_sequence statements]
  | branch keyword condition thenBranch elseBranch =>
      apply action_bind_eq (expressions condition)
      intro value
      apply action_bind_eq rfl
      intro holds
      cases holds with
      | true => exact statements thenBranch
      | false =>
          cases elseBranch with
          | none => rfl
          | some elseBranch => exact statements elseBranch
  | loop keyword condition body =>
      have tested := action_bind_eq (expressions condition) fun value =>
        (rfl : (still (.ofExcept (Operator.condition keyword value))).action = _)
      exact action_loop tested (statements body) depth
  | function name parameters body => rfl
  | returning keyword value =>
      cases value with
      | none => rfl
      | some value => exact action_bind_eq (expressions value) fun _ => rfl

end Evaluation

/-- The passage of a tree acts as its evaluation does. -/
theorem action_passage (depth : Nat) :
    (∀ expr : Expr, (expr.passage depth).action = evaluate depth expr) ∧
      ∀ stmt : Stmt, (stmt.passage depth).action = execute depth stmt := by
  induction depth with
  | zero => exact ⟨fun _ => rfl, fun _ => rfl⟩
  | succ depth ih => exact ⟨action_expression ih.1 ih.2, action_statement ih.1 ih.2⟩

end Passage

/-! ## Moments of programs and of runs -/

/-- The machines that a program passes behind its first one. -/
def programMoments (depth : Nat) : List Stmt → Machine → List Machine
  | [], _ => []
  | statement :: rest, machine =>
      (statement.passage depth).moments machine ++
        match execute depth statement machine with
        | .ok .normal after => programMoments depth rest after
        | .ok (.returned _) _ => []
        | .error fault after => [after.addNote (.halted fault.message)]

/-- The machines that a run of a source passes behind its first one: without the
notes of the run before, and then those of its program. -/
def runMoments (depth : Nat) (source : String) (machine : Machine) : List Machine :=
  let fresh := { machine with notes := #[] }
  fresh ::
    match parse source with
    | .error _ => []
    | .ok statements => programMoments depth statements fresh

/-- The machines that runs of some sources in turn pass behind the first one. -/
def Machine.moments (machine : Machine) : List (Nat × String) → List Machine
  | [] => []
  | (depth, source) :: rest =>
      runMoments depth source machine ++ (run depth source machine).machine.moments rest

/-- All moments of some sources that are run in turn. -/
def Machine.history (sources : List (Nat × String)) (machine : Machine) : List Machine :=
  machine :: machine.moments sources

end Lox
