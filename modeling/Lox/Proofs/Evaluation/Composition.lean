import Lox.Proofs.Evaluation.Effect

/-!
# Properties of every evaluation

An evaluation puts a few single actions together in a few ways, and only one of
the single actions looks at the output. A property that goes through these ways
and that the single actions have is one of every evaluation.
-/

set_option autoImplicit false

namespace Lox

namespace Action

variable {α : Type}

/-! ## Actions beside the output -/

/-- The action looks at no output and leaves it as it is. -/
def Silent (action : Action α) : Prop :=
  ∀ (machine : Machine) (output : Output), action { machine with output } =
    match action machine with
    | .ok value after => .ok value { after with output }
    | .error fault after => .error fault { after with output }

theorem Silent.output_eq {action : Action α} (silent : action.Silent) (machine : Machine) :
    (action.finish machine).output = machine.output := by
  have same := silent machine machine.output
  rw [finish]
  cases result : action machine with
  | ok value after =>
      simp only [result, EStateM.Result.ok.injEq, true_and] at same
      rw [same]
  | error fault after =>
      simp only [result, EStateM.Result.error.injEq, true_and] at same
      rw [same]

theorem silent_pure (value : α) : (pure value : Action α).Silent := fun _ _ => rfl

theorem silent_throw (fault : Fault) : (throw fault : Action α).Silent := fun _ _ => rfl

theorem silent_ofExcept (outcome : Except Fault α) : (ofExcept outcome).Silent := by
  cases outcome with
  | ok value => exact silent_pure value
  | error fault => exact silent_throw fault

theorem silent_read (name : Token) : (read name).Silent := by
  intro machine output
  rw [read_eq, read_eq]
  cases machine.heap.read? machine.current name.lexeme with
  | none => rfl
  | some value => rfl

theorem silent_assign (name : Token) (value : Value) : (assign name value).Silent := by
  intro machine output
  simp only [assign]
  cases machine.heap.assign? machine.current name.lexeme value with
  | none => rfl
  | some heap => rfl

theorem silent_define (name : Token) (value : Value) : (define name value).Silent :=
  fun _ _ => rfl

theorem silent_makeFunction (name : Token) (parameters : List Token) (body : List Stmt) :
    (makeFunction name parameters body).Silent :=
  fun _ _ => rfl

theorem silent_readClock : readClock.Silent := fun _ _ => rfl

theorem silent_note (added : Note) : (note added).Silent := fun _ _ => rfl

/-! ## Composition -/

/-- A property of actions that goes through all ways in which actions are put
together, and that the single actions have. -/
structure Compositional (holds : (α : Type) → Action α → Prop) : Prop where
  silent {α : Type} {action : Action α} : action.Silent → holds α action
  writeLine (text : String) : holds Unit (writeLine text)
  bind {α β : Type} {first : Action α} {next : α → Action β} :
    holds α first → (∀ value, holds β (next value)) → holds β (first >>= next)
  current {α : Type} {next : ScopeId → Action α} :
    (∀ current, holds α (next current)) → holds α (do next (← get).current)
  within {α : Type} {action : Action α} (enclosing : ScopeId) (bindings : Bindings) :
    holds α action → holds α (within enclosing bindings action)

namespace Compositional

variable {holds : (α : Type) → Action α → Prop} (compositional : Compositional holds)

include compositional

theorem pure (value : α) : holds α (Pure.pure value) := compositional.silent (silent_pure value)

theorem throw (fault : Fault) : holds α (MonadExcept.throw fault) :=
  compositional.silent (silent_throw fault)

theorem ofExcept (outcome : Except Fault α) : holds α (Action.ofExcept outcome) :=
  compositional.silent (silent_ofExcept outcome)

theorem mapM {β : Type} {action : α → Action β} (each : ∀ value, holds β (action value))
    (values : List α) : holds (List β) (values.mapM action) := by
  induction values with
  | nil => exact compositional.pure []
  | cons first rest ih =>
      rw [List.mapM_cons]
      refine compositional.bind (each first) fun result => ?_
      exact compositional.bind ih fun results => compositional.pure (result :: results)

theorem sequence {execute : Stmt → Action Completion}
    (each : ∀ stmt, holds Completion (execute stmt)) (statements : List Stmt) :
    holds Completion (sequence execute statements) := by
  induction statements with
  | nil => exact compositional.pure Completion.normal
  | cons first rest ih =>
      refine compositional.bind (each first) fun completion => ?_
      cases completion with
      | normal => exact ih
      | returned value => exact compositional.pure (Completion.returned value)

theorem loop {condition : Action Bool} {body : Action Completion}
    (tested : holds Bool condition) (repeated : holds Completion body) (bound : Nat) :
    holds Completion (loop condition body bound) := by
  induction bound with
  | zero => exact compositional.throw .tooDeep
  | succ bound ih =>
      refine compositional.bind tested fun continues => ?_
      cases continues with
      | false => exact compositional.pure Completion.normal
      | true =>
          refine compositional.bind repeated fun completion => ?_
          cases completion with
          | normal => exact ih
          | returned value => exact compositional.pure (Completion.returned value)

theorem call {execute : Stmt → Action Completion}
    (each : ∀ stmt, holds Completion (execute stmt)) (paren : Token) (arguments : List Value)
    (callee : Value) : holds Value (call execute paren arguments callee) := by
  unfold Action.call
  split
  · next closure =>
    split
    · have body := compositional.within closure.scope (.ofArguments closure.parameters arguments)
        (compositional.sequence each closure.body)
      refine compositional.bind (compositional.silent (silent_note _)) fun _ => ?_
      exact compositional.bind body fun _ => compositional.pure _
    · exact compositional.throw _
  · split
    · exact compositional.silent silent_readClock
    · exact compositional.throw _
  · exact compositional.throw _

section Evaluation

variable {depth : Nat} (expressions : ∀ expr, holds Value (evaluate depth expr))
  (statements : ∀ stmt, holds Completion (execute depth stmt))

include expressions in
theorem condition (keyword : Token) (condition : Expr) :
    holds Bool (do Action.ofExcept (Operator.condition keyword (← evaluate depth condition))) :=
  compositional.bind (expressions condition) fun _ => compositional.ofExcept _

include expressions statements in
theorem expression (expr : Expr) : holds Value (evaluate (depth + 1) expr) := by
  cases expr with
  | literal value => exact compositional.pure _
  | «variable» name => exact compositional.silent (silent_read name)
  | grouping inner => exact expressions inner
  | assign name value =>
      refine compositional.bind (expressions value) fun value => ?_
      cases name with
      | none => exact compositional.pure value
      | some name =>
          refine compositional.bind (compositional.silent (silent_assign name value)) fun _ => ?_
          exact compositional.pure value
  | unary operator operand =>
      refine compositional.bind (expressions operand) fun value => ?_
      cases operator with
      | none => exact compositional.pure value
      | some operator => exact compositional.ofExcept _
  | binary left operator right =>
      refine compositional.bind (expressions left) fun _ => ?_
      exact compositional.bind (expressions right) fun _ => compositional.ofExcept _
  | logical left operator right =>
      refine compositional.bind (expressions left) fun _ => ?_
      refine compositional.bind (compositional.ofExcept _) fun truth => ?_
      cases Operator.decisive? operator.kind with
      | none => exact compositional.throw _
      | some decisive =>
          by_cases decided : truth = decisive
          · simp only [decided, if_true]
            exact compositional.pure _
          · simp only [decided, if_false]
            refine compositional.bind (expressions right) fun _ => ?_
            exact compositional.bind (compositional.ofExcept _) fun _ => compositional.pure _
  | call callee paren arguments =>
      refine compositional.bind (expressions callee) fun callee => ?_
      refine compositional.bind (compositional.mapM expressions arguments) fun arguments => ?_
      exact compositional.call statements paren arguments callee

include expressions statements in
theorem statement (stmt : Stmt) : holds Completion (execute (depth + 1) stmt) := by
  cases stmt with
  | expression value =>
      exact compositional.bind (expressions value) fun _ => compositional.pure _
  | print value =>
      refine compositional.bind (expressions value) fun value => ?_
      exact compositional.bind (compositional.writeLine value.text) fun _ => compositional.pure _
  | «variable» name initializer =>
      have defined : ∀ value, holds Completion (do define name value; return .normal) :=
        fun value => compositional.bind (compositional.silent (silent_define name value))
          fun _ => compositional.pure _
      cases initializer with
      | none => exact defined .nil
      | some initializer => exact compositional.bind (expressions initializer) defined
  | block inner =>
      exact compositional.current fun current =>
        compositional.within current [] (compositional.sequence statements inner)
  | branch keyword condition thenBranch elseBranch =>
      refine compositional.bind (expressions condition) fun _ => ?_
      refine compositional.bind (compositional.ofExcept _) fun holds => ?_
      cases holds with
      | true => exact statements thenBranch
      | false =>
          cases elseBranch with
          | none => exact compositional.pure _
          | some elseBranch => exact statements elseBranch
  | loop keyword condition body =>
      have tested := compositional.condition expressions keyword condition
      exact compositional.loop tested (statements body) depth
  | function name parameters body =>
      have made := compositional.silent (silent_makeFunction name parameters body)
      refine compositional.bind made fun function => ?_
      have defined := compositional.silent (silent_define name function)
      exact compositional.bind defined fun _ => compositional.pure _
  | returning keyword value =>
      cases value with
      | none => exact compositional.pure _
      | some value => exact compositional.bind (expressions value) fun _ => compositional.pure _

end Evaluation

/-- Every evaluation has the property, however deep it goes. -/
theorem evaluation (depth : Nat) :
    (∀ expr, holds Value (evaluate depth expr)) ∧
      ∀ stmt, holds Completion (execute depth stmt) := by
  induction depth with
  | zero => exact ⟨fun _ => compositional.throw .tooDeep, fun _ => compositional.throw .tooDeep⟩
  | succ depth ih =>
      exact ⟨compositional.expression ih.1 ih.2, compositional.statement ih.1 ih.2⟩

end Compositional

end Action

end Lox
