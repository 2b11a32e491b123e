import Lox.Proofs.Evaluation.Contract
import Lox.Proofs.Evaluation.Heap
import Lox.Proofs.Syntax.WellFormed

/-!
# Evaluation of well-formed trees

Every scope of a well-formed heap holds functions with well-formed bodies only.
Evaluating a well-formed tree on such a heap keeps it so, however the
evaluation ends, gives values of the same kind, and stops with no fault that
needs another tree. A return is met inside the body of a function only, so it
never leaves a call or a program.
-/

set_option autoImplicit false

namespace Lox

/-! ## Well-formed values and heaps -/

section Definitions

variable (origin : Token → Prop)

/-- Values of which a function may be called: its body is well formed. -/
def Value.WellFormed : Value → Prop
  | .function closure => ∀ stmt ∈ closure.body, stmt.WellFormed origin true
  | _ => True

/-- Completions of statements: only inside the body of a function do they return. -/
def Completion.WellFormed (inBody : Bool) : Completion → Prop
  | .normal => True
  | .returned value => inBody = true ∧ value.WellFormed origin

def Bindings.WellFormed (bindings : Bindings) : Prop :=
  ∀ name value, bindings.find? name = some value → value.WellFormed origin

def Heap.WellFormed (heap : Heap) : Prop :=
  ∀ id scope, heap.get? id = some scope → Bindings.WellFormed origin scope.bindings

/-- The faults of well-formed trees: no internal ones, and runtime faults at
tokens of the trees only. -/
def Fault.Expected : Fault → Prop
  | .runtime error => origin error.token
  | .internal _ => False
  | .outputFull => True
  | .tooDeep => True

def Contract.wellFormed : Contract where
  invariant machine := machine.heap.WellFormed origin
  allows _ _ := True
  expected fault := fault.Expected origin
  refl _ := trivial
  trans _ _ := trivial

end Definitions

section Origins

variable {origin : Token → Prop}

theorem Value.ofLiteral_wellFormed (literal : Literal) :
    (Value.ofLiteral literal).WellFormed origin := by
  cases literal <;> trivial

theorem Completion.WellFormed.value {inBody : Bool} {completion : Completion}
    (wellFormed : completion.WellFormed origin inBody) :
    completion.value.WellFormed origin := by
  cases completion with
  | normal => trivial
  | returned value => exact wellFormed.2

namespace Bindings

theorem WellFormed.nil : WellFormed origin [] := by
  intro name value found
  cases found

theorem WellFormed.set {bindings : Bindings} {name : String} {value : Value}
    (wellFormed : bindings.WellFormed origin) (wellFormedValue : value.WellFormed origin) :
    Bindings.WellFormed origin (bindings.set name value) := by
  intro other found
  rw [find?_set]
  split
  · intro same
    cases same
    exact wellFormedValue
  · exact wellFormed other found

theorem WellFormed.ofArguments (parameters : List Token) {arguments : List Value}
    (wellFormed : ∀ value ∈ arguments, value.WellFormed origin) :
    Bindings.WellFormed origin (ofArguments parameters arguments) := by
  unfold Bindings.ofArguments
  refine List.foldlRecOn _ _ .nil ?_
  intro bindings wellFormedBindings pair member
  exact wellFormedBindings.set (wellFormed _ (List.of_mem_zip member).2)

end Bindings

namespace Heap

variable {heap : Heap}

theorem WellFormed.create (wellFormed : heap.WellFormed origin) (enclosing : ScopeId)
    {bindings : Bindings} (wellFormedBindings : bindings.WellFormed origin) :
    (heap.create enclosing bindings).WellFormed origin := by
  intro id scope found
  rw [get?_create] at found
  split at found
  · obtain rfl := Option.some.inj found
    exact wellFormedBindings
  · exact wellFormed id scope found

theorem WellFormed.define (wellFormed : heap.WellFormed origin) (id : ScopeId) (name : String)
    {value : Value} (wellFormedValue : value.WellFormed origin) :
    (heap.define id name value).WellFormed origin := by
  intro other scope found
  rw [get?_define] at found
  split at found
  · obtain ⟨before, foundBefore, rfl⟩ := Option.map_eq_some_iff.mp found
    exact (wellFormed id before foundBefore).set wellFormedValue
  · exact wellFormed other scope found

theorem WellFormed.assign? (wellFormed : heap.WellFormed origin) {id : ScopeId} {name : String}
    {value : Value} {after : Heap} (wellFormedValue : value.WellFormed origin)
    (assigned : heap.assign? id name value = some after) : after.WellFormed origin := by
  obtain ⟨holder, _, _, _, rfl⟩ := assign?_eq_some assigned
  exact wellFormed.define holder name wellFormedValue

theorem WellFormed.read? (wellFormed : heap.WellFormed origin) {id : ScopeId} {name : String}
    {value : Value} (found : heap.read? id name = some value) : value.WellFormed origin := by
  simp only [Heap.read?, Option.bind_eq_bind, Option.bind_eq_some_iff] at found
  obtain ⟨holder, _, scope, foundScope, foundValue⟩ := found
  exact wellFormed holder scope foundScope name value foundValue

end Heap

/-! ## Operators -/

namespace Operator

open Lox.Action

variable {operator : Token}

theorem allowed_at {α : Type} {valid : α → Prop} (fault : RuntimeFault) (known : origin operator) :
    Allowed (.wellFormed origin) valid (Fault.at fault operator) :=
  known

theorem allowed_numeric (known : origin operator) (left right : Value)
    {apply : Float → Float → Value} (gives : ∀ left right, (apply left right).WellFormed origin) :
    Allowed (.wellFormed origin) (Value.WellFormed origin)
      (numeric operator left right apply) := by
  unfold numeric
  split
  · exact gives _ _
  · exact allowed_at _ known

theorem allowed_add (known : origin operator) (left right : Value) :
    Allowed (.wellFormed origin) (Value.WellFormed origin) (add operator left right) := by
  unfold add
  split
  · trivial
  · trivial
  · exact allowed_at _ known

theorem allowed_binary (isBinary : operator.kind ∈ TokenKind.binaryOperators)
    (known : origin operator) (left right : Value) :
    Allowed (.wellFormed origin) (Value.WellFormed origin) (binary operator left right) := by
  have onNumbers := @allowed_numeric origin operator known left right
  unfold binary
  split
  · exact onNumbers fun _ _ => trivial
  · exact allowed_add known left right
  · exact onNumbers fun _ _ => trivial
  · exact onNumbers fun _ _ => trivial
  · exact onNumbers fun _ _ => trivial
  · exact onNumbers fun _ _ => trivial
  · exact onNumbers fun _ _ => trivial
  · exact onNumbers fun _ _ => trivial
  · trivial
  · trivial
  · simp only [TokenKind.binaryOperators, List.mem_cons, List.not_mem_nil, or_false] at isBinary
    grind

theorem allowed_truth (known : origin operator) (operand : Value) :
    Allowed (.wellFormed origin) (fun _ => True) (truth operator operand) := by
  unfold truth
  split
  · trivial
  · exact allowed_at _ known

theorem allowed_negate (known : origin operator) (operand : Value) :
    Allowed (.wellFormed origin) (Value.WellFormed origin) (negate operator operand) := by
  unfold negate
  split
  · trivial
  · exact allowed_at _ known

theorem allowed_unary (isUnary : operator.kind ∈ TokenKind.unaryOperators)
    (known : origin operator) (operand : Value) :
    Allowed (.wellFormed origin) (Value.WellFormed origin) (unary operator operand) := by
  simp only [TokenKind.unaryOperators, List.mem_cons, List.not_mem_nil, or_false] at isUnary
  obtain isBang | isMinus := isUnary
  · have allowed := allowed_truth known operand
    simp only [unary, isBang]
    cases result : truth operator operand with
    | ok value => trivial
    | error fault =>
        rw [result] at allowed
        exact allowed
  · simp only [unary, isMinus]
    exact allowed_negate known operand

theorem decisive?_isSome (isLogical : operator.kind ∈ TokenKind.logicalOperators) :
    ∃ decisive, decisive? operator.kind = some decisive := by
  simp only [TokenKind.logicalOperators, List.mem_cons, List.not_mem_nil, or_false] at isLogical
  obtain isOr | isAnd := isLogical
  · exact ⟨true, by rw [isOr]; rfl⟩
  · exact ⟨false, by rw [isAnd]; rfl⟩

theorem allowed_condition {keyword : Token} (known : origin keyword) (value : Value) :
    Allowed (.wellFormed origin) (fun _ => True) (condition keyword value) := by
  unfold condition
  split
  · trivial
  · exact allowed_at _ known

end Operator

/-! ## Actions -/

namespace Action

variable {α : Type}

theorem keeps_read {name : Token} (known : origin name) :
    (read name).Keeps (.wellFormed origin) (Value.WellFormed origin) := by
  apply keeps_bind keeps_get
  intro machine wellFormed
  apply keeps_bind keeps_get
  intro seen _
  cases found : machine.heap.read? seen.current name.lexeme with
  | none => exact keeps_throw known
  | some value => exact keeps_pure (wellFormed.read? found)

theorem keeps_assign {name : Token} (known : origin name) {value : Value}
    (wellFormedValue : value.WellFormed origin) :
    (assign name value).Keeps (.wellFormed origin) fun _ => True := by
  intro machine wellFormed
  simp only [assign]
  cases assigned : machine.heap.assign? machine.current name.lexeme value with
  | none => exact ⟨known, wellFormed, trivial⟩
  | some heap => exact ⟨trivial, wellFormed.assign? wellFormedValue assigned, trivial⟩

theorem keeps_define (name : Token) {value : Value} (wellFormedValue : value.WellFormed origin) :
    (define name value).Keeps (.wellFormed origin) fun _ => True :=
  fun _ wellFormed => ⟨trivial, wellFormed.define _ _ wellFormedValue, trivial⟩

theorem keeps_makeFunction (name : Token) (parameters : List Token) {body : List Stmt}
    (wellFormedBody : ∀ stmt ∈ body, stmt.WellFormed origin true) :
    (makeFunction name parameters body).Keeps (.wellFormed origin) (Value.WellFormed origin) :=
  fun _ wellFormed => ⟨wellFormedBody, wellFormed, trivial⟩

theorem keeps_note (added : Note) : (note added).Keeps (.wellFormed origin) fun _ => True :=
  fun _ wellFormed => ⟨trivial, wellFormed, trivial⟩

theorem keeps_writeLine (text : String) :
    (writeLine text).Keeps (.wellFormed origin) fun _ => True := by
  intro machine wellFormed
  simp only [writeLine]
  rcases machine.output.write (text ++ "\n").toUTF8 with ⟨output, _ | _⟩
  · exact ⟨trivial, wellFormed, trivial⟩
  · exact ⟨trivial, wellFormed, trivial⟩

theorem keeps_within {valid : α → Prop} {action : Action α}
    (keeps : action.Keeps (.wellFormed origin) valid) (enclosing : ScopeId) {bindings : Bindings}
    (wellFormedBindings : bindings.WellFormed origin) :
    (within enclosing bindings action).Keeps (.wellFormed origin) valid := by
  intro machine wellFormed
  have inner := keeps (enter enclosing bindings machine)
    (wellFormed.create enclosing wellFormedBindings)
  rw [within_eq]
  cases result : action (enter enclosing bindings machine) with
  | ok value after =>
      rw [result] at inner
      exact inner
  | error fault after =>
      rw [result] at inner
      exact inner

/-- A call ends with the value that its body returned, and never returns itself. -/
theorem keeps_call {execute : Stmt → Action Completion}
    (keeps : ∀ stmt, stmt.WellFormed origin true →
      (execute stmt).Keeps (.wellFormed origin) (Completion.WellFormed origin true))
    {paren : Token} (known : origin paren) {arguments : List Value}
    (wellFormedArguments : ∀ value ∈ arguments, value.WellFormed origin) {callee : Value}
    (wellFormedCallee : callee.WellFormed origin) :
    (call execute paren arguments callee).Keeps (.wellFormed origin) (Value.WellFormed origin) := by
  unfold call
  split
  · next closure =>
    split
    · have body := keeps_sequence trivial fun stmt member => keeps stmt (wellFormedCallee stmt member)
      have bindings := Bindings.WellFormed.ofArguments closure.parameters wellFormedArguments
      apply keeps_bind (keeps_note _)
      intro _ _
      apply keeps_bind (keeps_within body closure.scope bindings)
      intro completion ended
      exact keeps_pure ended.value
    · exact keeps_throw known
  · split
    · exact fun _ wellFormed => ⟨trivial, wellFormed, trivial⟩
    · exact keeps_throw known
  · exact keeps_throw known

end Action

/-! ## Evaluation -/

section Evaluation

open Lox.Action

variable {depth : Nat}
  (expressions : ∀ expr, expr.WellFormed origin →
    (evaluate depth expr).Keeps (.wellFormed origin) (Value.WellFormed origin))
  (statements : ∀ stmt inBody, stmt.WellFormed origin inBody →
    (execute depth stmt).Keeps (.wellFormed origin) (Completion.WellFormed origin inBody))

include expressions in
theorem keeps_condition {keyword : Token} (known : origin keyword) {condition : Expr}
    (wellFormed : condition.WellFormed origin) :
    (do Action.ofExcept (Operator.condition keyword (← evaluate depth condition)) :
      Action Bool).Keeps (.wellFormed origin) fun _ => True :=
  keeps_bind (expressions condition wellFormed) fun value _ =>
    keeps_ofExcept (Operator.allowed_condition known value)

include expressions statements in
theorem keeps_expression {expr : Expr} (wellFormed : expr.WellFormed origin) :
    (evaluate (depth + 1) expr).Keeps (.wellFormed origin) (Value.WellFormed origin) := by
  cases wellFormed with
  | literal => exact keeps_pure (Value.ofLiteral_wellFormed _)
  | «variable» name => exact keeps_read name
  | grouping inner => exact expressions _ inner
  | assign name value =>
      apply keeps_bind (expressions _ value)
      intro value wellFormedValue
      exact keeps_bind (keeps_assign name wellFormedValue) fun _ _ => keeps_pure wellFormedValue
  | unary isUnary known operand =>
      apply keeps_bind (expressions _ operand)
      intro value _
      exact keeps_ofExcept (Operator.allowed_unary isUnary known value)
  | binary isBinary known left right =>
      apply keeps_bind (expressions _ left)
      intro left _
      apply keeps_bind (expressions _ right)
      intro right _
      exact keeps_ofExcept (Operator.allowed_binary isBinary known left right)
  | logical isLogical known left right =>
      obtain ⟨decisive, isDecisive⟩ := Operator.decisive?_isSome isLogical
      apply keeps_bind (expressions _ left)
      intro left _
      apply keeps_bind (keeps_ofExcept (Operator.allowed_truth known left))
      intro left _
      simp only [isDecisive]
      split
      · exact keeps_pure trivial
      · apply keeps_bind (expressions _ right)
        intro right _
        apply keeps_bind (keeps_ofExcept (Operator.allowed_truth known right))
        intro _ _
        exact keeps_pure trivial
  | call paren callee arguments =>
      apply keeps_bind (expressions _ callee)
      intro callee wellFormedCallee
      apply keeps_bind (keeps_mapM fun argument member => expressions _ (arguments argument member))
      intro arguments wellFormedArguments
      exact keeps_call (fun stmt => statements stmt true) paren wellFormedArguments wellFormedCallee

include expressions statements in
theorem keeps_statement {stmt : Stmt} {inBody : Bool} (wellFormed : stmt.WellFormed origin inBody) :
    (execute (depth + 1) stmt).Keeps (.wellFormed origin)
      (Completion.WellFormed origin inBody) := by
  cases wellFormed with
  | expression value => exact keeps_bind (expressions _ value) fun _ _ => keeps_pure trivial
  | print value =>
      apply keeps_bind (expressions _ value)
      intro value _
      exact keeps_bind (keeps_writeLine value.text) fun _ _ => keeps_pure trivial
  | @«variable» _ name initializer value =>
      cases initializer with
      | none =>
          have nil : Value.nil.WellFormed origin := trivial
          apply keeps_bind (keeps_pure nil)
          intro value wellFormed
          exact keeps_bind (keeps_define name wellFormed) fun _ _ => keeps_pure trivial
      | some initializer =>
          apply keeps_bind (expressions initializer (value _ rfl))
          intro value wellFormed
          exact keeps_bind (keeps_define name wellFormed) fun _ _ => keeps_pure trivial
  | block inner =>
      apply keeps_bind keeps_get
      intro machine _
      have inner := keeps_sequence trivial fun stmt member => statements stmt inBody (inner stmt member)
      exact keeps_within inner machine.current .nil
  | @branch _ _ _ _ elseBranch keyword condition thenBranch otherwise =>
      apply keeps_bind (expressions _ condition)
      intro value _
      apply keeps_bind (keeps_ofExcept (Operator.allowed_condition keyword value))
      intro holds _
      cases holds with
      | true => exact statements _ inBody thenBranch
      | false =>
          cases elseBranch with
          | none => exact keeps_pure trivial
          | some elseBranch => exact statements elseBranch inBody (otherwise _ rfl)
  | loop keyword condition body =>
      exact keeps_loop trivial trivial (keeps_condition expressions keyword condition)
        (statements _ inBody body) depth
  | @function _ name parameters _ body =>
      apply keeps_bind (keeps_makeFunction name parameters body)
      intro function wellFormed
      exact keeps_bind (keeps_define name wellFormed) fun _ _ => keeps_pure trivial
  | @returning _ result value =>
      cases result with
      | none => exact keeps_pure ⟨rfl, trivial⟩
      | some result =>
          apply keeps_bind (expressions result (value _ rfl))
          intro value wellFormed
          exact keeps_pure ⟨rfl, wellFormed⟩

end Evaluation

/-- Evaluation and execution of well-formed trees keep their contract, however deep they go. -/
theorem keeps_evaluation (depth : Nat) :
    (∀ expr, expr.WellFormed origin →
        (evaluate depth expr).Keeps (.wellFormed origin) (Value.WellFormed origin)) ∧
      ∀ stmt inBody, stmt.WellFormed origin inBody →
        (execute depth stmt).Keeps (.wellFormed origin) (Completion.WellFormed origin inBody) := by
  induction depth with
  | zero => exact ⟨fun _ _ => Action.keeps_throw trivial, fun _ _ _ => Action.keeps_throw trivial⟩
  | succ depth ih =>
      exact ⟨fun _ => keeps_expression ih.1 ih.2, fun _ _ => keeps_statement ih.1 ih.2⟩

/-- Executing a well-formed program keeps the heap well formed and stops with
an expected fault if it stops early. -/
theorem executeProgram_wellFormed (depth : Nat) {statements : List Stmt}
    (wellFormed : ∀ stmt ∈ statements, stmt.WellFormed origin false) {machine : Machine}
    (heap : machine.heap.WellFormed origin) :
    (∀ fault ∈ (executeProgram depth statements machine).1, fault.Expected origin) ∧
      (executeProgram depth statements machine).2.heap.WellFormed origin := by
  have keeps : ∀ stmt ∈ statements, (execute depth stmt).Keeps (.wellFormed origin)
      (Completion.WellFormed origin false) :=
    fun stmt member => (keeps_evaluation depth).2 stmt false (wellFormed stmt member)
  -- Outside every function body no statement is well formed that returns.
  have ended := keeps_executeProgram (fun _ _ invariant => ⟨invariant, trivial⟩)
    (fun _ returned => absurd returned.1 Bool.false_ne_true) keeps machine heap
  exact ⟨ended.1, ended.2.1⟩

end Origins

end Lox
