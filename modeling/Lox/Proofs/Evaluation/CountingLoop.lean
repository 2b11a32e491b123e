import Lox.Proofs.Evaluation.Coherence
import Lox.Proofs.Evaluation.Depth
import Lox.Proofs.Evaluation.Names
import Lox.Proofs.Grammar.CountingClauses

/-!
# Counting loops

A counting loop is executed as the tree that it stands for, where the body and
the increment of each pass share a scope of their own inside the scope of the
loop. Here the loop is described without that scope: the initializer runs once
in a new scope, and every pass runs in that scope too. The two cannot be told
apart, as the scope of a pass stays empty: a body declares nothing in it. The
scopes of passes are the pockets of a placement.
-/

set_option autoImplicit false

namespace Lox

namespace Action

/-! ## What a counting loop means -/

/-- Acts in a new scope inside the current one. -/
def nested {α : Type} (action : Action α) : Action α := do
  let current := (← get).current
  within current [] action

theorem nested_eq {α : Type} (action : Action α) (machine : Machine) :
    nested action machine = within machine.current [] action machine := rfl

/-- What follows a statement that did not return. -/
def andThen (first next : Action Completion) : Action Completion := do
  match ← first with
  | .normal => next
  | .returned value => return .returned value

/-- Whether a counting loop goes on: without a condition always. -/
def goesOn (depth : Nat) (keyword : Token) : Option Expr → Action Bool
  | none => return true
  | some condition => do
      ofExcept (Operator.condition keyword (← evaluate depth condition))

/-- Evaluates an increment if there is one. -/
def step (depth : Nat) : Option Expr → Action Completion
  | none => return .normal
  | some increment => do
      let _ ← evaluate depth increment
      return .normal

/-- An initializer in a new scope, and then passes in that scope as long as the
loop goes on and no pass returns. -/
def countingOver (depth : Nat) (keyword : Token) (initializer : Stmt) (condition : Option Expr)
    (pass : Action Completion) : Action Completion :=
  nested (andThen (execute depth initializer) (loop (goesOn depth keyword condition) pass depth))

/-- A counting loop: each pass executes the body and, if that does not return,
evaluates the increment once, both in the scope of the loop. -/
def countingLoop (depth : Nat) (keyword : Token) (initializer : Stmt)
    (condition increment : Option Expr) (body : Stmt) : Action Completion :=
  countingOver depth keyword initializer condition
    (andThen (execute depth body) (step depth increment))

/-- A pass in a scope of its own, if there is an increment. -/
def nestedPass (depth : Nat) (body : Stmt) : Option Expr → Action Completion
  | none => execute depth body
  | some increment => nested (andThen (execute depth body) (step depth (some increment)))

/-! ## The tree of a counting loop -/

theorem andThen_normal (action : Action Completion) : andThen action (pure .normal) = action := by
  funext machine
  simp only [andThen, bind, EStateM.bind]
  cases action machine with
  | ok completion after => cases completion <;> rfl
  | error fault after => rfl

theorem execute_pair (depth : Nat) (first second : Stmt) :
    execute (depth + 1) (.block [first, second]) =
      nested (andThen (execute depth first) (execute depth second)) := by
  have last : sequence (execute depth) [second] = execute depth second :=
    andThen_normal (execute depth second)
  calc execute (depth + 1) (.block [first, second])
      = nested (andThen (execute depth first) (sequence (execute depth) [second])) := rfl
    _ = nested (andThen (execute depth first) (execute depth second)) := by rw [last]

theorem approximates_nested {first first' next next' : Action Completion}
    (approximates : first.Approximates first') (approximatesNext : next.Approximates next') :
    (nested (andThen first next)).Approximates (nested (andThen first' next')) := by
  apply approximates_bind (approximates_refl _)
  intro machine
  apply approximates_within
  apply approximates_bind approximates
  intro completion
  cases completion with
  | normal => exact approximatesNext
  | returned value => exact approximates_refl _

section Tree

variable {lower depth : Nat} (keyword : Token) (initializer body : Stmt)
  (condition increment : Option Expr)

/-- The condition of the tree, which is the literal `true` if none is given. -/
abbrev testOf (condition : Option Expr) : Expr := condition.getD (.literal (.bool true))

theorem counting_eq : Stmt.counting keyword initializer (testOf condition) increment body =
    .block
      [initializer, .loop keyword (testOf condition) (Grammar.withIncrement body increment)] := by
  cases increment <;> rfl

theorem test_approximates (le : lower ≤ depth) :
    Approximates (do ofExcept (Operator.condition keyword (← evaluate lower (testOf condition))))
      (goesOn depth keyword condition) := by
  cases condition with
  | some condition => exact approximates_condition (evaluation_approximates le).1 keyword condition
  | none =>
      cases lower with
      | zero => exact approximates_tooDeep _
      | succ lower => exact approximates_refl _

theorem goesOn_approximates (le : lower ≤ depth) :
    (goesOn lower keyword condition).Approximates
      (do ofExcept (Operator.condition keyword (← evaluate (depth + 1) (testOf condition)))) := by
  cases condition with
  | some condition =>
      exact approximates_condition (evaluation_approximates (Nat.le_succ_of_le le)).1 keyword
        condition
  | none => exact approximates_refl _

theorem withIncrement_approximates (le : lower ≤ depth) :
    (execute lower (Grammar.withIncrement body increment)).Approximates
      (nestedPass depth body increment) := by
  cases increment with
  | none => exact (evaluation_approximates le).2 body
  | some increment =>
      cases lower with
      | zero => exact approximates_tooDeep _
      | succ lower =>
          have le := Nat.le_of_succ_le le
          rw [Grammar.withIncrement, execute_pair]
          apply approximates_nested ((evaluation_approximates le).2 body)
          cases lower with
          | zero => exact approximates_tooDeep _
          | succ lower =>
              exact approximates_bind ((evaluation_approximates (Nat.le_of_succ_le le)).1 increment)
                fun _ => approximates_refl _

theorem nestedPass_approximates (le : lower ≤ depth) :
    (nestedPass lower body increment).Approximates
      (execute (depth + 2) (Grammar.withIncrement body increment)) := by
  cases increment with
  | none => exact (evaluation_approximates (Nat.le_add_right_of_le le)).2 body
  | some increment =>
      rw [Grammar.withIncrement, execute_pair]
      apply approximates_nested ((evaluation_approximates (Nat.le_succ_of_le le)).2 body)
      exact approximates_bind ((evaluation_approximates le).1 increment)
        fun _ => approximates_refl _

/-- Under any bound the tree of a counting loop does what the loop with nested
passes does, or it is too deep. -/
theorem counting_approximates : ∀ depth : Nat,
    (execute depth (.counting keyword initializer (testOf condition) increment body)).Approximates
      (countingOver depth keyword initializer condition (nestedPass depth body increment))
  | 0 => approximates_tooDeep _
  | depth + 1 => by
      rw [counting_eq, execute_pair]
      apply approximates_nested ((evaluation_approximates (Nat.le_succ depth)).2 initializer)
      cases depth with
      | zero => exact approximates_tooDeep _
      | succ depth =>
          have le : depth ≤ depth + 2 := Nat.le_add_right depth 2
          exact approximates_loop (test_approximates keyword condition le)
            (withIncrement_approximates body increment le) le

/-- The tree of a counting loop is four deeper than the parts of the loop. -/
theorem approximates_counting (depth : Nat) :
    (countingOver depth keyword initializer condition
      (nestedPass depth body increment)).Approximates
      (execute (depth + 4) (.counting keyword initializer (testOf condition) increment body)) := by
  rw [counting_eq, execute_pair]
  apply approximates_nested ((evaluation_approximates (Nat.le_add_right depth 3)).2 initializer)
  exact approximates_loop (goesOn_approximates keyword condition (Nat.le_succ depth))
    (nestedPass_approximates body increment (Nat.le_refl depth)) (Nat.le_add_right depth 2)

end Tree

/-! ## Bodies that declare nothing -/

theorem causes_andThen {defines : Bool} {first next : Action Completion}
    (caused : first.Causes defines) (causedNext : next.Causes defines) :
    (andThen first next).Causes defines := by
  apply keeps_bind caused
  intro completion _
  cases completion with
  | normal => exact causedNext
  | returned value => exact keeps_pure trivial

theorem causes_step (depth : Nat) (increment : Option Expr) :
    (step depth increment).Causes false := by
  cases increment with
  | none => exact keeps_pure trivial
  | some increment =>
      exact keeps_bind ((causes_evaluation depth).1 increment) fun _ _ => keeps_pure trivial

/-- A statement that declares nothing has no effect on the names of its scope. -/
theorem causes_declaresNothing (depth : Nat) {stmt : Stmt} (declares : stmt.DeclaresNothing) :
    (execute depth stmt).Causes false := by
  induction depth generalizing stmt with
  | zero => exact keeps_throw trivial
  | succ depth ih =>
      obtain ⟨expressions, statements⟩ := causes_evaluation depth
      cases declares with
      | expression => exact keeps_bind (expressions _) fun _ _ => keeps_pure trivial
      | print =>
          apply keeps_bind (expressions _)
          intro _ _
          exact keeps_bind (causes_writeLine _) fun _ _ => keeps_pure trivial
      | block =>
          apply keeps_bind keeps_get
          intro machine _
          exact causes_within (causes_sequence statements _) _ _
      | @branch _ _ _ elseBranch thenDeclares elseDeclares =>
          apply keeps_bind (expressions _)
          intro _ _
          apply keeps_bind (causes_ofExcept _)
          intro holds _
          cases holds with
          | true => exact ih thenDeclares
          | false =>
              cases elseBranch with
              | none => exact keeps_pure trivial
              | some elseBranch => exact ih (elseDeclares elseBranch rfl)
      | loop bodyDeclares =>
          refine keeps_loop trivial trivial ?_ (ih bodyDeclares) depth
          exact keeps_bind (expressions _) fun _ _ => causes_ofExcept _
      | @returning _ value =>
          cases value with
          | none => exact keeps_pure trivial
          | some value => exact keeps_bind (expressions value) fun _ _ => keeps_pure trivial

/-! ## Passes in pockets -/

section Passes

variable {start : Placement} {given : Placement → Completion → Completion → Prop}

theorem follows_nested {action action' : Action Completion}
    (follows : ∀ start, Follows Eq False true start given action action') (settled : Bool) :
    Follows Eq False settled start given (nested action) (nested action') := by
  intro placement extended machine machine' machines
  exact follows_within machines.current .nil (follows placement) placement (.refl placement)
    machine machine' machines

theorem follows_andThen {settled : Bool} {first first' next next' : Action Completion}
    (follows : Follows Eq False settled start (Placement.Completions Eq) first first')
    (followsNext : ∀ start,
      Follows Eq False settled start (Placement.Completions Eq) next next') :
    Follows Eq False settled start (Placement.Completions Eq) (andThen first next)
      (andThen first' next') := by
  apply follows_bind follows
  rintro placement _ _ _ (_ | value)
  · exact followsNext placement
  · exact follows_pure fun _ extended => .returned (value.mono extended.stands)

/-- An action that leaves the current scope alone does the same in a pocket. -/
theorem follows_pocket {defines : Bool} {action action' : Action Completion}
    (caused : action.Causes defines)
    (follows : Follows Eq False false start given action action') :
    Follows Eq False true start given action (nested action') := by
  intro placement extended machine machine' machines
  have stands := machines.settled rfl
  have grown := placement.extends_addPocket machine.current machine'.heap.nextId
  have inner : Machine.Alike Eq False false
      (placement.addPocket machine.current machine'.heap.nextId) machine
      { machine' with
        heap := machine'.heap.create machine'.current [], current := machine'.heap.nextId } :=
    { machines with
      heap := machines.heap.createPocket id stands
      current := .inr (.inr ⟨rfl, rfl⟩)
      settled := by simp }
  have ends := follows _ (extended.trans grown) _ _ inner
  have kept := (causes_iff.mp caused machine).current
  have back : ∀ {later : Placement} {after after' : Machine},
      (placement.addPocket machine.current machine'.heap.nextId).Extends later →
      after.current = machine.current → Machine.Alike Eq False false later after after' →
      Machine.Alike Eq False true later after { after' with current := machine'.current } := by
    intro later after after' further same machines
    have stands := (grown.trans further).stands _ _ stands
    exact { machines with
      current := .inl (same ▸ stands)
      settled := fun _ => same ▸ stands }
  rw [finish] at kept
  simp only [nested_eq, within]
  revert ends kept
  generalize action machine = ending
  generalize action' _ = ending'
  rintro (⟨further, value, after⟩ | ⟨further, fault, after⟩) same
  · exact .ok (grown.trans further) value (back further same after)
  · exact .error (grown.trans further) fault (back further same after)

theorem follows_step (depth : Nat) (settled : Bool) (increment : Option Expr) (start : Placement) :
    Follows Eq False settled start (Placement.Completions Eq) (step depth increment)
      (step depth increment) := by
  cases increment with
  | none => exact follows_pure fun _ _ => .normal
  | some increment =>
      apply follows_bind (evaluate_follows_self depth settled start increment)
      intro _ _ _ _ _
      exact follows_pure fun _ _ => .normal

/-- A pass in a scope of its own ends like one in the scope of the loop. -/
theorem follows_nestedPass {body : Stmt} (declares : body.DeclaresNothing) (depth : Nat)
    (increment : Option Expr) (start : Placement) :
    Follows Eq False true start (Placement.Completions Eq)
      (andThen (execute depth body) (step depth increment)) (nestedPass depth body increment) := by
  cases increment with
  | none =>
      rw [step, andThen_normal]
      exact execute_follows_self depth true start body (by simp)
  | some increment =>
      apply follows_pocket (causes_andThen (causes_declaresNothing depth declares)
        (causes_step depth (some increment)))
      apply follows_andThen (execute_follows_self depth false start body fun _ => declares)
      exact follows_step depth false (some increment)

/-- The loop with nested passes ends like the loop that is described without them. -/
theorem follows_counting {body : Stmt} (declares : body.DeclaresNothing) (depth : Nat)
    (keyword : Token) (initializer : Stmt) (condition increment : Option Expr) (start : Placement) :
    Follows Eq False true start (Placement.Completions Eq)
      (countingLoop depth keyword initializer condition increment body)
      (countingOver depth keyword initializer condition (nestedPass depth body increment)) := by
  have tested : ∀ start, Follows Eq False true start (fun _ => Eq)
      (goesOn depth keyword condition) (goesOn depth keyword condition) := by
    intro start
    cases condition with
    | none => exact follows_pure fun _ _ => rfl
    | some condition =>
        exact follows_condition (fun _ _ _ => (evaluation_follows writtenAlike_eq depth).1 _) rfl
          (.refl (fun _ => rfl) condition) start
  apply follows_nested
  intro start
  apply follows_andThen (execute_follows_self depth true start initializer (by simp))
  exact follows_loop tested (follows_nestedPass declares depth increment) depth

end Passes

end Action

/-! ## What is observed of a counting loop -/

/-- Nothing that a program can observe tells two machines apart that came from
one: what they have written, and the names seen from any scope that there was
before. Functions are alike with the scopes that they were made in. -/
structure Machine.ObservedAlike (before : Machine) (later : Placement) (left right : Machine) :
    Prop where
  kept : (Placement.inPlace before.heap.nextId).Extends later
  output : left.output = right.output
  values : ∀ id < before.heap.nextId, ∀ name, Option.Rel (Value.Alike Eq later.stands)
    (left.heap.read? id name) (right.heap.read? id name)
  machines : Machine.Alike Eq False true later left right

/-- Both ran through, returned alike values, or stopped with the same fault. -/
inductive Indistinguishable (before : Machine) : EStateM.Result Fault Machine Completion →
    EStateM.Result Fault Machine Completion → Prop where
  | ok {later completion completion' after after'} :
      Completion.Alike Eq later.stands completion completion' →
      before.ObservedAlike later after after' →
      Indistinguishable before (.ok completion after) (.ok completion' after')
  | error {later fault after after'} :
      before.ObservedAlike later after after' →
      Indistinguishable before (.error fault after) (.error fault after')

theorem Fault.Alike.eq {fault fault' : Fault} (alike : Fault.Alike Eq fault fault') :
    fault = fault' := by
  cases alike with
  | runtime same => rw [same]
  | internal | outputFull | tooDeep => rfl

theorem Machine.Alike.observed {before left right : Machine} {later : Placement}
    (alike : Machine.Alike Eq False true later left right)
    (kept : (Placement.inPlace before.heap.nextId).Extends later) :
    before.ObservedAlike later left right where
  kept := kept
  output := alike.output
  values := fun id old name => alike.heap.read? (.inl (kept.stands id id ⟨rfl, old⟩)) name
  machines := alike

theorem EndsAlike.indistinguishable {before : Machine}
    {left right : EStateM.Result Fault Machine Completion}
    (ends : EndsAlike Eq False true (Placement.Completions Eq) (.inPlace before.heap.nextId)
      left right) : Indistinguishable before left right := by
  cases ends with
  | ok kept completions machines => exact .ok completions (machines.observed kept)
  | error kept faults machines =>
      obtain rfl := faults.eq
      exact .error (machines.observed kept)

/-- For a counting loop that the parser reads, executing its tree cannot be
told from running its clauses in the one scope of the loop, as long as one of the
two is not too deep. No name that the body declares is in that scope. -/
theorem counting_loop_runs_its_clauses {bound : Nat} {start reached : Cursor} {stmt : Stmt}
    {keyword : Token} {tokens : List Token}
    (read : Parser.Reads (Parser.statementWithin bound) start stmt reached)
    (ahead : start.rest = keyword :: tokens) (word : keyword.kind = .keyword .forWord) :
    ∃ first condition increment body rest,
      Grammar.CountingClauses start.inBody first condition increment body tokens rest ∧
      reached = start.before rest ∧
      (∀ depth (machine : Machine), machine.heap.ChangesOnly (fun _ => False)
        ((execute depth body).finish machine).heap) ∧
      ∀ machine : Machine, machine.Coherent → ∀ depth,
        let described := Action.countingLoop depth keyword first condition increment body machine
        ((∃ after, described = .error .tooDeep after) ∨
          Indistinguishable machine described (execute (depth + 4) stmt machine)) ∧
        ((∃ after, execute depth stmt machine = .error .tooDeep after) ∨
          Indistinguishable machine described (execute depth stmt machine)) := by
  obtain ⟨first, condition, increment, body, rest, clauses, atRest, rfl⟩ :=
    Parser.statementWithin_clauses read ahead word
  have declares : body.DeclaresNothing := by
    cases clauses with
    | intro _ _ _ _ _ _ derivedBody => exact derivedBody.declaresNothing
  refine ⟨first, condition, increment, body, rest, clauses, atRest, ?_, ?_⟩
  · intro depth machine
    have effect := Action.causes_iff.mp (Action.causes_declaresNothing depth declares) machine
    exact effect.changesOnly.mono (by simp)
  · intro machine coherent depth described
    have ends : EndsAlike Eq False true (Placement.Completions Eq)
        (.inPlace machine.heap.nextId) described _ :=
      Action.follows_counting declares depth keyword first condition increment _ _ (.refl _)
        machine machine (coherent.alike_self False true)
    constructor
    · obtain ⟨after, deep⟩ | same :=
        Action.approximates_counting keyword first body condition increment depth machine
      · rw [deep] at ends
        generalize described = ending at ends
        cases ends with
        | error _ faults _ =>
            cases faults with
            | tooDeep => exact .inl ⟨_, rfl⟩
      · rw [same] at ends
        exact .inr ends.indistinguishable
    · obtain deep | same :=
        Action.counting_approximates keyword first body condition increment depth machine
      · exact .inl deep
      · rw [same]
        exact .inr ends.indistinguishable

/-- The loop `for (var i = true; i; i = false) print i;` on a machine that starts
afresh makes one pass, which prints its variable, and is then at its end. -/
theorem printing_loop_runs_its_clauses :
    let keyword : Token := ⟨.keyword .forWord, "for", 1, 1⟩
    let declared : Token := ⟨.name, "i", 1, 10⟩
    let tested : Token := ⟨.name, "i", 1, 20⟩
    let assigned : Token := ⟨.name, "i", 1, 23⟩
    let printed : Token := ⟨.name, "i", 1, 40⟩
    let tokens : List Token :=
      [⟨.symbol .leftParen, "(", 1, 5⟩, ⟨.keyword .varWord, "var", 1, 6⟩, declared,
        ⟨.symbol .equal, "=", 1, 12⟩, ⟨.keyword .trueWord, "true", 1, 14⟩,
        ⟨.symbol .semicolon, ";", 1, 18⟩, tested, ⟨.symbol .semicolon, ";", 1, 21⟩, assigned,
        ⟨.symbol .equal, "=", 1, 25⟩, ⟨.keyword .falseWord, "false", 1, 27⟩,
        ⟨.symbol .rightParen, ")", 1, 32⟩, ⟨.keyword .printWord, "print", 1, 34⟩, printed,
        ⟨.symbol .semicolon, ";", 1, 41⟩]
    let start : Cursor := .ofTokens (keyword :: tokens) 0
    let stmt : Stmt := .counting keyword (.variable declared (some (.literal (.bool true))))
      (.variable tested) (some (.assign assigned (.literal (.bool false))))
      (.print (.variable printed))
    let machine := Machine.start (fun _ => 0) none
    Parser.Reads (Parser.statementWithin 2) start stmt (start.before []) ∧ machine.Coherent ∧
      (∃ after, execute 12 stmt machine = .ok .normal after ∧
        after.output.written = "true\n".toUTF8) ∧
      ∃ first condition increment body rest,
        Grammar.CountingClauses start.inBody first condition increment body tokens rest ∧
        ∀ depth,
          let described := Action.countingLoop depth keyword first condition increment body machine
          (∃ after, described = .error .tooDeep after) ∨
            Indistinguishable machine described (execute (depth + 4) stmt machine) := by
  intro keyword declared tested assigned printed tokens start stmt machine
  have read : Parser.Reads (Parser.statementWithin 2) start stmt (start.before []) :=
    ⟨by cbv, by cbv⟩
  have coherent : machine.Coherent := Machine.start_coherent _ none
  obtain ⟨first, condition, increment, body, rest, clauses, _, _, described⟩ :=
    counting_loop_runs_its_clauses read rfl rfl
  exact ⟨read, coherent, ⟨_, rfl, rfl⟩, first, condition, increment, body, rest, clauses,
    fun depth => (described machine coherent depth).1⟩

end Lox
