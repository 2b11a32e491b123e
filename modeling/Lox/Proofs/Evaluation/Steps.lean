import Lox.Proofs.Evaluation.Coherence
import Lox.Proofs.Evaluation.Moments
import Lox.Proofs.Evaluation.Names

/-!
# Single steps of a run

What can happen to the scopes from one moment of a run to the next. A run
that starts with a coherent machine gets from each moment to the next by one
step, and its last moment is the machine that it ends with.
-/

set_option autoImplicit false

namespace Lox

namespace Machine

/-- What happens from one moment to the next: the scopes stay as they are, a
name that is found gets a new value, a declaration gives the current scope a
name, or a new scope is entered. -/
inductive Step (before after : Machine) : Prop where
  | still : after.heap = before.heap → Step before after
  | assign {name value} :
      before.heap.assign? before.current name value = some after.heap → Step before after
  | declare {name : Token} {value : Value} :
      Action.define name value before = .ok () after → Step before after
  | enter {enclosing bindings} :
      enclosing < before.heap.nextId → after = Action.enter enclosing bindings before →
      Step before after

/-- From the first machine through the given ones to the last, by single steps. -/
inductive Passes : Machine → List Machine → Machine → Prop where
  | nil (machine : Machine) : Passes machine [] machine
  | cons {first second last moments} :
      Step first second → Passes second moments last → Passes first (second :: moments) last

namespace Passes

variable {first middle last : Machine} {moments later : List Machine}

theorem single (step : Step first last) : Passes first [last] last := .cons step (.nil last)

theorem append (passes : Passes first moments middle) (further : Passes middle later last) :
    Passes first (moments ++ later) last := by
  induction passes with
  | nil => exact further
  | cons step _ ih => exact .cons step (ih further)

theorem isChain (passes : Passes first moments last) : (first :: moments).IsChain Step := by
  induction passes with
  | nil machine => exact .singleton machine
  | cons step _ ih => exact .cons_cons step ih

theorem getLast? (passes : Passes first moments last) :
    (first :: moments).getLast? = some last := by
  induction passes with
  | nil => rfl
  | cons _ _ ih =>
      rw [List.getLast?_cons_cons]
      exact ih

end Passes

end Machine

/-! ## Values that are known -/

/-- The scope of a function is one of the first so many. -/
def Value.Known (count : Nat) (value : Value) : Prop :=
  ∀ closure, value = .function closure → closure.scope < count

theorem Value.Known.mono {count count' : Nat} {value : Value} (known : value.Known count)
    (more : count ≤ count') : value.Known count' :=
  fun closure isFunction => Nat.lt_of_lt_of_le (known closure isFunction) more

/-! ## What evaluation leaves -/

theorem Action.bind_eq_ok {α β : Type} {first : Action α} {next : α → Action β} {value : β}
    {machine after : Machine} (ended : (first >>= next) machine = .ok value after) :
    ∃ given middle, first machine = .ok given middle ∧ next given middle = .ok value after := by
  simp only [bind, EStateM.bind] at ended
  cases result : first machine with
  | ok given middle =>
      rw [result] at ended
      exact ⟨given, middle, rfl, ended⟩
  | error fault middle =>
      rw [result] at ended
      cases ended

theorem Action.ofExcept_eq_ok {α : Type} {outcome : Except Fault α} {value : α}
    {machine after : Machine} (ended : ofExcept outcome machine = .ok value after) :
    after = machine := by
  cases outcome with
  | ok given =>
      cases ended
      rfl
  | error fault => cases ended

section Evaluation

variable {depth : Nat} {machine after : Machine} (coherent : machine.Coherent)

include coherent

/-- An expression leaves a coherent machine with no fewer scopes, and gives a value known there. -/
theorem evaluate_leaves {expr : Expr} {value : Value}
    (ended : evaluate depth expr machine = .ok value after) :
    after.Coherent ∧ machine.heap.nextId ≤ after.heap.nextId ∧ value.Known after.heap.nextId := by
  have kept := (evaluation_coherent depth coherent).1 expr
  have more := (effect_evaluate depth expr machine).nextId_le
  rw [Action.finish, ended] at kept more
  refine ⟨kept, more, ?_⟩
  have ends := evaluate_follows_self depth true _ expr _ (.refl _) machine machine
    (coherent.alike_self True true)
  rw [ended] at ends
  cases ends with
  | ok _ values machines =>
      rintro closure rfl
      cases values with
      | function closures => exact (machines.heap.lt_nextId (.inl closures.scope)).1

theorem execute_leaves {stmt : Stmt} {completion : Completion}
    (ended : execute depth stmt machine = .ok completion after) : after.Coherent := by
  have kept := (evaluation_coherent depth coherent).2 stmt
  rw [Action.finish, ended] at kept
  exact kept

omit coherent in
theorem evaluateAll_leaves {exprs : List Expr} :
    ∀ {machine after : Machine} {values : List Value}, machine.Coherent →
      exprs.mapM (evaluate depth) machine = .ok values after →
      after.Coherent ∧ machine.heap.nextId ≤ after.heap.nextId ∧
        ∀ value ∈ values, value.Known after.heap.nextId := by
  induction exprs with
  | nil =>
      intro machine after values coherent ended
      cases ended
      exact ⟨coherent, Nat.le_refl _, by simp⟩
  | cons first rest ih =>
      intro machine after values coherent ended
      rw [List.mapM_cons] at ended
      obtain ⟨value, middle, endedFirst, ended⟩ := Action.bind_eq_ok ended
      obtain ⟨others, last, endedRest, ended⟩ := Action.bind_eq_ok ended
      cases ended
      obtain ⟨coherent, more, known⟩ := evaluate_leaves coherent endedFirst
      obtain ⟨coherent, moreRest, knownRest⟩ := ih coherent endedRest
      exact ⟨coherent, Nat.le_trans more moreRest,
        List.forall_mem_cons.mpr ⟨known.mono moreRest, knownRest⟩⟩

end Evaluation

/-! ## Passages by single steps -/

namespace Passage

variable {α β : Type} {machine : Machine}

/-- From the machine the passage goes by single steps to where its action ends. -/
def Stepwise (passage : Passage α) (machine : Machine) : Prop :=
  machine.Passes (passage.moments machine) (passage.action.finish machine)

theorem stepwise_still {action : Action α} (unchanged : action.finish machine = machine) :
    (still action).Stepwise machine := by
  rw [Stepwise, still, unchanged]
  exact .nil machine

theorem stepwise_single {action : Action α} (step : machine.Step (action.finish machine)) :
    (single action).Stepwise machine :=
  .single step

theorem stepwise_pure (value : α) : (pure value : Passage α).Stepwise machine := .nil machine

theorem stepwise_throw (fault : Fault) : (still (throw fault) : Passage α).Stepwise machine :=
  .nil machine

theorem stepwise_ofExcept (outcome : Except Fault α) :
    (still (.ofExcept outcome)).Stepwise machine := by
  apply stepwise_still
  cases outcome <;> rfl

/-- One passage and then another, from where the first one ends if it ends with a value. -/
theorem stepwise_bind {first : Passage α} {next : α → Passage β} (steps : first.Stepwise machine)
    (stepsNext : ∀ value after, first.action machine = .ok value after →
      (next value).Stepwise after) :
    (first >>= next).Stepwise machine := by
  change machine.Passes (_ ++ _) _
  rw [action_bind]
  rw [Stepwise, Action.finish] at steps
  simp only [Action.finish, bind, EStateM.bind]
  cases result : first.action machine with
  | ok value after =>
      rw [result] at steps
      exact steps.append (stepsNext value after result)
  | error fault after =>
      rw [result] at steps
      exact steps.append (.nil after)

theorem stepwise_within {inner : Passage α} {enclosing : ScopeId}
    (old : enclosing < machine.heap.nextId) (bindings : Bindings)
    (steps : inner.Stepwise (Action.enter enclosing bindings machine)) :
    (within enclosing bindings inner).Stepwise machine := by
  have left : ((Action.within enclosing bindings inner.action).finish machine).heap =
      (inner.action.finish (Action.enter enclosing bindings machine)).heap := by
    rw [Action.finish_within]
  exact .cons (.enter old rfl) (steps.append (.single (.still left)))

/-! ## Parts of an evaluation -/

section Evaluation

variable {depth : Nat}
  (expressions : ∀ (expr : Expr) (machine : Machine), machine.Coherent →
    (expr.passage depth).Stepwise machine)
  (statements : ∀ (stmt : Stmt) (machine : Machine), machine.Coherent →
    (stmt.passage depth).Stepwise machine)

theorem leaves_passage (coherent : machine.Coherent) {expr : Expr} {value : Value} {after : Machine}
    (ended : (expr.passage depth).action machine = .ok value after) :
    after.Coherent ∧ machine.heap.nextId ≤ after.heap.nextId ∧ value.Known after.heap.nextId := by
  rw [(action_passage depth).1] at ended
  exact evaluate_leaves coherent ended

theorem stepwise_operator {expr : Expr} (steps : (expr.passage depth).Stepwise machine)
    (outcome : Value → Except Fault α) :
    (do
      let value ← expr.passage depth
      still (.ofExcept (outcome value)) : Passage α).Stepwise machine :=
  stepwise_bind steps fun _ _ _ => stepwise_ofExcept _

include expressions in
theorem stepwise_values (exprs : List Expr) : ∀ machine : Machine, machine.Coherent →
    (values (Expr.passage depth) exprs).Stepwise machine := by
  induction exprs with
  | nil => exact fun machine _ => stepwise_pure _
  | cons first rest ih =>
      intro machine coherent
      apply stepwise_bind (expressions first machine coherent)
      intro value middle ended
      have kept := (leaves_passage coherent ended).1
      apply stepwise_bind (ih middle kept)
      intro others after _
      exact stepwise_pure _

include statements in
theorem stepwise_sequence (body : List Stmt) : ∀ machine : Machine, machine.Coherent →
    (sequence (Stmt.passage depth) body).Stepwise machine := by
  induction body with
  | nil => exact fun machine _ => stepwise_pure _
  | cons first rest ih =>
      intro machine coherent
      apply stepwise_bind (statements first machine coherent)
      intro completion after ended
      rw [(action_passage depth).2] at ended
      cases completion with
      | normal => exact ih after (execute_leaves coherent ended)
      | returned value => exact stepwise_pure _

include statements in
theorem stepwise_call (paren : Token) {arguments : List Value} {callee : Value}
    (coherent : machine.Coherent) (known : callee.Known machine.heap.nextId)
    (knownArguments : ∀ argument ∈ arguments, argument.Known machine.heap.nextId) :
    (call (Stmt.passage depth) paren arguments callee).Stepwise machine := by
  cases callee with
  | nil | bool | number | string => exact stepwise_throw _
  | builtin function =>
      simp only [call]
      split
      · exact stepwise_single (.still rfl)
      · exact stepwise_throw _
  | function closure =>
      simp only [call]
      split
      · apply stepwise_bind (stepwise_single (.still rfl))
        rintro _ noted ⟨⟩
        have noted : (machine.addNote (.calling closure.name.lexeme arguments.length)).Coherent :=
          ⟨coherent.ordered, coherent.current, coherent.closures⟩
        have given := Bindings.forall_ofArguments closure.parameters knownArguments
        have entered := noted.enter (known closure rfl) given
        have body := stepwise_sequence statements closure.body _ entered
        refine stepwise_bind (stepwise_within ?_ _ body) fun completion after _ => stepwise_pure _
        exact known closure rfl
      · exact stepwise_throw _

include expressions statements in
theorem stepwise_loop (keyword : Token) (condition : Expr) (body : Stmt) :
    ∀ (bound : Nat) (machine : Machine), machine.Coherent →
      (loop
        (do
          let value ← condition.passage depth
          still (.ofExcept (Operator.condition keyword value)))
        (body.passage depth) bound).Stepwise machine := by
  intro bound
  induction bound with
  | zero => exact fun machine _ => stepwise_throw _
  | succ bound ih =>
      intro machine coherent
      apply stepwise_bind (stepwise_operator (expressions condition machine coherent) _)
      intro continues middle tested
      obtain ⟨value, evaluated, ended, tested⟩ := Action.bind_eq_ok tested
      obtain rfl := Action.ofExcept_eq_ok tested
      have kept := (leaves_passage coherent ended).1
      cases continues with
      | false => exact stepwise_pure _
      | true =>
          apply stepwise_bind (statements body middle kept)
          intro completion after ended
          rw [(action_passage depth).2] at ended
          cases completion with
          | normal => exact ih after (execute_leaves kept ended)
          | returned value => exact stepwise_pure _

include expressions statements in
theorem stepwise_expression (expr : Expr) (coherent : machine.Coherent) :
    (expr.passage (depth + 1)).Stepwise machine := by
  cases expr with
  | literal value => exact stepwise_pure _
  | «variable» name =>
      apply stepwise_still
      rw [Action.finish, Action.read_eq]
      cases machine.heap.read? machine.current name.lexeme with
      | none => rfl
      | some value => rfl
  | grouping inner => exact expressions inner machine coherent
  | assign name value =>
      apply stepwise_bind (expressions value machine coherent)
      intro value after _
      cases name with
      | none => exact stepwise_pure _
      | some name =>
          refine stepwise_bind (stepwise_single ?_) fun _ _ _ => stepwise_pure _
          simp only [Action.finish, Action.assign]
          cases assigned : after.heap.assign? after.current name.lexeme value with
          | none => exact .still rfl
          | some heap => exact .assign assigned
  | unary operator operand =>
      apply stepwise_bind (expressions operand machine coherent)
      intro value after _
      cases operator with
      | none => exact stepwise_pure _
      | some operator => exact stepwise_ofExcept _
  | binary left operator right =>
      apply stepwise_bind (expressions left machine coherent)
      intro leftValue middle ended
      have kept := (leaves_passage coherent ended).1
      exact stepwise_operator (expressions right middle kept) _
  | logical left operator right =>
      apply stepwise_bind (expressions left machine coherent)
      intro leftValue middle ended
      have kept := (leaves_passage coherent ended).1
      apply stepwise_bind (stepwise_ofExcept _)
      intro truth after tested
      obtain rfl := Action.ofExcept_eq_ok tested
      split
      · exact stepwise_throw _
      · split
        · exact stepwise_pure _
        · apply stepwise_bind (expressions right after kept)
          intro rightValue last _
          exact stepwise_bind (stepwise_ofExcept _) fun _ _ _ => stepwise_pure _
  | call callee paren arguments =>
      apply stepwise_bind (expressions callee machine coherent)
      intro calleeValue middle ended
      obtain ⟨kept, _, known⟩ := leaves_passage coherent ended
      apply stepwise_bind (stepwise_values expressions arguments middle kept)
      intro argumentValues after ended
      rw [action_values (action_passage depth).1] at ended
      obtain ⟨kept, more, knownArguments⟩ := evaluateAll_leaves kept ended
      exact stepwise_call statements paren kept (known.mono more) knownArguments

include expressions statements in
theorem stepwise_statement (stmt : Stmt) (coherent : machine.Coherent) :
    (stmt.passage (depth + 1)).Stepwise machine := by
  cases stmt with
  | expression value =>
      exact stepwise_bind (expressions value machine coherent) fun _ _ _ => stepwise_pure _
  | print value =>
      apply stepwise_bind (expressions value machine coherent)
      intro value after _
      refine stepwise_bind (stepwise_single (.still ?_)) fun _ _ _ => stepwise_pure _
      simp only [Action.finish, Action.writeLine]
      rcases after.output.write (value.text ++ "\n").toUTF8 with ⟨output, _ | _⟩
      · rfl
      · rfl
  | «variable» name initializer =>
      have defined : ∀ (value : Value) (machine : Machine),
          (do single (.define name value); return .normal : Passage Completion).Stepwise machine :=
        fun value machine =>
          stepwise_bind (stepwise_single (.declare rfl)) fun _ _ _ => stepwise_pure _
      cases initializer with
      | none => exact defined .nil machine
      | some initializer =>
          exact stepwise_bind (expressions initializer machine coherent)
            fun value after _ => defined value after
  | block inner =>
      apply stepwise_bind (stepwise_still rfl)
      rintro _ _ ⟨⟩
      have nothing : ∀ binding ∈ ([] : Bindings), binding.2.Known machine.heap.nextId := by simp
      have entered := coherent.enter coherent.current nothing
      exact stepwise_within coherent.current [] (stepwise_sequence statements inner _ entered)
  | branch keyword condition thenBranch elseBranch =>
      apply stepwise_bind (expressions condition machine coherent)
      intro value middle ended
      have kept := (leaves_passage coherent ended).1
      apply stepwise_bind (stepwise_ofExcept _)
      intro holds after tested
      obtain rfl := Action.ofExcept_eq_ok tested
      cases holds with
      | true => exact statements thenBranch after kept
      | false =>
          cases elseBranch with
          | none => exact stepwise_pure _
          | some elseBranch => exact statements elseBranch after kept
  | loop keyword condition body =>
      exact stepwise_loop expressions statements keyword condition body depth machine coherent
  | function name parameters body =>
      apply stepwise_bind (stepwise_single (.still rfl))
      intro value after _
      exact stepwise_bind (stepwise_single (.declare rfl)) fun _ _ _ => stepwise_pure _
  | returning keyword value =>
      cases value with
      | none => exact stepwise_pure _
      | some value =>
          exact stepwise_bind (expressions value machine coherent) fun _ _ _ => stepwise_pure _

end Evaluation

/-- On a coherent machine every evaluation goes by single steps. -/
theorem stepwise_passage (depth : Nat) :
    (∀ (expr : Expr) (machine : Machine), machine.Coherent →
      (expr.passage depth).Stepwise machine) ∧
    ∀ (stmt : Stmt) (machine : Machine), machine.Coherent →
      (stmt.passage depth).Stepwise machine := by
  induction depth with
  | zero => exact ⟨fun _ _ _ => stepwise_throw _, fun _ _ _ => stepwise_throw _⟩
  | succ depth ih =>
      exact ⟨fun expr _ => stepwise_expression ih.1 ih.2 expr,
        fun stmt _ => stepwise_statement ih.1 ih.2 stmt⟩

end Passage

/-! ## Programs and runs -/

/-- From a coherent machine a program goes by single steps to where it ends. -/
theorem programMoments_passes (depth : Nat) (statements : List Stmt) :
    ∀ machine : Machine, machine.Coherent →
      machine.Passes (programMoments depth statements machine)
        (executeProgram depth statements machine).2 := by
  induction statements with
  | nil => exact fun machine _ => .nil machine
  | cons first rest ih =>
      intro machine coherent
      have steps := (Passage.stepwise_passage depth).2 first machine coherent
      rw [Passage.Stepwise, (Passage.action_passage depth).2, Action.finish] at steps
      simp only [programMoments, executeProgram]
      cases result : execute depth first machine with
      | ok completion after =>
          rw [result] at steps
          cases completion with
          | normal => exact steps.append (ih after (execute_leaves coherent result))
          | returned value => exact steps.append (.nil after)
      | error fault after =>
          rw [result] at steps
          exact steps.append (.single (.still rfl))

theorem runMoments_passes (depth : Nat) (source : String) {machine : Machine}
    (coherent : machine.Coherent) :
    machine.Passes (runMoments depth source machine) (run depth source machine).machine := by
  have fresh : { machine with notes := #[] }.Coherent :=
    ⟨coherent.ordered, coherent.current, coherent.closures⟩
  simp only [runMoments]
  cases parsed : parse source with
  | error errors =>
      rw [(run_of_rejected depth machine parsed).2]
      exact .single (.still rfl)
  | ok statements =>
      rw [(run_of_parse depth machine parsed).2]
      exact .cons (.still rfl) (programMoments_passes depth statements _ fresh)

theorem run_coherent (depth : Nat) (source : String) {machine : Machine}
    (coherent : machine.Coherent) : (run depth source machine).machine.Coherent := by
  have fresh : { machine with notes := #[] }.Coherent :=
    ⟨coherent.ordered, coherent.current, coherent.closures⟩
  cases parsed : parse source with
  | error errors =>
      rw [(run_of_rejected depth machine parsed).2]
      exact fresh
  | ok statements =>
      rw [(run_of_parse depth machine parsed).2]
      exact executeProgram_coherent depth statements fresh

/-- Runs in turn go by single steps from moment to moment, to where the last run ends. -/
theorem Machine.moments_passes (sources : List (Nat × String)) :
    ∀ machine : Machine, machine.Coherent →
      machine.Passes (machine.moments sources) (machine.running sources) := by
  induction sources with
  | nil => exact fun machine _ => .nil machine
  | cons first rest ih =>
      intro machine coherent
      obtain ⟨depth, source⟩ := first
      have run := runMoments_passes depth source coherent
      exact run.append (ih _ (run_coherent depth source coherent))

end Lox
