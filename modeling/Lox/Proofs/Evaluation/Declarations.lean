import Lox.Proofs.Evaluation.Forest
import Lox.Proofs.Evaluation.Moments

/-!
# Where functions come from

A history is a list of machines, one moment behind another. A moment of it is
accounted for if its scopes form a forest, nothing that earlier moments had has
gone, and every function in a scope comes from a declaration that was executed
before. Whatever is evaluated from there goes through moments that are accounted
for, and a function that it gives comes from such a declaration too.
-/

set_option autoImplicit false

namespace Lox

/-- The function is what a declaration makes that is executed at a moment of a history. -/
def Closure.DeclaredAt (closure : Closure) (history : List Machine) (moment : Nat) : Prop :=
  let declaration := Stmt.function closure.name closure.parameters closure.body
  ∃ depth before made after, history[moment]? = some before ∧
    Action.makeFunction closure.name closure.parameters closure.body before =
      .ok (.function closure) made ∧
    execute depth declaration before = .ok .normal after ∧
    (declaration.passage depth).moments before <+: history.drop (moment + 1)

/-- The value is no function, or one whose declaration has been executed by the moment. -/
def Value.Declared (history : List Machine) (moment : Nat) (value : Value) : Prop :=
  ∀ closure, value = .function closure →
    ∃ earlier, earlier + 2 ≤ moment ∧ closure.DeclaredAt history earlier

namespace Machine

/-- A later machine has all scopes of an earlier one with what is around them,
the scope that was current then among them, and has made no fewer functions. -/
structure Precedes (before after : Machine) : Prop where
  kept : before.heap.Keeps (fun _ => True) after.heap
  current : before.current < after.heap.nextId
  counted : before.functionsMade ≤ after.functionsMade

/-- What a moment of a history has in common with the moments before it. -/
structure Accounted (history : List Machine) (moment : Nat) (machine : Machine) : Prop where
  isMoment : history[moment]? = some machine
  forest : machine.heap.Forest
  functions : machine.heap.AllValues (Value.Declared history moment)
  precedes : ∀ earlier ≤ moment, ∀ before, history[earlier]? = some before →
    before.Precedes machine

/-- From a moment through some that follow, the last of which is the given
machine, all moments are accounted for. -/
structure Through (history : List Machine) (moment : Nat) (moments : List Machine)
    (last : Machine) : Prop where
  between : ∀ later, moment ≤ later → later ≤ moment + moments.length →
    ∃ machine, Accounted history later machine
  last : last.Accounted history (moment + moments.length)

end Machine

variable {history : List Machine} {moment : Nat} {machine : Machine}

/-! ## Places in a history -/

theorem prefix_drop_append {first second : List Machine}
    (within : first ++ second <+: history.drop (moment + 1)) :
    first <+: history.drop (moment + 1) ∧
      second <+: history.drop (moment + first.length + 1) := by
  refine ⟨(List.prefix_append first second).trans within, ?_⟩
  obtain ⟨rest, whole⟩ := within
  have dropped := congrArg (List.drop first.length) whole
  rw [List.append_assoc, List.drop_left, List.drop_drop] at dropped
  exact ⟨rest, by rw [dropped, Nat.add_right_comm]⟩

theorem prefix_drop_cons {next : Machine} {moments : List Machine}
    (within : next :: moments <+: history.drop (moment + 1)) :
    history[moment + 1]? = some next ∧ moments <+: history.drop (moment + 1 + 1) := by
  have parts : [next] ++ moments <+: history.drop (moment + 1) := within
  refine ⟨?_, (prefix_drop_append parts).2⟩
  obtain ⟨rest, whole⟩ := within
  have first := congrArg List.head? whole
  rw [List.head?_drop, List.cons_append, List.head?_cons] at first
  exact first.symm

/-! ## Declared functions -/

/-- The three moments of a declaration: before it, with the function made, and
with its name given. -/
theorem Closure.DeclaredAt.moments {closure : Closure}
    (declared : closure.DeclaredAt history moment) :
    ∃ before made after, history[moment]? = some before ∧ history[moment + 1]? = some made ∧
      history[moment + 2]? = some after ∧ closure.identity = before.functionsMade ∧
      closure.scope = before.current ∧ made.functionsMade = before.functionsMade + 1 ∧
      after.heap =
        before.heap.define before.current closure.name.lexeme (.function closure) := by
  obtain ⟨depth, before, made, after, isBefore, makes, ended, within⟩ := declared
  cases depth with
  | zero => cases ended
  | succ depth =>
      obtain ⟨isMade, within⟩ := prefix_drop_cons within
      obtain ⟨isAfter, _⟩ := prefix_drop_cons within
      simp only [Action.makeFunction, EStateM.Result.ok.injEq, Value.function.injEq] at makes
      obtain ⟨isClosure, _⟩ := makes
      refine ⟨before, _, _, isBefore, isMade, isAfter, ?_, ?_, rfl, ?_⟩
      · rw [← isClosure]
      · rw [← isClosure]
      · rw [← isClosure]
        rfl

theorem Value.Declared.mono {later : Nat} {value : Value}
    (declared : value.Declared history moment) (order : moment ≤ later) :
    value.Declared history later := by
  intro closure isFunction
  obtain ⟨earlier, before, declaredAt⟩ := declared closure isFunction
  exact ⟨earlier, Nat.le_trans before order, declaredAt⟩

/-- The value is no declared function. -/
def Value.Plain (value : Value) : Prop := ∀ closure, value ≠ .function closure

theorem Value.Plain.declared {value : Value} (plain : value.Plain) :
    value.Declared history moment :=
  fun closure isFunction => absurd isFunction (plain closure)

theorem Value.plain_of_type {value : Value} (other : value.type ≠ .function) : value.Plain := by
  intro closure isFunction
  rw [isFunction] at other
  exact other rfl

theorem Value.ofLiteral_plain (literal : Literal) : (Value.ofLiteral literal).Plain := by
  cases literal <;> exact plain_of_type (by simp [ofLiteral, type])

namespace Operator

variable {operator : Token} {left right value : Value}

theorem numeric_plain {apply : Float → Float → Value}
    (gives : ∀ left right, (apply left right).Plain)
    (ended : numeric operator left right apply = .ok value) : value.Plain := by
  unfold numeric at ended
  split at ended
  · cases ended
    exact gives _ _
  · cases ended

theorem add_plain (ended : add operator left right = .ok value) : value.Plain := by
  unfold add at ended
  split at ended <;> cases ended <;> exact Value.plain_of_type (by simp [Value.type])

theorem binary_plain (ended : binary operator left right = .ok value) : value.Plain := by
  have number (number : Float) : (Value.number number).Plain :=
    Value.plain_of_type (by simp [Value.type])
  have truth (truth : Bool) : (Value.bool truth).Plain :=
    Value.plain_of_type (by simp [Value.type])
  unfold binary at ended
  split at ended
  · exact numeric_plain (fun _ _ => number _) ended
  · exact add_plain ended
  · exact numeric_plain (fun _ _ => number _) ended
  · exact numeric_plain (fun _ _ => number _) ended
  · exact numeric_plain (fun _ _ => truth _) ended
  · exact numeric_plain (fun _ _ => truth _) ended
  · exact numeric_plain (fun _ _ => truth _) ended
  · exact numeric_plain (fun _ _ => truth _) ended
  · cases ended
    exact truth _
  · cases ended
    exact truth _
  · cases ended

theorem unary_plain (ended : unary operator left = .ok value) : value.Plain := by
  unfold unary at ended
  split at ended
  · unfold negate at ended
    split at ended <;> cases ended
    exact Value.plain_of_type (by simp [Value.type])
  · unfold truth at ended
    split at ended <;> cases ended
    exact Value.plain_of_type (by simp [Value.type])
  · cases ended

end Operator

/-! ## From one moment to the next -/

namespace Machine

variable {after : Machine}

theorem Precedes.refl (current : machine.current < machine.heap.nextId) :
    machine.Precedes machine :=
  ⟨.refl _, current, Nat.le_refl _⟩

theorem Precedes.trans {first second third : Machine} (before : first.Precedes second)
    (further : second.Precedes third) : first.Precedes third where
  kept := before.kept.trans further.kept
  current := Nat.lt_of_lt_of_le before.current further.kept.nextId_le
  counted := Nat.le_trans before.counted further.counted

namespace Accounted

variable (accounted : machine.Accounted history moment) (isNext : history[moment + 1]? = some after)

include accounted

theorem current : machine.current < machine.heap.nextId :=
  (accounted.precedes moment (Nat.le_refl _) machine accounted.isMoment).current

/-- The scope of a function that has been declared exists. -/
theorem scope_lt {closure : Closure} (declared : (Value.function closure).Declared history moment) :
    closure.scope < machine.heap.nextId := by
  obtain ⟨earlier, before, declaredAt⟩ := declared closure rfl
  obtain ⟨first, _, _, isFirst, _, _, _, isCurrent, _⟩ := declaredAt.moments
  rw [isCurrent]
  exact (accounted.precedes earlier (by omega) first isFirst).current

include isNext

theorem next (forest : after.heap.Forest)
    (functions : after.heap.AllValues (Value.Declared history (moment + 1)))
    (precedes : machine.Precedes after) (current : after.current < after.heap.nextId) :
    after.Accounted history (moment + 1) where
  isMoment := isNext
  forest := forest
  functions := functions
  precedes := by
    intro earlier order before isBefore
    obtain sooner | rfl := Nat.lt_or_eq_of_le order
    · have toHere := accounted.precedes earlier (Nat.le_of_lt_succ sooner) before isBefore
      exact toHere.trans precedes
    · obtain rfl := Option.some.inj (isNext.symm.trans isBefore)
      exact .refl current

/-- The scopes stay as they are, and one that there was at some moment is current. -/
theorem unchanged (heap : after.heap = machine.heap)
    (counted : machine.functionsMade ≤ after.functionsMade)
    (current : after.current < machine.heap.nextId) : after.Accounted history (moment + 1) := by
  refine accounted.next isNext (heap ▸ accounted.forest) ?_ ⟨heap ▸ .refl _, ?_, counted⟩ ?_
  · rw [heap]
    exact accounted.functions.mono fun _ declared => declared.mono (Nat.le_succ moment)
  · rw [heap]
    exact accounted.current
  · rw [heap]
    exact current

/-- Some scope gives a name a value. -/
theorem defined {id : ScopeId} {name : String} {value : Value}
    (heap : after.heap = machine.heap.define id name value) (same : after.current = machine.current)
    (counted : machine.functionsMade = after.functionsMade)
    (declared : value.Declared history (moment + 1)) : after.Accounted history (moment + 1) := by
  have earlier := accounted.functions.mono fun _ declared => declared.mono (Nat.le_succ moment)
  have size : after.heap.nextId = machine.heap.nextId := heap ▸ Heap.nextId_define ..
  refine accounted.next isNext (heap ▸ accounted.forest.define id name value)
    (heap ▸ earlier.define id name declared) ⟨?_, ?_, Nat.le_of_eq counted⟩ ?_
  · exact heap ▸ .define _ _ _ _ fun _ _ => .inr trivial
  · exact size ▸ accounted.current
  · exact same ▸ size ▸ accounted.current

/-- A new scope is entered. -/
theorem entered {enclosing : ScopeId} {bindings : Bindings}
    (isEntered : after = Action.enter enclosing bindings machine)
    (old : enclosing < machine.heap.nextId)
    (declared : ∀ binding ∈ bindings, binding.2.Declared history moment) :
    after.Accounted history (moment + 1) := by
  have earlier := accounted.functions.create enclosing declared
  have size := Heap.nextId_create machine.heap enclosing bindings
  subst isEntered
  refine accounted.next isNext (accounted.forest.create old bindings)
    (earlier.mono fun _ declared => declared.mono (Nat.le_succ moment))
    ⟨.create _ _ _ _, ?_, Nat.le_refl _⟩ ?_
  · exact Nat.lt_trans accounted.current (size ▸ Nat.lt_succ_self _)
  · exact size ▸ Nat.lt_succ_self _

end Accounted

namespace Through

variable {middle last : Machine} {moments more : List Machine}

theorem nil (accounted : machine.Accounted history moment) : Through history moment [] machine where
  between := by
    intro later order bound
    obtain rfl := Nat.le_antisymm order bound
    exact ⟨machine, accounted⟩
  last := accounted

theorem append (first : Through history moment moments middle)
    (further : Through history (moment + moments.length) more last) :
    Through history moment (moments ++ more) last where
  between := by
    intro later order bound
    rw [List.length_append, ← Nat.add_assoc] at bound
    obtain sooner | there := Nat.le_total later (moment + moments.length)
    · exact first.between later order sooner
    · exact further.between later there bound
  last := by
    rw [List.length_append, ← Nat.add_assoc]
    exact further.last

theorem single (accounted : machine.Accounted history moment)
    (next : after.Accounted history (moment + 1)) : Through history moment [after] after where
  between := by
    intro later order bound
    obtain sooner | rfl := Nat.lt_or_eq_of_le bound
    · obtain rfl := Nat.le_antisymm order (Nat.le_of_lt_succ sooner)
      exact ⟨machine, accounted⟩
    · exact ⟨after, next⟩
  last := next

end Through

end Machine

/-! ## Passages -/

namespace Passage

variable {α β : Type} {valid : Nat → α → Prop}

/-- If the moments of the passage follow in the history, they are accounted for,
and what the passage gives is valid at the last of them. -/
def Accounts (history : List Machine) (valid : Nat → α → Prop) (passage : Passage α) (moment : Nat)
    (machine : Machine) : Prop :=
  machine.Accounted history moment → passage.moments machine <+: history.drop (moment + 1) →
    Machine.Through history moment (passage.moments machine) (passage.action.finish machine) ∧
      ∀ value after, passage.action machine = .ok value after →
        valid (moment + (passage.moments machine).length) value

theorem accounts_still {action : Action α} (unchanged : action.finish machine = machine)
    (gives : machine.Accounted history moment →
      ∀ value after, action machine = .ok value after → valid moment value) :
    (still action).Accounts history valid moment machine := by
  intro accounted _
  refine ⟨?_, gives accounted⟩
  rw [still, unchanged]
  exact .nil accounted

theorem accounts_pure {value : α} (gives : valid moment value) :
    (pure value : Passage α).Accounts history valid moment machine :=
  accounts_still rfl fun _ _ _ ended => by
    cases ended
    exact gives

theorem accounts_throw (fault : Fault) :
    (still (throw fault) : Passage α).Accounts history valid moment machine :=
  accounts_still rfl fun _ _ _ ended => by cases ended

theorem accounts_ofExcept {outcome : Except Fault α}
    (gives : ∀ value, outcome = .ok value → valid moment value) :
    (still (.ofExcept outcome)).Accounts history valid moment machine := by
  cases outcome with
  | ok value => exact accounts_pure (gives value rfl)
  | error fault => exact accounts_throw fault

theorem accounts_tested (outcome : Except Fault α) :
    (still (.ofExcept outcome)).Accounts history (fun _ _ => True) moment machine :=
  accounts_ofExcept fun _ _ => trivial

theorem accounts_single {action : Action α}
    (next : machine.Accounted history moment →
      history[moment + 1]? = some (action.finish machine) →
      (action.finish machine).Accounted history (moment + 1))
    (gives : ∀ value after, action machine = .ok value after → valid (moment + 1) value) :
    (single action).Accounts history valid moment machine := by
  intro accounted within
  exact ⟨.single accounted (next accounted (prefix_drop_cons within).1), gives⟩

/-- One passage and then another, from where the first one ends if it ends with a value. -/
theorem accounts_bind {first : Passage α} {next : α → Passage β} {validNext : Nat → β → Prop}
    (accounts : first.Accounts history valid moment machine)
    (accountsNext : ∀ value later after, moment ≤ later → first.action machine = .ok value after →
      valid later value → (next value).Accounts history validNext later after) :
    (first >>= next).Accounts history validNext moment machine := by
  intro accounted within
  change first.moments machine ++ _ <+: _ at within
  change Machine.Through history moment (first.moments machine ++ _) _ ∧
    ∀ value after, _ → validNext (moment + (first.moments machine ++ _).length) value
  obtain ⟨withinFirst, withinNext⟩ := prefix_drop_append within
  obtain ⟨through, gives⟩ := accounts accounted withinFirst
  rw [List.length_append, ← Nat.add_assoc, action_bind]
  rw [Action.finish] at through
  simp only [Action.finish, bind, EStateM.bind]
  cases result : first.action machine with
  | ok value after =>
      rw [result] at through withinNext
      obtain ⟨throughNext, givesNext⟩ := accountsNext value _ after (Nat.le_add_right _ _) result
        (gives value after result) through.last withinNext
      exact ⟨through.append throughNext, givesNext⟩
  | error fault after =>
      rw [result] at through
      refine ⟨through.append (.nil through.last), fun value after ended => ?_⟩
      cases ended

/-- What a statement ends with. -/
def ValidCompletion (history : List Machine) (moment : Nat) (completion : Completion) : Prop :=
  completion.value.Declared history moment

theorem validCompletion_normal : ValidCompletion history moment .normal :=
  (Value.plain_of_type (by simp [Completion.value, Value.type])).declared

theorem within_eq_ok {enclosing : ScopeId} {bindings : Bindings} {action : Action α} {value : α}
    {after : Machine} (ended : Action.within enclosing bindings action machine = .ok value after) :
    ∃ last, action (Action.enter enclosing bindings machine) = .ok value last := by
  rw [Action.within_eq] at ended
  cases result : action (Action.enter enclosing bindings machine) with
  | ok given last =>
      rw [result] at ended
      cases ended
      exact ⟨last, rfl⟩
  | error fault last =>
      rw [result] at ended
      cases ended

theorem accounts_within {inner : Passage Completion} {enclosing : ScopeId} {bindings : Bindings}
    (old : machine.Accounted history moment → enclosing < machine.heap.nextId)
    (declared : ∀ binding ∈ bindings, binding.2.Declared history moment)
    (accounts : inner.Accounts history (ValidCompletion history) (moment + 1)
      (Action.enter enclosing bindings machine)) :
    (within enclosing bindings inner).Accounts history (ValidCompletion history) moment
      machine := by
  intro accounted within
  obtain ⟨isEntered, within⟩ := prefix_drop_cons within
  obtain ⟨withinInner, withinLast⟩ := prefix_drop_append within
  obtain ⟨isLast, _⟩ := prefix_drop_cons withinLast
  have entered := accounted.entered isEntered rfl (old accounted) declared
  obtain ⟨through, gives⟩ := accounts entered withinInner
  have outer := (through.last.precedes moment (by omega) machine accounted.isMoment).current
  have left := through.last.unchanged isLast (by rw [Action.finish_within]) (by rw [Action.finish_within])
    (by rw [Action.finish_within]; exact outer)
  refine ⟨(Machine.Through.single accounted entered).append
    (through.append (.single through.last left)), fun value after ended => ?_⟩
  obtain ⟨last, ended⟩ := within_eq_ok ended
  refine (gives value last ended).mono ?_
  simp only [Passage.within, List.length_cons, List.length_append]
  omega

/-! ## Parts of an evaluation -/

section Evaluation

variable {depth : Nat}
  (expressions : ∀ (expr : Expr) (moment : Nat) (machine : Machine),
    (expr.passage depth).Accounts history (Value.Declared history) moment machine)
  (statements : ∀ (stmt : Stmt) (moment : Nat) (machine : Machine),
    (stmt.passage depth).Accounts history (ValidCompletion history) moment machine)

include expressions in
theorem accounts_values (exprs : List Expr) : ∀ (moment : Nat) (machine : Machine),
    (values (Expr.passage depth) exprs).Accounts history
      (fun later values => ∀ value ∈ values, value.Declared history later) moment machine := by
  induction exprs with
  | nil => exact fun moment machine => accounts_pure (by simp)
  | cons first rest ih =>
      intro moment machine
      apply accounts_bind (expressions first moment machine)
      intro value middle _ _ _ declared
      apply accounts_bind (ih middle _)
      intro others last _ order _ declaredOthers
      exact accounts_pure (List.forall_mem_cons.mpr ⟨declared.mono order, declaredOthers⟩)

include statements in
theorem accounts_sequence (body : List Stmt) : ∀ (moment : Nat) (machine : Machine),
    (sequence (Stmt.passage depth) body).Accounts history (ValidCompletion history) moment
      machine := by
  induction body with
  | nil => exact fun moment machine => accounts_pure validCompletion_normal
  | cons first rest ih =>
      intro moment machine
      apply accounts_bind (statements first moment machine)
      intro completion later after _ _ valid
      cases completion with
      | normal => exact ih later after
      | returned value => exact accounts_pure valid

include statements in
theorem accounts_call (paren : Token) {arguments : List Value} {callee : Value}
    (declared : callee.Declared history moment)
    (declaredAll : ∀ argument ∈ arguments, argument.Declared history moment) :
    (call (Stmt.passage depth) paren arguments callee).Accounts history (Value.Declared history)
      moment machine := by
  cases callee with
  | nil | bool | number | string => exact accounts_throw _
  | builtin function =>
      simp only [call]
      split
      · refine accounts_single (fun accounted isNext => ?_) fun value after ended => ?_
        · exact accounted.unchanged isNext rfl (Nat.le_refl _) accounted.current
        · cases ended
          exact (Value.plain_of_type (by simp [Value.type])).declared
      · exact accounts_throw _
  | function closure =>
      simp only [call]
      split
      · have noted : (single (.note (.calling closure.name.lexeme arguments.length))).Accounts
            history (fun _ _ => True) moment machine :=
          accounts_single (fun accounted isNext =>
            accounted.unchanged isNext rfl (Nat.le_refl _) accounted.current) fun _ _ _ => trivial
        apply accounts_bind noted
        intro _ later after order _ _
        have given := Bindings.forall_ofArguments closure.parameters fun argument member =>
          (declaredAll argument member).mono order
        have old (accounted : after.Accounted history later) :
            closure.scope < after.heap.nextId := accounted.scope_lt (declared.mono order)
        have body := accounts_within old given
          (accounts_sequence statements closure.body (later + 1) _)
        refine accounts_bind body fun completion last _ _ _ valid => accounts_pure valid
      · exact accounts_throw _

theorem accounts_condition {expr : Expr} (keyword : Token)
    (accounts : (expr.passage depth).Accounts history (Value.Declared history) moment machine) :
    (do
      let value ← expr.passage depth
      still (.ofExcept (Operator.condition keyword value)) : Passage Bool).Accounts history
        (fun _ _ => True) moment machine :=
  accounts_bind accounts fun _ _ _ _ _ _ => accounts_tested _

include expressions statements in
theorem accounts_loop (keyword : Token) (condition : Expr) (body : Stmt) :
    ∀ (bound moment : Nat) (machine : Machine),
      (loop
        (do
          let value ← condition.passage depth
          still (.ofExcept (Operator.condition keyword value)))
        (body.passage depth) bound).Accounts history (ValidCompletion history) moment machine := by
  intro bound
  induction bound with
  | zero => exact fun moment machine => accounts_throw _
  | succ bound ih =>
      intro moment machine
      apply accounts_bind (accounts_condition keyword (expressions condition moment machine))
      intro continues middle _ _ _ _
      cases continues with
      | false => exact accounts_pure validCompletion_normal
      | true =>
          apply accounts_bind (statements body middle _)
          intro completion later after _ _ valid
          cases completion with
          | normal => exact ih later after
          | returned value => exact accounts_pure valid

include expressions statements in
theorem accounts_expression (expr : Expr) :
    (expr.passage (depth + 1)).Accounts history (Value.Declared history) moment machine := by
  cases expr with
  | literal value => exact accounts_pure (Value.ofLiteral_plain value).declared
  | «variable» name =>
      have read := Action.read_eq name machine
      cases found : machine.heap.read? machine.current name.lexeme with
      | none =>
          rw [found] at read
          refine accounts_still (by rw [Action.finish, read]) fun _ value after ended => ?_
          rw [read] at ended
          cases ended
      | some given =>
          rw [found] at read
          refine accounts_still (by rw [Action.finish, read]) fun accounted value after ended => ?_
          rw [read] at ended
          cases ended
          exact accounted.functions.read? found
  | grouping inner => exact expressions inner moment machine
  | assign name value =>
      apply accounts_bind (expressions value moment machine)
      intro value later after _ _ declared
      cases name with
      | none => exact accounts_pure declared
      | some name =>
          have assigned : (single (.assign name value)).Accounts history (fun _ _ => True) later
              after := by
            refine accounts_single (fun accounted isNext => ?_) fun _ _ _ => trivial
            revert isNext
            simp only [Action.finish, Action.assign]
            cases done : after.heap.assign? after.current name.lexeme value with
            | none =>
                exact fun isNext =>
                  accounted.unchanged isNext rfl (Nat.le_refl _) accounted.current
            | some heap =>
                obtain ⟨holder, _, _, _, changed⟩ := Heap.assign?_eq_some done
                exact fun isNext =>
                  accounted.defined isNext changed rfl rfl (declared.mono (Nat.le_succ later))
          exact accounts_bind assigned fun _ last _ order _ _ => accounts_pure (declared.mono order)
  | unary operator operand =>
      apply accounts_bind (expressions operand moment machine)
      intro value later after _ _ declared
      cases operator with
      | none => exact accounts_pure declared
      | some operator =>
          exact accounts_ofExcept fun _ ended => (Operator.unary_plain ended).declared
  | binary left operator right =>
      apply accounts_bind (expressions left moment machine)
      intro left middle _ _ _ _
      apply accounts_bind (expressions right middle _)
      intro right later after _ _ _
      exact accounts_ofExcept fun _ ended => (Operator.binary_plain ended).declared
  | logical left operator right =>
      have truth (value : Bool) : (Value.bool value).Plain :=
        Value.plain_of_type (by simp [Value.type])
      apply accounts_bind (expressions left moment machine)
      intro left middle _ _ _ _
      apply accounts_bind (accounts_tested _)
      intro decided later after _ _ _
      split
      · exact accounts_throw _
      · split
        · exact accounts_pure (truth _).declared
        · apply accounts_bind (expressions right later after)
          intro right last _ _ _ _
          apply accounts_bind (accounts_tested _)
          intro value ended _ _ _ _
          exact accounts_pure (truth _).declared
  | call callee paren arguments =>
      apply accounts_bind (expressions callee moment machine)
      intro callee middle _ _ _ declared
      apply accounts_bind (accounts_values expressions arguments middle _)
      intro arguments later after order _ declaredAll
      exact accounts_call statements paren (declared.mono order) declaredAll

/-- The two moments of a declaration that follow it make it known where its function comes from. -/
theorem accounts_declaration (name : Token) (parameters : List Token) (body : List Stmt) :
    ((Stmt.function name parameters body).passage (depth + 1)).Accounts history
      (ValidCompletion history) moment machine := by
  intro accounted within
  obtain ⟨isMade, rest⟩ := prefix_drop_cons within
  obtain ⟨isAfter, _⟩ := prefix_drop_cons rest
  have declared : (Value.function
      ⟨machine.functionsMade, machine.current, name, parameters, body⟩).Declared history
        (moment + 2) := by
    rintro _ ⟨⟩
    exact ⟨moment, Nat.le_refl _, depth + 1, machine, _, _, accounted.isMoment, rfl, rfl, within⟩
  have made := accounted.unchanged isMade rfl (Nat.le_succ _) accounted.current
  have named := made.defined isAfter rfl rfl rfl declared
  refine ⟨(Machine.Through.single accounted made).append (.single made named), ?_⟩
  rintro _ _ ⟨⟩
  exact validCompletion_normal

include expressions statements in
theorem accounts_statement (stmt : Stmt) :
    (stmt.passage (depth + 1)).Accounts history (ValidCompletion history) moment machine := by
  cases stmt with
  | expression value =>
      exact accounts_bind (expressions value moment machine) fun _ _ _ _ _ _ =>
        accounts_pure validCompletion_normal
  | print value =>
      apply accounts_bind (expressions value moment machine)
      intro value later after _ _ _
      have written : (single (.writeLine value.text)).Accounts history (fun _ _ => True) later
          after := by
        refine accounts_single (fun accounted isNext => ?_) fun _ _ _ => trivial
        revert isNext
        simp only [Action.finish, Action.writeLine]
        rcases after.output.write (value.text ++ "\n").toUTF8 with ⟨output, _ | _⟩
        · exact fun isNext => accounted.unchanged isNext rfl (Nat.le_refl _) accounted.current
        · exact fun isNext => accounted.unchanged isNext rfl (Nat.le_refl _) accounted.current
      exact accounts_bind written fun _ _ _ _ _ _ => accounts_pure validCompletion_normal
  | «variable» name initializer =>
      have defined : ∀ (value : Value) (moment : Nat) (machine : Machine),
          value.Declared history moment →
          (do single (.define name value); return .normal : Passage Completion).Accounts history
            (ValidCompletion history) moment machine := by
        intro value moment machine declared
        have given : (single (.define name value)).Accounts history (fun _ _ => True) moment
            machine :=
          accounts_single (fun accounted isNext =>
            accounted.defined isNext rfl rfl rfl (declared.mono (Nat.le_succ moment)))
            fun _ _ _ => trivial
        exact accounts_bind given fun _ _ _ _ _ _ => accounts_pure validCompletion_normal
      cases initializer with
      | none => exact defined .nil moment machine validCompletion_normal
      | some initializer =>
          exact accounts_bind (expressions initializer moment machine)
            fun value later after _ _ declared => defined value later after declared
  | block inner =>
      have got : (still get).Accounts history (fun _ _ => True) moment machine :=
        accounts_still rfl fun _ _ _ _ => trivial
      apply accounts_bind got
      rintro _ later _ _ ⟨⟩ _
      exact accounts_within (fun accounted => accounted.current) (by simp)
        (accounts_sequence statements inner (later + 1) _)
  | branch keyword condition thenBranch elseBranch =>
      apply accounts_bind (expressions condition moment machine)
      intro value middle _ _ _ _
      apply accounts_bind (accounts_tested _)
      intro holds later after _ _ _
      cases holds with
      | true => exact statements thenBranch later after
      | false =>
          cases elseBranch with
          | none => exact accounts_pure validCompletion_normal
          | some elseBranch => exact statements elseBranch later after
  | loop keyword condition body =>
      exact accounts_loop expressions statements keyword condition body depth moment machine
  | function name parameters body => exact accounts_declaration name parameters body
  | returning keyword value =>
      cases value with
      | none => exact accounts_pure validCompletion_normal
      | some value =>
          exact accounts_bind (expressions value moment machine)
            fun _ _ _ _ _ declared => accounts_pure declared

end Evaluation

/-- Every evaluation accounts for the moments that it goes through. -/
theorem accounts_passage (history : List Machine) (depth : Nat) :
    (∀ (expr : Expr) (moment : Nat) (machine : Machine),
      (expr.passage depth).Accounts history (Value.Declared history) moment machine) ∧
    ∀ (stmt : Stmt) (moment : Nat) (machine : Machine),
      (stmt.passage depth).Accounts history (ValidCompletion history) moment machine := by
  induction depth with
  | zero => exact ⟨fun _ _ _ => accounts_throw _, fun _ _ _ => accounts_throw _⟩
  | succ depth ih =>
      exact ⟨fun expr _ _ => accounts_expression ih.1 ih.2 expr,
        fun stmt _ _ => accounts_statement ih.1 ih.2 stmt⟩

end Passage

/-! ## Programs and runs -/

/-- If the moments of a program follow in the history, they are accounted for. -/
theorem programMoments_through (depth : Nat) (statements : List Stmt) :
    ∀ (moment : Nat) (machine : Machine), machine.Accounted history moment →
      programMoments depth statements machine <+: history.drop (moment + 1) →
      Machine.Through history moment (programMoments depth statements machine)
        (executeProgram depth statements machine).2 := by
  induction statements with
  | nil => exact fun moment machine accounted _ => .nil accounted
  | cons first rest ih =>
      intro moment machine accounted within
      rw [programMoments] at within ⊢
      obtain ⟨withinFirst, withinRest⟩ := prefix_drop_append within
      obtain ⟨through, _⟩ :=
        (Passage.accounts_passage history depth).2 first moment machine accounted withinFirst
      rw [(Passage.action_passage depth).2, Action.finish] at through
      rw [executeProgram]
      cases result : execute depth first machine with
      | ok completion after =>
          rw [result] at through withinRest
          cases completion with
          | normal => exact through.append (ih _ after through.last withinRest)
          | returned value => exact through.append (.nil through.last)
      | error fault after =>
          rw [result] at through withinRest
          have isNoted := (prefix_drop_cons withinRest).1
          have noted := through.last.unchanged isNoted rfl (Nat.le_refl _) through.last.current
          exact through.append (.single through.last noted)

theorem runMoments_through (depth : Nat) (source : String)
    (accounted : machine.Accounted history moment)
    (within : runMoments depth source machine <+: history.drop (moment + 1)) :
    Machine.Through history moment (runMoments depth source machine)
      (run depth source machine).machine := by
  rw [runMoments] at within ⊢
  obtain ⟨isFresh, within⟩ := prefix_drop_cons within
  have fresh := accounted.unchanged isFresh rfl (Nat.le_refl _) accounted.current
  cases parsed : parse source with
  | error errors =>
      rw [(run_of_rejected depth machine parsed).2]
      exact .single accounted fresh
  | ok statements =>
      rw [parsed] at within
      rw [(run_of_parse depth machine parsed).2]
      have program := programMoments_through depth statements (moment + 1) _ fresh within
      exact (Machine.Through.single accounted fresh).append program

theorem Machine.moments_through (sources : List (Nat × String)) :
    ∀ (moment : Nat) (machine : Machine), machine.Accounted history moment →
      machine.moments sources <+: history.drop (moment + 1) →
      Through history moment (machine.moments sources) (machine.running sources) := by
  induction sources with
  | nil => exact fun moment machine accounted _ => .nil accounted
  | cons first rest ih =>
      intro moment machine accounted within
      obtain ⟨depth, source⟩ := first
      rw [Machine.moments] at within ⊢
      obtain ⟨withinFirst, withinRest⟩ := prefix_drop_append within
      have run := runMoments_through depth source accounted withinFirst
      exact run.append (ih _ _ run.last withinRest)

/-! ## Histories from the start -/

/-- A machine that has evaluated nothing is accounted for as the first moment. -/
theorem Machine.start_accounted (clock : Nat → Float) (output : Output) (later : List Machine) :
    let fresh : Machine := { Machine.start clock none with output }
    fresh.Accounted (fresh :: later) 0 where
  isMoment := rfl
  forest := .ofGlobals _
  functions := by
    intro id scope found binding member
    obtain ⟨_, rfl⟩ := Heap.eq_of_get?_ofGlobals found
    obtain rfl := List.mem_singleton.mp member
    intro closure isFunction
    cases isFunction
  precedes := by
    intro earlier order before isBefore
    obtain rfl := Nat.le_zero.mp order
    cases isBefore
    exact .refl Nat.zero_lt_one

/-- If the moments behind the first one of a history are gone through, all of it is
accounted for. -/
theorem Machine.Through.accounted {first last : Machine} {moments : List Machine}
    (through : Through (first :: moments) 0 moments last) {moment : Nat} {machine : Machine}
    (isMoment : (first :: moments)[moment]? = some machine) :
    machine.Accounted (first :: moments) moment := by
  obtain ⟨bound, _⟩ := List.getElem?_eq_some_iff.mp isMoment
  rw [List.length_cons] at bound
  obtain ⟨there, accounted⟩ := through.between moment (Nat.zero_le _) (by omega)
  obtain rfl := Option.some.inj (isMoment.symm.trans accounted.isMoment)
  exact accounted

theorem Machine.Through.getLast? {first last : Machine} {moments : List Machine}
    (through : Through (first :: moments) 0 moments last) :
    (first :: moments).getLast? = some last := by
  have isLast := through.last.isMoment
  rw [Nat.zero_add] at isLast
  rw [List.getLast?_eq_getElem?]
  exact isLast

theorem Machine.history_through (clock : Nat → Float) (output : Output)
    (sources : List (Nat × String)) :
    let fresh : Machine := { Machine.start clock none with output }
    Through (fresh.history sources) 0 (fresh.moments sources) (fresh.running sources) := by
  intro fresh
  have started := start_accounted clock output (fresh.moments sources)
  exact moments_through sources 0 fresh started (List.prefix_refl _)

end Lox
