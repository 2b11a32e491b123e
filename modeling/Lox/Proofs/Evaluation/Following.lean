import Lox.Proofs.Evaluation.Placement

/-!
# Actions that end alike

One action follows another if on alike machines the two end alike: both with
values in some relation or both with alike faults, and on machines that are
alike again. Scopes that are made on the way get their places then, so what is
said of an action holds from some placement on, and goes through all the
ways in which actions are put together.
-/

set_option autoImplicit false

namespace Lox

section Definitions

variable (like : Token → Token → Prop) (aligned : Prop) (settled : Bool)

/-- Endings of two actions, with values that are in a relation at a later placement. -/
inductive EndsAlike {α β : Type} (given : Placement → α → β → Prop) (placement : Placement) :
    EStateM.Result Fault Machine α → EStateM.Result Fault Machine β → Prop where
  | ok {later value value' after after'} :
      placement.Extends later → given later value value' →
      Machine.Alike like aligned settled later after after' →
      EndsAlike given placement (.ok value after) (.ok value' after')
  | error {later fault fault' after after'} :
      placement.Extends later → Fault.Alike like fault fault' →
      Machine.Alike like aligned settled later after after' →
      EndsAlike given placement (.error fault after) (.error fault' after')

/-- On machines that are alike at some later placement, the actions end alike. -/
def Action.Follows {α β : Type} (start : Placement) (given : Placement → α → β → Prop)
    (left : Action α) (right : Action β) : Prop :=
  ∀ placement, start.Extends placement → ∀ machine machine',
    Machine.Alike like aligned settled placement machine machine' →
      EndsAlike like aligned settled given placement (left machine) (right machine')

/-- Values that are alike at a placement. -/
abbrev Placement.Values (placement : Placement) : Value → Value → Prop :=
  Value.Alike like placement.stands

abbrev Placement.Completions (placement : Placement) : Completion → Completion → Prop :=
  Completion.Alike like placement.stands

end Definitions

variable {like : Token → Token → Prop} {aligned : Prop} {settled : Bool}
  {start placement : Placement} {α β γ δ : Type}

theorem EndsAlike.earlier {given : Placement → α → β → Prop} {later : Placement}
    {left : EStateM.Result Fault Machine α} {right : EStateM.Result Fault Machine β}
    (ends : EndsAlike like aligned settled given later left right)
    (extended : placement.Extends later) :
    EndsAlike like aligned settled given placement left right := by
  cases ends with
  | ok further value machines => exact .ok (extended.trans further) value machines
  | error further fault machines => exact .error (extended.trans further) fault machines

namespace Action

variable {given : Placement → α → β → Prop}

/-! ## Combinations -/

theorem follows_pure {value : α} {value' : β}
    (holds : ∀ placement, start.Extends placement → given placement value value') :
    Follows like aligned settled start given (pure value) (pure value') :=
  fun placement extended _ _ machines => .ok (.refl placement) (holds placement extended) machines

theorem follows_throw {fault fault' : Fault} (alike : Fault.Alike like fault fault') :
    Follows like aligned settled start given (throw fault) (throw fault') :=
  fun placement _ _ _ machines => .error (.refl placement) alike machines

theorem follows_bind {givenNext : Placement → γ → δ → Prop} {first : Action α} {first' : Action β}
    {next : α → Action γ} {next' : β → Action δ}
    (follows : Follows like aligned settled start given first first')
    (followsNext : ∀ placement, start.Extends placement → ∀ value value',
      given placement value value' →
        Follows like aligned settled placement givenNext (next value) (next' value')) :
    Follows like aligned settled start givenNext (first >>= next) (first' >>= next') := by
  intro placement extended machine machine' machines
  have ends := follows placement extended machine machine' machines
  simp only [bind, EStateM.bind]
  revert ends
  generalize first machine = ending
  generalize first' machine' = ending'
  rintro (⟨further, value, machines⟩ | ⟨further, fault, machines⟩)
  · have ends := followsNext _ (extended.trans further) _ _ value _ (.refl _) _ _ machines
    exact ends.earlier further
  · exact .error further fault machines

theorem follows_ofExcept {related : α → β → Prop} {outcome : Except Fault α}
    {outcome' : Except Fault β} (alike : OutcomesAlike like related outcome outcome')
    (holds : ∀ value value', related value value' →
      ∀ placement, start.Extends placement → given placement value value') :
    Follows like aligned settled start given (ofExcept outcome) (ofExcept outcome') := by
  cases alike with
  | ok value => exact follows_pure (holds _ _ value)
  | error fault => exact follows_throw fault

theorem follows_truth {outcome outcome' : Except Fault Bool}
    (alike : OutcomesAlike like Eq outcome outcome') :
    Follows like aligned settled start (fun _ => Eq) (ofExcept outcome) (ofExcept outcome') :=
  follows_ofExcept alike fun _ _ same _ _ => same

theorem follows_value {outcome outcome' : Except Fault Value}
    (alike : OutcomesAlike like (Value.Alike like start.stands) outcome outcome') :
    Follows like aligned settled start (Placement.Values like) (ofExcept outcome)
      (ofExcept outcome') :=
  follows_ofExcept alike fun _ _ values _ extended => values.mono extended.stands

theorem follows_mapM {ε : Type} {related : ε → ε → Prop} {action : ε → Action Value}
    {values values' : List ε} (alike : List.Forall₂ related values values')
    (follows : ∀ value value', related value value' → ∀ start,
      Follows like aligned settled start (Placement.Values like) (action value) (action value')) :
    ∀ start, Follows like aligned settled start
      (fun placement => List.Forall₂ (Value.Alike like placement.stands))
      (values.mapM action) (values'.mapM action) := by
  induction alike with
  | nil => exact fun start => follows_pure fun _ _ => .nil
  | cons first _ ih =>
      intro start
      simp only [List.mapM_cons]
      apply follows_bind (follows _ _ first start)
      intro placement _ result result' results
      apply follows_bind (ih placement)
      intro later extended others others' alikeOthers
      exact follows_pure fun last further =>
        .cons (results.mono (extended.trans further).stands)
          (Value.Alike.mono_list further.stands alikeOthers)

theorem follows_sequence {execute execute' : Stmt → Action Completion}
    {statements statements' : List Stmt}
    (alike : List.Forall₂ (Stmt.Alike like) statements statements')
    (follows : ∀ stmt stmt', stmt.Alike like stmt' → ∀ start,
      Follows like aligned settled start (Placement.Completions like) (execute stmt)
        (execute' stmt')) :
    ∀ start, Follows like aligned settled start (Placement.Completions like)
      (sequence execute statements) (sequence execute' statements') := by
  induction alike with
  | nil => exact fun start => follows_pure fun _ _ => .normal
  | cons first _ ih =>
      intro start
      apply follows_bind (follows _ _ first start)
      rintro placement _ _ _ (_ | value)
      · exact ih placement
      · exact follows_pure fun _ extended => .returned (value.mono extended.stands)

theorem follows_loop {condition condition' : Action Bool} {body body' : Action Completion}
    (followsCondition : ∀ start,
      Follows like aligned settled start (fun _ => Eq) condition condition')
    (followsBody : ∀ start,
      Follows like aligned settled start (Placement.Completions like) body body') (bound : Nat) :
    ∀ start, Follows like aligned settled start (Placement.Completions like)
      (loop condition body bound) (loop condition' body' bound) := by
  induction bound with
  | zero => exact fun start => follows_throw .tooDeep
  | succ bound ih =>
      intro start
      apply follows_bind (followsCondition start)
      rintro placement _ continues _ rfl
      cases continues with
      | false => exact follows_pure fun _ _ => .normal
      | true =>
          apply follows_bind (followsBody placement)
          rintro later _ _ _ (_ | value)
          · exact ih later
          · exact follows_pure fun _ extended => .returned (value.mono extended.stands)

/-! ## Single actions -/

section Single

variable (written : Token.WrittenAlike like)

include written in
theorem follows_read {name name' : Token} (likely : like name name') :
    Follows like aligned settled start (Placement.Values like) (read name) (read name') := by
  intro placement _ machine machine' machines
  have found := machines.heap.read? machines.current name.lexeme
  rw [read_eq, read_eq, (written _ _ likely).2]
  revert found
  generalize machine.heap.read? machine.current name.lexeme = value?
  generalize machine'.heap.read? machine'.current name.lexeme = value'?
  rintro (value | _)
  · exact .ok (.refl placement) value machines
  · exact .error (.refl placement) (.runtime likely) machines

include written in
theorem follows_assign {name name' : Token} (likely : like name name') {value value' : Value}
    (alike : value.Alike like start.stands value') :
    Follows like aligned settled start (fun _ => Eq) (assign name value) (assign name' value') := by
  intro placement extended machine machine' machines
  have assigned := machines.heap.assign? machines.current name.lexeme (alike.mono extended.stands)
  simp only [assign, (written _ _ likely).2]
  revert assigned
  generalize machine.heap.assign? machine.current name.lexeme value = heap?
  generalize machine'.heap.assign? machine'.current name.lexeme value' = heap'?
  rintro (heap | _)
  · exact .ok (.refl placement) rfl { machines with heap := heap }
  · exact .error (.refl placement) (.runtime likely) machines

include written in
/-- Defining needs machines that are settled: in a pocket there are no names. -/
theorem follows_define {name name' : Token} (likely : like name name') {value value' : Value}
    (alike : value.Alike like start.stands value') :
    Follows like aligned true start (fun _ => Eq) (define name value) (define name' value') := by
  intro placement extended machine machine' machines
  have defined := machines.heap.define (machines.settled rfl) name.lexeme
    (alike.mono extended.stands)
  rw [define, define, (written _ _ likely).2]
  exact .ok (.refl placement) rfl { machines with heap := defined }

theorem follows_makeFunction {name name' : Token} (likely : like name name')
    {parameters parameters' : List Token}
    (alikeParameters : List.Forall₂ like parameters parameters')
    {body body' : List Stmt} (alikeBody : List.Forall₂ (Stmt.Alike like) body body') :
    Follows like aligned true start (Placement.Values like)
      (makeFunction name parameters body) (makeFunction name' parameters' body') := by
  intro placement _ machine machine' machines
  have closures : Closure.Alike like placement.stands
      ⟨machine.functionsMade, machine.current, name, parameters, body⟩
      ⟨machine'.functionsMade, machine'.current, name', parameters', body'⟩ :=
    ⟨machines.functionsMade, machines.settled rfl, likely, alikeParameters, alikeBody⟩
  exact .ok (.refl placement) (.function closures)
    { machines with functionsMade := congrArg (· + 1) machines.functionsMade }

theorem follows_readClock :
    Follows like aligned settled start (Placement.Values like) readClock readClock := by
  intro placement _ machine machine' machines
  rw [readClock, readClock, machines.clock, machines.readings]
  exact .ok (.refl placement) .number { machines with clock := rfl, readings := rfl }

theorem follows_note (added added' : Note) :
    Follows like aligned settled start (fun _ => Eq) (note added) (note added') :=
  fun placement _ _ _ machines => .ok (.refl placement) rfl { machines with }

theorem follows_writeLine (text : String) :
    Follows like aligned settled start (fun _ => Eq) (writeLine text) (writeLine text) := by
  intro placement _ machine machine' machines
  simp only [writeLine, machines.output]
  rcases machine'.output.write (text ++ "\n").toUTF8 with ⟨output, _ | _⟩
  · exact .error (.refl placement) .outputFull { machines with output := rfl }
  · exact .ok (.refl placement) rfl { machines with output := rfl }

end Single

/-! ## New scopes -/

/-- Machines in new scopes that stand for each other, whatever they were in before. -/
theorem follows_within {action : Action α} {action' : Action β} {enclosing enclosing' : ScopeId}
    (leads : start.Leads enclosing enclosing') {bindings bindings' : Bindings}
    (alike : Bindings.Alike like start.stands bindings bindings')
    (follows : Follows like aligned true start given action action') :
    Follows like aligned settled start given (within enclosing bindings action)
      (within enclosing' bindings' action') := by
  intro placement extended machine machine' machines
  have created := machines.heap.create (extended.leads leads) (alike.mono extended.stands)
  have grown := placement.extends_add machine.heap.nextId machine'.heap.nextId
  have inner : Machine.Alike like aligned true
      (placement.add machine.heap.nextId machine'.heap.nextId)
      { machine with
        heap := machine.heap.create enclosing bindings, current := machine.heap.nextId }
      { machine' with
        heap := machine'.heap.create enclosing' bindings', current := machine'.heap.nextId } :=
    ⟨created, .inl (.inr ⟨rfl, rfl⟩), fun _ => .inr ⟨rfl, rfl⟩, machines.functionsMade,
      machines.clock, machines.readings, machines.output⟩
  have ends := follows _ (extended.trans grown) _ _ inner
  -- The machines go back to where they were, which is where it was.
  have back : ∀ {later : Placement} {after after' : Machine},
      (placement.add machine.heap.nextId machine'.heap.nextId).Extends later →
      Machine.Alike like aligned true later after after' →
      Machine.Alike like aligned settled later { after with current := machine.current }
        { after' with current := machine'.current } := fun further after =>
    { after with
      current := (grown.trans further).leads machines.current
      settled := fun isSettled => (grown.trans further).stands _ _ (machines.settled isSettled) }
  simp only [within]
  revert ends
  generalize action _ = ending
  generalize action' _ = ending'
  rintro (⟨further, value, after⟩ | ⟨further, fault, after⟩)
  · exact .ok (grown.trans further) value (back further after)
  · exact .error (grown.trans further) fault (back further after)

end Action

end Lox
