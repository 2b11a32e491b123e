import Lox.Evaluation.Evaluate

/-!
# Contracts

What an action keeps, however it ends. A contract goes through all the ways in
which actions are put together, so only the single actions have to be looked
at, each one once.
-/

set_option autoImplicit false

namespace Lox

/-- An invariant of the machine that actions rely on and keep, what they may do
to a machine, and the faults that they may stop with. -/
structure Contract where
  invariant : Machine → Prop
  allows : Machine → Machine → Prop
  expected : Fault → Prop
  refl : ∀ machine, allows machine machine
  trans : ∀ {first second third},
    allows first second → allows second third → allows first third

namespace Action

variable {α β : Type} {contract : Contract}

/-- The action keeps a contract, and what it gives is valid. -/
def Keeps (contract : Contract) (valid : α → Prop) (action : Action α) : Prop :=
  ∀ machine, contract.invariant machine →
    match action machine with
    | .ok value after =>
        valid value ∧ contract.invariant after ∧ contract.allows machine after
    | .error fault after =>
        contract.expected fault ∧ contract.invariant after ∧ contract.allows machine after

theorem keeps_pure {valid : α → Prop} {value : α} (holds : valid value) :
    (pure value : Action α).Keeps contract valid :=
  fun machine invariant => ⟨holds, invariant, contract.refl machine⟩

theorem keeps_throw {valid : α → Prop} {fault : Fault} (expected : contract.expected fault) :
    (throw fault : Action α).Keeps contract valid :=
  fun machine invariant => ⟨expected, invariant, contract.refl machine⟩

theorem keeps_bind {validFirst : α → Prop} {valid : β → Prop} {first : Action α}
    {next : α → Action β} (keepsFirst : first.Keeps contract validFirst)
    (keepsNext : ∀ value, validFirst value → (next value).Keeps contract valid) :
    (first >>= next).Keeps contract valid := by
  intro machine invariant
  have firstEnds := keepsFirst machine invariant
  simp only [bind, EStateM.bind]
  cases result : first machine with
  | ok value middle =>
      rw [result] at firstEnds
      obtain ⟨validValue, invariant, allowed⟩ := firstEnds
      have nextEnds := keepsNext value validValue middle invariant
      dsimp only
      cases next : next value middle with
      | ok value after =>
          rw [next] at nextEnds
          exact ⟨nextEnds.1, nextEnds.2.1, contract.trans allowed nextEnds.2.2⟩
      | error fault after =>
          rw [next] at nextEnds
          exact ⟨nextEnds.1, nextEnds.2.1, contract.trans allowed nextEnds.2.2⟩
  | error fault middle =>
      rw [result] at firstEnds
      exact firstEnds

theorem keeps_get : (get : Action Machine).Keeps contract contract.invariant :=
  fun machine invariant => ⟨invariant, invariant, contract.refl machine⟩

/-- An outcome that a contract allows, with a valid value or an expected fault. -/
def Allowed (contract : Contract) (valid : α → Prop) : Except Fault α → Prop
  | .ok value => valid value
  | .error fault => contract.expected fault

theorem keeps_ofExcept {valid : α → Prop} {outcome : Except Fault α}
    (allowed : Allowed contract valid outcome) : (ofExcept outcome).Keeps contract valid := by
  cases outcome with
  | ok value => exact keeps_pure allowed
  | error fault => exact keeps_throw allowed

theorem keeps_mapM {valid : β → Prop} {action : α → Action β} {values : List α}
    (keeps : ∀ value ∈ values, (action value).Keeps contract valid) :
    (values.mapM action).Keeps contract fun results => ∀ result ∈ results, valid result := by
  induction values with
  | nil => exact keeps_pure (by simp)
  | cons first rest ih =>
      obtain ⟨keepsFirst, keepsRest⟩ := List.forall_mem_cons.mp keeps
      rw [List.mapM_cons]
      apply keeps_bind keepsFirst
      intro result validResult
      apply keeps_bind (ih keepsRest)
      intro results validResults
      exact keeps_pure (List.forall_mem_cons.mpr ⟨validResult, validResults⟩)

theorem keeps_sequence {valid : Completion → Prop} {execute : Stmt → Action Completion}
    (ends : valid .normal) {statements : List Stmt}
    (keeps : ∀ stmt ∈ statements, (execute stmt).Keeps contract valid) :
    (sequence execute statements).Keeps contract valid := by
  induction statements with
  | nil => exact keeps_pure ends
  | cons first rest ih =>
      obtain ⟨keepsFirst, keepsRest⟩ := List.forall_mem_cons.mp keeps
      apply keeps_bind keepsFirst
      intro completion validCompletion
      cases completion with
      | normal => exact ih keepsRest
      | returned value => exact keeps_pure validCompletion

theorem keeps_loop {valid : Completion → Prop} {condition : Action Bool} {body : Action Completion}
    (tooDeep : contract.expected .tooDeep) (ends : valid .normal)
    (keepsCondition : condition.Keeps contract fun _ => True)
    (keepsBody : body.Keeps contract valid) (bound : Nat) :
    (loop condition body bound).Keeps contract valid := by
  induction bound with
  | zero => exact keeps_throw tooDeep
  | succ bound ih =>
      apply keeps_bind keepsCondition
      intro continues _
      cases continues with
      | false => exact keeps_pure ends
      | true =>
          apply keeps_bind keepsBody
          intro completion validCompletion
          cases completion with
          | normal => exact ih
          | returned value => exact keeps_pure validCompletion

/-! ## Scopes of actions -/

/-- The machine in a new scope. -/
def enter (enclosing : ScopeId) (bindings : Bindings) (machine : Machine) : Machine :=
  { machine with heap := machine.heap.create enclosing bindings, current := machine.heap.nextId }

/-- An ending whose machine is back in the given scope. -/
def leave (scope : ScopeId) :
    EStateM.Result Fault Machine α → EStateM.Result Fault Machine α
  | .ok value after => .ok value { after with current := scope }
  | .error fault after => .error fault { after with current := scope }

theorem within_eq (enclosing : ScopeId) (bindings : Bindings) (action : Action α)
    (machine : Machine) :
    within enclosing bindings action machine =
      leave machine.current (action (enter enclosing bindings machine)) :=
  rfl

end Action

/-- A program keeps the contract of its statements if noting a fault keeps it
and a statement that returns is expected to be one. -/
theorem keeps_executeProgram {contract : Contract} {valid : Completion → Prop} {depth : Nat}
    {statements : List Stmt}
    (noted : ∀ machine note, contract.invariant machine →
      contract.invariant (machine.addNote note) ∧
        contract.allows machine (machine.addNote note))
    (returned : ∀ value, valid (.returned value) → contract.expected (.internal .returnOutsideCall))
    (keeps : ∀ stmt ∈ statements, (execute depth stmt).Keeps contract valid) :
    ∀ machine, contract.invariant machine →
      (∀ fault ∈ (executeProgram depth statements machine).1, contract.expected fault) ∧
        contract.invariant (executeProgram depth statements machine).2 ∧
        contract.allows machine (executeProgram depth statements machine).2 := by
  induction statements with
  | nil =>
      intro machine invariant
      exact ⟨by simp [executeProgram], invariant, contract.refl machine⟩
  | cons first rest ih =>
      intro machine invariant
      obtain ⟨keepsFirst, keepsRest⟩ := List.forall_mem_cons.mp keeps
      have ended := keepsFirst machine invariant
      simp only [executeProgram]
      cases result : execute depth first machine with
      | ok completion after =>
          rw [result] at ended
          obtain ⟨validCompletion, invariantAfter, allowed⟩ := ended
          cases completion with
          | normal =>
              obtain ⟨expected, invariantEnd, allowedEnd⟩ := ih keepsRest after invariantAfter
              exact ⟨expected, invariantEnd, contract.trans allowed allowedEnd⟩
          | returned value =>
              refine ⟨?_, invariantAfter, allowed⟩
              intro fault same
              cases same
              exact returned value validCompletion
      | error fault after =>
          rw [result] at ended
          obtain ⟨expected, invariantAfter, allowed⟩ := ended
          obtain ⟨invariantEnd, allowedEnd⟩ := noted after (.halted fault.message) invariantAfter
          refine ⟨?_, invariantEnd, contract.trans allowed allowedEnd⟩
          intro found same
          cases same
          exact expected

end Lox
