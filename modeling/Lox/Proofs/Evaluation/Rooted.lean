import Lox.Proofs.Evaluation.Declarations

/-!
# Scopes at every moment

Whatever statements are executed, at every moment the scopes form a forest
below the global one, and no scope ever comes to lie elsewhere. Closures make
cycles of scopes and values only: they are stored in scopes, but nothing is
ever put around a scope after it has been created.
-/

set_option autoImplicit false

namespace Lox

/-- The machines that programs executed in turn pass behind the first one, none
stopped by the faults of those before it. -/
def Machine.executingMoments (machine : Machine) : List (Nat × List Stmt) → List Machine
  | [] => []
  | (depth, statements) :: rest =>
      programMoments depth statements machine ++
        (executeProgram depth statements machine).2.executingMoments rest

theorem Machine.executingMoments_through {history : List Machine}
    (programs : List (Nat × List Stmt)) :
    ∀ (moment : Nat) (machine : Machine), machine.Accounted history moment →
      machine.executingMoments programs <+: history.drop (moment + 1) →
      Through history moment (machine.executingMoments programs) (machine.executing programs) := by
  induction programs with
  | nil => exact fun moment machine accounted _ => .nil accounted
  | cons program rest ih =>
      intro moment machine accounted within
      obtain ⟨depth, statements⟩ := program
      rw [executingMoments] at within ⊢
      obtain ⟨withinFirst, withinRest⟩ := prefix_drop_append within
      have first := programMoments_through depth statements moment machine accounted withinFirst
      exact first.append (ih _ _ first.last withinRest)

/-- Whatever programs are executed on a machine that starts afresh, at every
moment its scopes form a forest, all ways outward end in the global scope, and the
scopes that are current and that functions have captured are among them. Scopes of
earlier moments, with those that were current then, are still there inside the
same scopes as before. So every search from a scope ends, visits no scope twice
and finds what resolving finds, and an assignment that holds the scopes on its way
ends as assigning does, without coming to one that is held. -/
theorem scopes_form_a_forest (clock : Nat → Float) (output : Output)
    (programs : List (Nat × List Stmt)) :
    let fresh : Machine := { Machine.start clock none with output }
    let history := fresh :: fresh.executingMoments programs
    history.getLast? = some (fresh.executing programs) ∧
      ∀ (moment : Nat) (machine : Machine), history[moment]? = some machine →
        machine.heap.Forest ∧
        (∀ id < machine.heap.nextId, Relation.ReflTransGen machine.heap.Inside id 0) ∧
        machine.current < machine.heap.nextId ∧
        (∀ id scope, machine.heap.get? id = some scope → ∀ name closure,
          (name, Value.function closure) ∈ scope.bindings → closure.scope < machine.heap.nextId) ∧
        (∀ earlier ≤ moment, ∀ before, history[earlier]? = some before →
          before.current < machine.heap.nextId ∧
          ∀ id scope, before.heap.get? id = some scope →
            ∃ later, machine.heap.get? id = some later ∧ later.enclosing = scope.enclosing) ∧
        ∀ id < machine.heap.nextId, ∀ name,
          (∃ path found, machine.heap.Visits name id path found ∧ path.Nodup ∧
            machine.heap.resolve id name = found) ∧
          ∀ value ending, machine.heap.Assigns name value [] id ending ↔
            ending = .ofResult (machine.heap.assign? id name value) := by
  intro fresh history
  have started := Machine.start_accounted clock output (fresh.executingMoments programs)
  have through : Machine.Through history 0 (fresh.executingMoments programs)
      (fresh.executing programs) :=
    Machine.executingMoments_through programs 0 fresh started (List.prefix_refl _)
  refine ⟨through.getLast?, fun moment machine isMoment => ?_⟩
  have accounted := through.accounted isMoment
  have forest := accounted.forest
  refine ⟨forest, forest.reaches_global, accounted.current, ?_, ?_, ?_⟩
  · intro id scope found name closure bound
    exact accounted.scope_lt (accounted.functions id scope found _ bound)
  · intro earlier order before isBefore
    have precedes := accounted.precedes earlier order before isBefore
    refine ⟨precedes.current, fun id scope found => ?_⟩
    obtain ⟨later, foundLater, grown⟩ := precedes.kept id scope found
    exact ⟨later, foundLater, grown.enclosing⟩
  · intro id old name
    obtain ⟨path, found, visits⟩ := forest.acyclic.exists_visits name id
    exact ⟨⟨path, found, visits, visits.nodup forest.acyclic, visits.resolve_eq forest.acyclic⟩,
      forest.assigns_iff old name⟩

/-- A block that declares a function without parameters and calls it there. -/
def callInBlock (name paren : Token) : Stmt :=
  .block [.function name [] [], .expression (.call (.variable name) paren [])]

/-- The function is stored in the scope that it has captured. From the scope of
its call the global scope is reached all the same, and given a value. -/
theorem call_in_block_reaches_the_global_scope :
    let fresh := Machine.start (fun _ => 0) none
    let history := fresh :: fresh.executingMoments
      [(4, [callInBlock ⟨.name, "f", 1, 1⟩ ⟨.symbol .rightParen, ")", 1, 3⟩])]
    ∃ machine, history[5]? = some machine ∧ machine.current = 2 ∧
      (∃ scope closure, machine.heap.get? closure.scope = some scope ∧
        ("f", Value.function closure) ∈ scope.bindings) ∧
      Relation.ReflTransGen machine.heap.Inside 2 0 ∧
      ∀ ending, machine.heap.Assigns "clock" .nil [] 2 ending ↔
        ending = .done (machine.heap.define 0 "clock" .nil) := by
  intro fresh history
  obtain ⟨_, moments⟩ := scopes_form_a_forest (fun _ => 0) (.ofCapacity none)
    [(4, [callInBlock ⟨.name, "f", 1, 1⟩ ⟨.symbol .rightParen, ")", 1, 3⟩])]
  obtain ⟨_, global, _, _, _, searches⟩ := moments 5 _ rfl
  exact ⟨_, rfl, rfl, ⟨_, ⟨0, 1, _, _, _⟩, rfl, .head _⟩, global 2 (by decide),
    (searches 2 (by decide) "clock").2 .nil⟩

end Lox
