import Lox.Proofs.Evaluation.Effect
import Lox.Proofs.Evaluation.Simulation

/-!
# Coherent machines

A machine is coherent if every scope that is pointed at exists: the scope
around another one, the scope of a function, and the current one. These are
the states that an interpreter can be in. A coherent machine is alike itself,
and what is alike itself is coherent, so evaluation keeps a machine coherent.
-/

set_option autoImplicit false

namespace Lox

/-- Every scope is newer than the one around it, and the scope of every
function in a scope exists, and so does the current one. -/
structure Machine.Coherent (machine : Machine) : Prop where
  ordered : machine.heap.Ordered
  current : machine.current < machine.heap.nextId
  closures : ∀ id scope, machine.heap.get? id = some scope → ∀ binding ∈ scope.bindings,
    ∀ closure, binding.2 = .function closure → closure.scope < machine.heap.nextId

theorem Value.alike_self {like : Token → Token → Prop} (reflexive : ∀ token, like token token)
    {stands : ScopeId → ScopeId → Prop} {value : Value}
    (placed : ∀ closure, value = .function closure → stands closure.scope closure.scope) :
    value.Alike like stands value := by
  cases value with
  | nil => exact .nil
  | bool => exact .bool
  | number => exact .number
  | string => exact .string
  | function closure =>
      exact .function ⟨rfl, placed closure rfl, reflexive closure.name,
        List.forall₂_same.mpr fun name _ => reflexive name,
        Stmt.Alike.reflList reflexive closure.body⟩
  | builtin => exact .builtin

namespace Machine

variable {machine : Machine}

theorem alike_self {like : Token → Token → Prop} (ordered : machine.heap.Ordered)
    (current : machine.current < machine.heap.nextId)
    (values : ∀ id scope, machine.heap.get? id = some scope → ∀ binding ∈ scope.bindings,
      binding.2.Alike like (Placement.inPlace machine.heap.nextId).stands binding.2)
    (aligned : Prop) (settled : Bool) :
    Machine.Alike like aligned settled (.inPlace machine.heap.nextId) machine machine where
  heap :=
    { ordered := ordered
      ordered' := ordered
      matched := by
        rintro id _ other _ ⟨rfl, _⟩ ⟨rfl, _⟩
        exact Iff.rfl
      scopes := by
        rintro id _ ⟨rfl, old⟩
        obtain ⟨scope, found⟩ := Heap.exists_get? old
        refine ⟨_, _, found, found, ?_, ?_⟩
        · have newer := ordered id _ found
          revert newer
          generalize Scope.enclosing _ = outer?
          intro newer
          cases outer? with
          | none => exact .none
          | some outer => exact .some (.inl ⟨rfl, Nat.lt_trans (newer outer rfl) old⟩)
        · exact List.forall₂_same.mpr fun binding member => ⟨rfl, values id _ found binding member⟩
      pockets := False.elim
      aligned := fun _ => ⟨rfl, fun _ _ => Iff.rfl⟩ }
  current := .inl ⟨rfl, current⟩
  settled := fun _ => ⟨rfl, current⟩
  functionsMade := rfl
  clock := rfl
  readings := rfl
  output := rfl

theorem Coherent.alike_self (coherent : machine.Coherent) (aligned : Prop) (settled : Bool) :
    Machine.Alike Eq aligned settled (.inPlace machine.heap.nextId) machine machine :=
  Machine.alike_self coherent.ordered coherent.current
    (fun id scope found binding member => Value.alike_self (fun _ => rfl) fun closure isFunction =>
      ⟨rfl, coherent.closures id scope found binding member closure isFunction⟩) aligned settled

theorem Alike.coherent {placement : Placement}
    (alike : Machine.Alike Eq True true placement machine machine) : machine.Coherent where
  ordered := alike.heap.ordered
  current := (alike.heap.lt_nextId alike.current).1
  closures := by
    intro id scope found binding member closure isFunction
    have stands := ((alike.heap.aligned trivial).2 id id).mpr ⟨rfl, Heap.lt_nextId found⟩
    obtain ⟨_, _, first, second, scopes⟩ := alike.heap.scopes stands
    obtain rfl := Option.some.inj (found.symm.trans first)
    obtain rfl := Option.some.inj (found.symm.trans second)
    have values := (List.forall₂_same.mp scopes.bindings binding member).2
    rw [isFunction] at values
    cases values with
    | function closures => exact (alike.heap.lt_nextId (.inl closures.scope)).1

/-! ## All states are coherent -/

theorem start_bindings {clock : Nat → Float} {capacity : Option Nat} {id : ScopeId} {scope : Scope}
    (found : (Machine.start clock capacity).heap.get? id = some scope) :
    scope.enclosing = none ∧ scope.bindings = [("clock", .builtin .clock)] := by
  obtain ⟨_, rfl⟩ := Heap.eq_of_get?_ofGlobals found
  exact ⟨rfl, rfl⟩

theorem start_coherent (clock : Nat → Float) (capacity : Option Nat) :
    (Machine.start clock capacity).Coherent where
  ordered := by
    intro id scope found outer around
    rw [(start_bindings found).1] at around
    cases around
  current := Nat.zero_lt_one
  closures := by
    intro id scope found binding member closure isFunction
    rw [(start_bindings found).2, List.mem_singleton] at member
    subst member
    cases isFunction

/-- A machine that enters a new scope, for a block or for a call, stays coherent. -/
theorem Coherent.enter (coherent : machine.Coherent) {enclosing : ScopeId} {bindings : Bindings}
    (old : enclosing < machine.heap.nextId)
    (closures : ∀ binding ∈ bindings, ∀ closure, binding.2 = .function closure →
      closure.scope < machine.heap.nextId) :
    { machine with
      heap := machine.heap.create enclosing bindings
      current := machine.heap.nextId }.Coherent := by
  have alike := coherent.alike_self True true
  have given : Bindings.Alike Eq (Placement.inPlace machine.heap.nextId).stands bindings bindings :=
    List.forall₂_same.mpr fun binding member => ⟨rfl, Value.alike_self (fun _ => rfl)
      fun closure isFunction => ⟨rfl, closures binding member closure isFunction⟩⟩
  have created := alike.heap.create (.inl ⟨rfl, old⟩) given
  have entered : Machine.Alike Eq True true _
      { machine with
        heap := machine.heap.create enclosing bindings
        current := machine.heap.nextId }
      { machine with
        heap := machine.heap.create enclosing bindings
        current := machine.heap.nextId } :=
    { alike with
      heap := created
      current := .inl (.inr ⟨rfl, rfl⟩)
      settled := fun _ => .inr ⟨rfl, rfl⟩ }
  exact entered.coherent

end Machine

namespace Action

/-- An action that follows itself keeps a machine coherent, however it ends. -/
theorem Follows.coherent {α : Type} {action : Action α} {given : Placement → α → α → Prop}
    {machine : Machine}
    (follows : Follows Eq True true (.inPlace machine.heap.nextId) given action action)
    (coherent : machine.Coherent) : (action.finish machine).Coherent := by
  have ends := follows _ (.refl _) machine machine (coherent.alike_self True true)
  rw [finish]
  generalize action machine = ending at ends
  cases ends with
  | ok _ _ machines => exact machines.coherent
  | error _ _ machines => exact machines.coherent

end Action

theorem writtenAlike_eq : Token.WrittenAlike Eq := by
  rintro left _ rfl
  exact ⟨rfl, rfl⟩

section Self

variable {aligned : Prop} (depth : Nat) (settled : Bool) (start : Placement)

theorem evaluate_follows_self (expr : Expr) :
    (evaluate depth expr).Follows Eq aligned settled start (Placement.Values Eq)
      (evaluate depth expr) :=
  (evaluation_follows writtenAlike_eq depth).1 settled (.refl (fun _ => rfl) expr) start

theorem execute_follows_self (stmt : Stmt) (declares : settled = false → stmt.DeclaresNothing) :
    (execute depth stmt).Follows Eq aligned settled start (Placement.Completions Eq)
      (execute depth stmt) :=
  (evaluation_follows writtenAlike_eq depth).2 settled (.refl (fun _ => rfl) stmt) declares start

end Self

theorem evaluation_coherent (depth : Nat) {machine : Machine} (coherent : machine.Coherent) :
    (∀ expr, ((evaluate depth expr).finish machine).Coherent) ∧
      ∀ stmt, ((execute depth stmt).finish machine).Coherent := by
  constructor
  · intro expr
    exact (evaluate_follows_self depth true _ expr).coherent coherent
  · intro stmt
    exact (execute_follows_self depth true _ stmt (by simp)).coherent coherent

theorem executeProgram_coherent (depth : Nat) (statements : List Stmt) {machine : Machine}
    (coherent : machine.Coherent) : (executeProgram depth statements machine).2.Coherent := by
  have alike := Stmt.Alike.reflList (fun token => rfl) statements
  obtain ⟨_, _, _, machines⟩ :=
    executeProgram_follows writtenAlike_eq depth alike (coherent.alike_self True true)
  exact machines.coherent

end Lox
