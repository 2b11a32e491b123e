import Lox.Proofs.Evaluation.Preservation
import Lox.Proofs.Grammar.WellFormed

/-!
# Runs of sources

Sources that are run in turn on one machine. What one run leaves in the scopes
is well formed, so a later run can call it; which faults a run can end with
does not depend on how the earlier ones ended.
-/

set_option autoImplicit false

namespace Lox

theorem Machine.start_wellFormed (origin : Token → Prop) (clock : Nat → Float)
    (capacity : Option Nat) : (Machine.start clock capacity).heap.WellFormed origin := by
  intro id scope found name value bound
  obtain ⟨_, rfl⟩ := Heap.eq_of_get?_ofGlobals found
  simp only [Bindings.find?] at bound
  split at bound
  · obtain rfl := Option.some.inj bound
    trivial
  · cases bound

theorem run_of_parse (depth : Nat) (machine : Machine) {source : String} {statements : List Stmt}
    (parsed : parse source = .ok statements) :
    let ended := executeProgram depth statements { machine with notes := #[] }
    (run depth source machine).errors = (ended.1.map Error.evaluation).toList ∧
      (run depth source machine).machine = ended.2 := by
  rw [parse] at parsed
  simp [run, parsed]

theorem run_of_rejected (depth : Nat) (machine : Machine) {source : String} {errors : List Error}
    (rejected : parse source = .error errors) :
    (run depth source machine).errors = errors ∧
      (run depth source machine).machine = { machine with notes := #[] } := by
  rw [parse] at rejected
  simp [run, rejected]

/-- One run keeps the scopes well formed and stops with an expected fault if any.
Only the trees of a source that is accepted matter for that. -/
theorem run_wellFormed_of_trees {origin : Token → Prop} (depth : Nat) (source : String)
    {machine : Machine}
    (trees : ∀ statements, parse source = .ok statements →
      ∀ stmt ∈ statements, stmt.WellFormed origin false)
    (wellFormed : machine.heap.WellFormed origin) :
    (∀ fault, .evaluation fault ∈ (run depth source machine).errors → fault.Expected origin) ∧
      (run depth source machine).machine.heap.WellFormed origin := by
  cases parsed : parse source with
  | error errors =>
      obtain ⟨sameErrors, sameMachine⟩ := run_of_rejected depth machine parsed
      rw [sameErrors, sameMachine]
      refine ⟨fun fault member => ?_, wellFormed⟩
      cases isStatic_of_parse parsed _ member
  | ok statements =>
      obtain ⟨sameErrors, sameMachine⟩ := run_of_parse depth machine parsed
      have before : { machine with notes := #[] }.heap.WellFormed origin := wellFormed
      obtain ⟨expected, kept⟩ := executeProgram_wellFormed depth (trees statements parsed) before
      rw [sameErrors, sameMachine]
      exact ⟨fun fault member => expected fault (by simpa using member), kept⟩

theorem run_wellFormed {origin : Token → Prop} (depth : Nat) (source : String) {machine : Machine}
    (known : ∀ token ∈ tokensOf source, origin token) (wellFormed : machine.heap.WellFormed origin) :
    (∀ fault, .evaluation fault ∈ (run depth source machine).errors → fault.Expected origin) ∧
      (run depth source machine).machine.heap.WellFormed origin :=
  run_wellFormed_of_trees depth source
    (fun _ parsed stmt member => (parse_wellFormed parsed stmt member).mono known) wellFormed

/-- A machine after running some sources in turn, whether or not they failed. -/
def Machine.running (sources : List (Nat × String)) (machine : Machine) : Machine :=
  sources.foldl (fun machine (depth, source) => (run depth source machine).machine) machine

theorem Machine.running_wellFormed_of_trees {origin : Token → Prop}
    (sources : List (Nat × String))
    (trees : ∀ source ∈ sources, ∀ statements, parse source.2 = .ok statements →
      ∀ stmt ∈ statements, stmt.WellFormed origin false) :
    ∀ machine : Machine, machine.heap.WellFormed origin →
      (machine.running sources).heap.WellFormed origin := by
  induction sources with
  | nil => exact fun _ wellFormed => wellFormed
  | cons first rest ih =>
      intro machine wellFormed
      obtain ⟨treesFirst, treesRest⟩ := List.forall_mem_cons.mp trees
      exact ih treesRest _ (run_wellFormed_of_trees first.1 first.2 treesFirst wellFormed).2

theorem Machine.running_wellFormed {origin : Token → Prop} (sources : List (Nat × String))
    (known : ∀ source ∈ sources, ∀ token ∈ tokensOf source.2, origin token) :
    ∀ machine : Machine, machine.heap.WellFormed origin →
      (machine.running sources).heap.WellFormed origin :=
  running_wellFormed_of_trees sources fun source inSources _ parsed stmt member =>
    (parse_wellFormed parsed stmt member).mono (known source inSources)

/-- Of sources run in turn on a machine that starts afresh, none meets an
internal fault. Every statement that is executed and every body of a function
in any scope is well formed. A source that is executed has no static error, and
one that is rejected has no other. -/
theorem run_meets_no_internal_fault (clock : Nat → Float) (output : Output)
    (earlier : List (Nat × String)) (depth : Nat) (source : String) :
    let fresh : Machine := { Machine.start clock none with output }
    let ended := run depth source (fresh.running earlier)
    (∀ fault, .evaluation (.internal fault) ∉ ended.errors) ∧
      ended.machine.heap.WellFormed (fun _ => True) ∧
      match parse source with
      | .ok statements =>
          (∀ stmt ∈ statements, stmt.WellFormed (fun _ => True) false) ∧
            ∀ error ∈ ended.errors, error.isStatic = false
      | .error errors => ended.errors = errors ∧ ∀ error ∈ errors, error.isStatic = true := by
  intro fresh ended
  have start : fresh.heap.WellFormed (fun _ => True) := Machine.start_wellFormed _ clock none
  have before := fresh.running_wellFormed earlier (fun _ _ _ _ => trivial) start
  obtain ⟨expected, kept⟩ := run_wellFormed depth source (fun _ _ => trivial) before
  refine ⟨fun fault member => expected _ member, kept, ?_⟩
  split
  · next statements parsed =>
    obtain ⟨sameErrors, _⟩ :=
      run_of_parse depth (fresh.running earlier) parsed
    refine ⟨fun stmt member => (parse_wellFormed parsed stmt member).mono fun _ _ => trivial, ?_⟩
    intro error member
    rw [sameErrors, Option.mem_toList, Option.map_eq_some_iff] at member
    obtain ⟨fault, _, rfl⟩ := member
    rfl
  · next errors rejected =>
    exact ⟨(run_of_rejected depth _ rejected).1, isStatic_of_parse rejected⟩

end Lox
