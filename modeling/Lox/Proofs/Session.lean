import Lox.Session
import Lox.Proofs.Evaluation.EarlierOutput

/-!
# Sessions

The status of a step tells which phase ended it, and of a step that executes
nothing the rest of the session sees nothing: what a step reports depends on
the machine without its output and its notes, and nothing else is changed by
showing trees or by a source that is rejected.
-/

set_option autoImplicit false

namespace Lox

/-! ## Rejected sources -/

theorem parse_eq_error_iff {source : String} :
    (∃ errors, parse source = .error errors) ↔
      Item.errors (Scanner.ofSource source).scan.items ≠ [] ∨
        (parseTokens (tokensOf source)).error ≠ none := by
  constructor
  · rintro ⟨errors, rejected⟩
    obtain ⟨lexical, -⟩ | ⟨-, error, failed, -⟩ := parse_rejects_iff.mp rejected
    · exact .inl lexical
    · exact .inr (by simp [failed])
  · intro faulty
    cases parsed : parse source with
    | error errors => exact ⟨errors, rfl⟩
    | ok statements =>
        obtain ⟨noErrors, accepted, -⟩ := parse_accepts_iff.mp parsed
        exact (faulty.elim (· noErrors) (· accepted)).elim

theorem ne_nil_of_parse {source : String} {errors : List Error}
    (rejected : parse source = .error errors) : errors ≠ [] := by
  obtain ⟨lexical, rfl⟩ | ⟨-, error, -, rfl⟩ := parse_rejects_iff.mp rejected
  · simpa using lexical
  · exact List.cons_ne_nil _ _

/-- Static errors reject a source. -/
theorem Status.ofErrors_of_rejected {source : String} {errors : List Error}
    (rejected : parse source = .error errors) : Status.ofErrors errors = .rejected := by
  rw [ofErrors.eq_2 _ (ne_nil_of_parse rejected), List.all_eq_true.mpr (isStatic_of_parse rejected)]
  rfl

/-- The status of a run: the source was rejected, or its execution stopped or not. -/
theorem Status.ofErrors_run (depth : Nat) (source : String) (machine : Machine) :
    ofErrors (run depth source machine).errors =
      match parse source with
      | .error _ => .rejected
      | .ok statements =>
          match (executeProgram depth statements { machine with notes := #[] }).1 with
          | none => .success
          | some _ => .stopped := by
  cases parsed : parse source with
  | error errors =>
      rw [(run_of_rejected depth machine parsed).1]
      exact ofErrors_of_rejected parsed
  | ok statements =>
      rw [(run_of_parse depth machine parsed).1]
      dsimp only
      cases (executeProgram depth statements { machine with notes := #[] }).1 with
      | none => rfl
      | some fault => rfl

/-! ## Machines without their output and notes -/

namespace Machine

variable {machine : Machine}

def cleared (machine : Machine) : Machine :=
  { machine with output := .ofCapacity none, notes := #[] }

theorem cleared_unlimited (machine : Machine) : machine.cleared.Unlimited := rfl

/-- What has been written can be put in front of a cleared machine again. -/
theorem behind_cleared (unlimited : machine.Unlimited) :
    machine.cleared.behind machine.output = { machine with notes := #[] } := by
  have output : (Output.ofCapacity none).behind machine.output = machine.output := by
    obtain ⟨heap, current, functionsMade, clock, readings, ⟨written, writes, sink⟩, notes⟩ := machine
    obtain rfl : sink = .ofCapacity none := unlimited
    simp only [Output.behind, Output.ofCapacity, ByteArray.append_empty, Nat.add_zero]
  rw [cleared, behind, output]

end Machine

/-- A run ends as it does on the cleared machine, with its output behind the earlier one. -/
theorem run_cleared (depth : Nat) (source : String) {machine : Machine}
    (unlimited : machine.Unlimited) :
    let cleared := run depth source machine.cleared
    cleared.machine.Unlimited ∧ (run depth source machine).errors = cleared.errors ∧
      (run depth source machine).machine = cleared.machine.behind machine.output := by
  intro cleared
  have whole := Machine.behind_cleared unlimited
  cases parsed : parse source with
  | error errors =>
      obtain ⟨sameErrors, sameMachine⟩ := run_of_rejected depth machine parsed
      obtain ⟨clearedErrors, clearedMachine⟩ := run_of_rejected depth machine.cleared parsed
      rw [sameErrors, sameMachine, clearedErrors, clearedMachine]
      exact ⟨rfl, rfl, whole.symm⟩
  | ok statements =>
      obtain ⟨sameErrors, sameMachine⟩ := run_of_parse depth machine parsed
      obtain ⟨clearedErrors, clearedMachine⟩ := run_of_parse depth machine.cleared parsed
      obtain ⟨kept, ended⟩ := executeProgram_behind depth statements machine.output
        { machine.cleared with notes := #[] } rfl
      have ended : executeProgram depth statements { machine with notes := #[] } = _ :=
        whole ▸ ended
      rw [sameErrors, sameMachine, clearedErrors, clearedMachine, ended]
      exact ⟨kept, rfl, rfl⟩

theorem showTrees_behind (statements : List Stmt) (earlier : Output) :
    ∀ output : Output, output.sink = .ofCapacity none →
      let shown := showTrees statements output
      shown.1.sink = .ofCapacity none ∧
        showTrees statements (output.behind earlier) = (shown.1.behind earlier, shown.2) := by
  induction statements with
  | nil => exact fun output unlimited => ⟨unlimited, rfl⟩
  | cons first rest ih =>
      intro output unlimited
      simp only [showTrees]
      rw [Output.write_behind unlimited, Output.write_unlimited unlimited]
      exact ih _ unlimited

/-! ## Steps -/

section Step

variable (depth : Nat) (mode : Mode) (source : String) {machine : Machine}

/-- What a step reports, and all that later steps see of it, is not changed by
clearing the machine before it. -/
theorem step_cleared (unlimited : machine.Unlimited) :
    let taken := step depth mode source machine
    let cleared := step depth mode source machine.cleared
    taken.2.Unlimited ∧ taken.1 = cleared.1 ∧ taken.2.cleared = cleared.2.cleared := by
  cases mode with
  | execute =>
      obtain ⟨kept, errors, ended⟩ := run_cleared depth source unlimited
      have written := (run depth source machine.cleared).machine.output.since_behind machine.output 0
      simp only [step, errors, ended]
      refine ⟨kept, ?_, rfl⟩
      rw [StepReport.mk.injEq]
      exact ⟨rfl, written, rfl⟩
  | showTrees =>
      simp only [step]
      cases parse source with
      | error errors => exact ⟨unlimited, rfl, rfl⟩
      | ok statements =>
          obtain ⟨kept, shown⟩ := showTrees_behind statements machine.output (.ofCapacity none) rfl
          have whole : (Output.ofCapacity none).behind machine.output = machine.output :=
            congrArg Machine.output (Machine.behind_cleared unlimited)
          have written :=
            (showTrees statements (.ofCapacity none)).1.since_behind machine.output 0
          rw [whole] at shown
          simp only [shown]
          refine ⟨kept, ?_, rfl⟩
          rw [StepReport.mk.injEq]
          exact ⟨rfl, written, rfl⟩

/-- A step that executes nothing: it shows trees, or its source is rejected. -/
def ExecutesNothing (mode : Mode) (report : StepReport) : Prop :=
  mode = .showTrees ∨ report.status = some .rejected

/-- Such a step leaves all that later steps see as it was. -/
theorem ExecutesNothing.cleared
    (nothing : ExecutesNothing mode (step depth mode source machine).1) :
    (step depth mode source machine).2.cleared = machine.cleared := by
  cases mode with
  | execute =>
      obtain (⟨⟨⟩⟩ | rejected) := nothing
      simp only [step, Status.ofErrors_run] at rejected ⊢
      cases parsed : parse source with
      | error errors => rw [(run_of_rejected depth machine parsed).2]; rfl
      | ok statements =>
          rw [parsed] at rejected
          cases ended : (executeProgram depth statements { machine with notes := #[] }).1 with
          | none => simp [ended] at rejected
          | some fault => simp [ended] at rejected
  | showTrees =>
      simp only [step]
      cases parse source with
      | error errors => rfl
      | ok statements => rfl

end Step

/-! ## Whole sessions -/

/-- The machine after some steps of a session. -/
def Machine.stepping (depth : Nat) (steps : List (Mode × String)) (machine : Machine) : Machine :=
  steps.foldl (fun machine (mode, source) => (step depth mode source machine).2) machine

theorem session_append (depth : Nat) (earlier later : List (Mode × String)) :
    ∀ machine : Machine, session depth (earlier ++ later) machine =
      session depth earlier machine ++ session depth later (machine.stepping depth earlier) := by
  induction earlier with
  | nil => exact fun machine => rfl
  | cons first rest ih =>
      intro machine
      simp only [List.cons_append, session, ih]
      rfl

theorem length_session (depth : Nat) (steps : List (Mode × String)) :
    ∀ machine : Machine, (session depth steps machine).length = steps.length := by
  induction steps with
  | nil => exact fun machine => rfl
  | cons first rest ih =>
      intro machine
      simp only [session, List.length_cons, ih]

/-- A session reports the same on the cleared machine. -/
theorem session_cleared (depth : Nat) (steps : List (Mode × String)) :
    ∀ machine : Machine, machine.Unlimited →
      session depth steps machine = session depth steps machine.cleared := by
  induction steps with
  | nil => exact fun machine _ => rfl
  | cons first rest ih =>
      intro machine unlimited
      obtain ⟨mode, source⟩ := first
      obtain ⟨kept, report, after⟩ := step_cleared depth mode source unlimited
      obtain ⟨keptCleared, -, -⟩ :=
        step_cleared depth mode source machine.cleared_unlimited
      simp only [session]
      rw [report, ih _ kept, after, ← ih _ keptCleared]

/-- The steps of a session with their reports, from which some steps that
executed nothing are left out. -/
inductive Thinned : List ((Mode × String) × StepReport) → List ((Mode × String) × StepReport) → Prop where
  | nil : Thinned [] []
  | keep {step report steps kept} :
      Thinned steps kept → Thinned ((step, report) :: steps) ((step, report) :: kept)
  | drop {step report steps kept} :
      ExecutesNothing step.1 report → Thinned steps kept → Thinned ((step, report) :: steps) kept

/-- The steps that are kept report in a session of their own what they did in the whole one. -/
theorem session_thinned (depth : Nat) (steps : List (Mode × String)) :
    ∀ (machine : Machine), machine.Unlimited → ∀ kept,
      Thinned (steps.zip (session depth steps machine)) kept →
        session depth (kept.map Prod.fst) machine = kept.map Prod.snd := by
  induction steps with
  | nil =>
      intro machine _ kept thinned
      cases thinned
      rfl
  | cons first rest ih =>
      intro machine unlimited kept thinned
      obtain ⟨mode, source⟩ := first
      have unlimitedAfter := (step_cleared depth mode source unlimited).1
      simp only [session, List.zip_cons_cons] at thinned
      cases thinned with
      | @keep _ _ _ kept thinned =>
          simp only [List.map_cons, session]
          rw [ih _ unlimitedAfter kept thinned]
      | drop nothing thinned =>
          have cleared := ExecutesNothing.cleared depth mode source nothing
          rw [← ih _ unlimitedAfter kept thinned, session_cleared depth _ _ unlimited,
            session_cleared depth _ _ unlimitedAfter, cleared]

/-- In a session on a machine whose writes never fail, every run of a source
has the code 65 if the source has a lexical or a syntax error, 70 if it was
parsed and its execution stopped with a fault, and else 0. Steps with the code
65 and steps that show trees can be left out in any number: the others report
the same without them. -/
theorem rejected_and_shown_steps_leave_no_trace (depth : Nat) (steps : List (Mode × String))
    (machine : Machine) :
    let started := machine.limitedTo none
    let reports := session depth steps started
    (∀ earlier source later, steps = earlier ++ (.execute, source) :: later →
      let before := started.stepping depth earlier
      let code := do return (← (← reports[earlier.length]?).status).code
      (code = some 65 ↔ Item.errors (Scanner.ofSource source).scan.items ≠ [] ∨
        (parseTokens (tokensOf source)).error ≠ none) ∧
      (code = some 70 ↔ ∃ statements fault, parse source = .ok statements ∧
        (executeProgram depth statements { before with notes := #[] }).1 = some fault) ∧
      (code = some 0 ↔ ∃ statements, parse source = .ok statements ∧
        (executeProgram depth statements { before with notes := #[] }).1 = none)) ∧
    ∀ kept, Thinned (steps.zip reports) kept →
      session depth (kept.map Prod.fst) started = kept.map Prod.snd := by
  intro started reports
  have unlimited : started.Unlimited := rfl
  refine ⟨?_, session_thinned depth steps started unlimited⟩
  rintro earlier source later rfl before code
  have status : code = some
      (Status.ofErrors (run depth source before).errors).code := by
    have position := length_session depth earlier started
    simp only [code, reports, session_append, ← position, List.getElem?_append_right (Nat.le_refl _)]
    simp only [Nat.sub_self, session]
    rfl
  rw [status, Status.ofErrors_run, ← parse_eq_error_iff]
  cases parse source with
  | error errors => simp [Status.code]
  | ok statements =>
      cases ended : (executeProgram depth statements { before with notes := #[] }).1 with
      | none => simp [Status.code, ended]
      | some fault => simp [Status.code, ended]

/-- A rejected source and a tree that is shown, between a declaration and its use. -/
theorem declaration_is_used_without_trace :
    let fresh := Machine.start (fun _ => 0) none
    let steps := [(Mode.execute, "var a;"), (.execute, "print"), (.showTrees, "a;"),
      (.execute, "print a;")]
    let reports := session 9 steps fresh
    Thinned (steps.zip reports) ((steps.zip reports).take 1 ++ (steps.zip reports).drop 3) ∧
      session 9 [(.execute, "var a;"), (.execute, "print a;")] fresh =
        reports.take 1 ++ reports.drop 3 := by
  intro fresh steps reports
  have parsed : ∃ errors, parse "print" = .error errors :=
    parse_eq_error_iff.mpr (.inr (by decide +kernel))
  have rejected (machine : Machine) :
      (step 9 .execute "print" machine).1.status = some .rejected := by
    obtain ⟨errors, parsed⟩ := parsed
    simp only [step, Status.ofErrors_run, parsed]
  have thinned :
      Thinned (steps.zip reports) ((steps.zip reports).take 1 ++ (steps.zip reports).drop 3) :=
    .keep (.drop (.inr (rejected _)) (.drop (.inl rfl) (.keep .nil)))
  exact ⟨thinned, (rejected_and_shown_steps_leave_no_trace 9 steps fresh).2 _ thinned⟩

end Lox
