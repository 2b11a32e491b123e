import Lox.Proofs.Evaluation.Composition
import Lox.Proofs.Runs

/-!
# Outputs of limited capacity

Two machines that differ in their sinks only: one sink takes every byte, the
other takes so many bytes in all. As long as these are enough, both machines do the
same. The write that exceeds them stops the limited machine, whatever it stands
in, with the first bytes of what the other machine writes by then and later.
-/

set_option autoImplicit false

namespace Lox

/-- The machine with a sink that takes so many bytes in all, or every byte. -/
def Machine.limitedTo (capacity : Option Nat) (machine : Machine) : Machine :=
  { machine with output := { machine.output with sink := .ofCapacity capacity } }

/-- A machine without a limit that has not written too much, and the same machine with a limit. -/
structure Machine.Fits (capacity : Nat) (whole limited : Machine) : Prop where
  unlimited : whole.output.sink = .ofCapacity none
  limited : limited = whole.limitedTo (some capacity)
  room : whole.output.written.size ≤ capacity

/-- A machine without a limit that has written too much, and one that has
written what fits of it. -/
structure Machine.Overflows (capacity : Nat) (whole limited : Machine) : Prop where
  unlimited : whole.output.sink = .ofCapacity none
  exceeded : capacity < whole.output.written.size
  kept : limited.output.written = whole.output.written.extract 0 capacity

theorem Machine.Overflows.of_output {capacity : Nat} {whole limited whole' limited' : Machine}
    (overflows : whole.Overflows capacity limited) (same : whole'.output = whole.output)
    (same' : limited'.output = limited.output) : whole'.Overflows capacity limited' where
  unlimited := same ▸ overflows.unlimited
  exceeded := same ▸ overflows.exceeded
  kept := by rw [same, same', overflows.kept]

/-- Endings without and with a limit: the same as long as all fits, and else
the limited one is a full output, whatever the other has gone on to. -/
inductive EndsWithin (capacity : Nat) {α : Type} :
    EStateM.Result Fault Machine α → EStateM.Result Fault Machine α → Prop where
  | ok {value after limited} :
      after.Fits capacity limited → EndsWithin capacity (.ok value after) (.ok value limited)
  | error {fault after limited} :
      after.Fits capacity limited → EndsWithin capacity (.error fault after) (.error fault limited)
  | okFull {value after limited} : after.Overflows capacity limited →
      EndsWithin capacity (.ok value after) (.error .outputFull limited)
  | errorFull {fault after limited} : after.Overflows capacity limited →
      EndsWithin capacity (.error fault after) (.error .outputFull limited)

/-- Once a machine has written too much it goes on to have done so, and what fits stays the same. -/
def Contract.overflow (capacity : Nat) (limited : Machine) : Contract where
  invariant machine := machine.Overflows capacity limited
  allows _ _ := True
  expected _ := True
  refl _ := trivial
  trans _ _ := trivial

/-! ## Writes -/

namespace Output

variable {output : Output} {capacity : Nat} {written : ByteArray}

theorem write_unlimited (unlimited : output.sink = .ofCapacity none) (bytes : ByteArray) :
    output.write bytes =
      ({ output with written := output.written ++ bytes, writes := output.writes + 1 }, true) := by
  rw [write, unlimited]
  rfl

theorem write_limited (limited : output.sink = .ofCapacity (some capacity)) (bytes : ByteArray) :
    output.write bytes =
      if bytes.size ≤ capacity - output.written.size then
        ({ output with written := output.written ++ bytes, writes := output.writes + 1 }, true)
      else
        ({ output with
            written := output.written ++ bytes.extract 0 (capacity - output.written.size)
            writes := output.writes + 1 }, false) := by
  rw [write, limited]
  by_cases enough : bytes.size ≤ capacity - output.written.size
  · simp only [Sink.ofCapacity, enough, if_true]
  · simp only [Sink.ofCapacity, enough, if_false]

/-- The first bytes are not changed by what is written behind them. -/
theorem first_append_of_le (enough : capacity ≤ written.size) (bytes : ByteArray) :
    (written ++ bytes).extract 0 capacity = written.extract 0 capacity := by
  have none : capacity - written.size = 0 := by omega
  rw [ByteArray.extract_append, Nat.zero_sub, none, ByteArray.extract_same,
    ByteArray.append_empty]

/-- Of what is written behind some bytes, the first ones are those that fit. -/
theorem first_of_append (room : written.size ≤ capacity) (bytes : ByteArray) :
    written ++ bytes.extract 0 (capacity - written.size) =
      (written ++ bytes).extract 0 capacity := by
  have all : written.extract 0 capacity = written := by
    rw [← Nat.max_eq_left room, ByteArray.extract_zero_max_size]
  rw [ByteArray.extract_append, Nat.zero_sub, all]

theorem size_since (output : Output) (start : Nat) :
    (output.since start).size = output.written.size - start := by
  rw [since, ByteArray.size_extract, Nat.min_self]

/-- If an output keeps the first bytes of another one, it has the first of those
that are behind a place. -/
theorem since_of_kept {whole : Output} {start count : Nat}
    (exceeded : start + count < whole.written.size)
    (kept : output.written = whole.written.extract 0 (start + count)) :
    output.since start = (whole.since start).extract 0 count := by
  have size : output.written.size = start + count := by
    rw [kept, ByteArray.size_extract]
    omega
  have last : min (start + count) whole.written.size = start + count := by omega
  rw [since, since, size, kept, ByteArray.extract_extract, ByteArray.extract_extract, last,
    Nat.zero_add, Nat.zero_add, Nat.add_zero, Nat.min_self]

end Output

namespace Action

variable {α β : Type} {capacity : Nat}

/-- With a limit the action does what it does without one, up to the write that is too much. -/
structure Limits (capacity : Nat) (action : Action α) : Prop where
  within : ∀ whole limited, whole.Fits capacity limited →
    EndsWithin capacity (action whole) (action limited)
  beyond : ∀ limited, action.Keeps (.overflow capacity limited) fun _ => True

/-! ## Combinations -/

theorem limits_bind {first : Action α} {next : α → Action β} (limits : first.Limits capacity)
    (limitsNext : ∀ value, (next value).Limits capacity) : (first >>= next).Limits capacity where
  within whole limited fits := by
    have ends := limits.within whole limited fits
    simp only [bind, EStateM.bind]
    generalize first whole = ending at ends
    generalize first limited = ending' at ends
    cases ends with
    | ok fits => exact (limitsNext _).within _ _ fits
    | error fits => exact .error fits
    | errorFull overflows => exact .errorFull overflows
    | @okFull value after limited overflows =>
        have later := (limitsNext value).beyond limited after overflows
        dsimp only
        cases result : next value after with
        | ok value last =>
            rw [result] at later
            exact .okFull later.2.1
        | error fault last =>
            rw [result] at later
            exact .errorFull later.2.1
  beyond limited := keeps_bind (limits.beyond limited) fun value _ =>
    (limitsNext value).beyond limited

/-- What an action sees of the current scope does not depend on the output. -/
theorem limits_current {next : ScopeId → Action α}
    (limits : ∀ current, (next current).Limits capacity) :
    (do next (← get).current : Action α).Limits capacity where
  within whole limited fits := by
    have same : limited.current = whole.current := by
      rw [fits.limited]
      rfl
    have ends := (limits whole.current).within whole limited fits
    change EndsWithin capacity (next whole.current whole) (next limited.current limited)
    rw [same]
    exact ends
  beyond limited := keeps_bind keeps_get fun machine _ => (limits machine.current).beyond limited

/-! ## Single actions -/

theorem Silent.limits {action : Action α} (silent : action.Silent) : action.Limits capacity where
  within whole limited fits := by
    obtain ⟨unlimited, rfl, room⟩ := fits
    have kept := silent.output_eq whole
    have ends := silent whole { whole.output with sink := .ofCapacity (some capacity) }
    rw [Machine.limitedTo, ends]
    rw [finish] at kept
    cases result : action whole with
    | ok value after =>
        rw [result] at kept
        dsimp only at kept ⊢
        rw [← kept] at unlimited room ⊢
        exact .ok ⟨unlimited, rfl, room⟩
    | error fault after =>
        rw [result] at kept
        dsimp only at kept ⊢
        rw [← kept] at unlimited room ⊢
        exact .error ⟨unlimited, rfl, room⟩
  beyond limited machine overflows := by
    have kept := silent.output_eq machine
    rw [finish] at kept
    cases result : action machine with
    | ok value after =>
        rw [result] at kept
        exact ⟨trivial, overflows.of_output kept rfl, trivial⟩
    | error fault after =>
        rw [result] at kept
        exact ⟨trivial, overflows.of_output kept rfl, trivial⟩

/-- The one action that a limit can stop. Without a limit it takes all bytes; with
one it takes those that fit, and if these are not all the output is full. -/
theorem limits_writeLine (text : String) : (writeLine text).Limits capacity where
  within whole limited fits := by
    obtain ⟨unlimited, rfl, room⟩ := fits
    rw [writeLine, writeLine, Output.write_unlimited unlimited, Machine.limitedTo,
      Output.write_limited rfl]
    generalize (text ++ "\n").toUTF8 = bytes
    by_cases enough : bytes.size ≤ capacity - whole.output.written.size
    · rw [if_pos enough]
      refine .ok ⟨unlimited, rfl, ?_⟩
      simp only [ByteArray.size_append]
      omega
    · rw [if_neg enough]
      refine .okFull ⟨unlimited, ?_, ?_⟩
      · simp only [ByteArray.size_append]
        omega
      · exact Output.first_of_append room bytes
  beyond limited machine overflows := by
    obtain ⟨unlimited, exceeded, kept⟩ := overflows
    rw [writeLine, Output.write_unlimited unlimited]
    refine ⟨trivial, ⟨unlimited, ?_, ?_⟩, trivial⟩
    · exact Nat.lt_of_lt_of_le exceeded (by simp only [ByteArray.size_append]; omega)
    · rw [kept, Output.first_append_of_le (Nat.le_of_lt exceeded)]

theorem limits_within {action : Action α} (limits : action.Limits capacity) (enclosing : ScopeId)
    (bindings : Bindings) : (within enclosing bindings action).Limits capacity where
  within whole limited fits := by
    obtain ⟨unlimited, rfl, room⟩ := fits
    have ends := limits.within (enter enclosing bindings whole)
      (enter enclosing bindings (whole.limitedTo (some capacity))) ⟨unlimited, rfl, room⟩
    rw [within_eq, within_eq]
    generalize action (enter enclosing bindings whole) = ending at ends
    generalize action (enter enclosing bindings (whole.limitedTo (some capacity))) = ending' at ends
    cases ends with
    | ok fits =>
        obtain ⟨unlimited, rfl, room⟩ := fits
        exact .ok ⟨unlimited, rfl, room⟩
    | error fits =>
        obtain ⟨unlimited, rfl, room⟩ := fits
        exact .error ⟨unlimited, rfl, room⟩
    | okFull overflows => exact .okFull (overflows.of_output rfl rfl)
    | errorFull overflows => exact .errorFull (overflows.of_output rfl rfl)
  beyond limited machine overflows := by
    have inner := limits.beyond limited (enter enclosing bindings machine)
      (overflows.of_output rfl rfl)
    rw [within_eq]
    cases result : action (enter enclosing bindings machine) with
    | ok value after =>
        rw [result] at inner
        exact ⟨trivial, inner.2.1.of_output rfl rfl, trivial⟩
    | error fault after =>
        rw [result] at inner
        exact ⟨trivial, inner.2.1.of_output rfl rfl, trivial⟩

end Action

open Lox.Action

/-- A limit on the output changes no evaluation but by stopping it at a write. -/
theorem limits_evaluation (capacity depth : Nat) :
    (∀ expr, (evaluate depth expr).Limits capacity) ∧
      ∀ stmt, (execute depth stmt).Limits capacity := by
  have limits : Compositional fun _ action => action.Limits capacity :=
    { silent := Silent.limits
      writeLine := limits_writeLine
      bind := limits_bind
      current := limits_current
      within := fun enclosing bindings limits => limits_within limits enclosing bindings }
  exact limits.evaluation depth

theorem executeProgram_overflows {capacity : Nat} {limited : Machine} (depth : Nat)
    (statements : List Stmt) {machine : Machine} (overflows : machine.Overflows capacity limited) :
    (executeProgram depth statements machine).2.Overflows capacity limited := by
  have keeps : ∀ stmt ∈ statements,
      (execute depth stmt).Keeps (.overflow capacity limited) fun _ => True :=
    fun stmt _ => ((limits_evaluation capacity depth).2 stmt).beyond limited
  have noted : ∀ (machine : Machine) note, machine.Overflows capacity limited →
      (machine.addNote note).Overflows capacity limited ∧ True :=
    fun _ _ overflows => ⟨overflows.of_output rfl rfl, trivial⟩
  exact (keeps_executeProgram noted (fun _ _ => trivial) keeps machine overflows).2.1

/-- A program either ends alike with and without a limit, or the limit stops it
with a full output. -/
theorem executeProgram_limits {capacity : Nat} (depth : Nat) (statements : List Stmt) :
    ∀ {whole limited : Machine}, whole.Fits capacity limited →
      let ended := executeProgram depth statements whole
      let stopped := executeProgram depth statements limited
      (stopped.1 = ended.1 ∧ ended.2.Fits capacity stopped.2) ∨
        (stopped.1 = some .outputFull ∧ ended.2.Overflows capacity stopped.2) := by
  induction statements with
  | nil => exact fun fits => .inl ⟨rfl, fits⟩
  | cons first rest ih =>
      intro whole limited fits
      have ends := ((limits_evaluation capacity depth).2 first).within whole limited fits
      simp only [executeProgram]
      generalize execute depth first whole = ending at ends
      generalize execute depth first limited = ending' at ends
      cases ends with
      | @ok completion _ _ fits =>
          cases completion with
          | normal => exact ih fits
          | returned value => exact .inl ⟨rfl, fits⟩
      | error fits =>
          obtain ⟨unlimited, rfl, room⟩ := fits
          exact .inl ⟨rfl, ⟨unlimited, rfl, room⟩⟩
      | @okFull completion after stopped overflows =>
          have noted : after.Overflows capacity
              (stopped.addNote (.halted Fault.outputFull.message)) :=
            overflows.of_output rfl rfl
          cases completion with
          | normal => exact .inr ⟨rfl, executeProgram_overflows depth rest noted⟩
          | returned value => exact .inr ⟨rfl, noted⟩
      | errorFull overflows => exact .inr ⟨rfl, overflows.of_output rfl rfl⟩

/-- A run on any machine whose output takes so many bytes more, compared with
the run on the same machine without a limit. If that run ends, so does the
limited one. If it writes no more than fits, the limited run has the same
errors and output and leaves the same machine; else the limited run writes the
bytes that fit, and its only error is the full output. -/
theorem full_output_cuts_run_short (depth : Nat) (source : String) (machine : Machine)
    (count : Nat) :
    let start := machine.output.written.size
    let whole := run depth source (machine.limitedTo none)
    let limited := run depth source (machine.limitedTo (some (start + count)))
    let written := whole.machine.output.since start
    (.evaluation .tooDeep ∉ whole.errors → .evaluation .tooDeep ∉ limited.errors) ∧
      if written.size ≤ count then
        limited.machine.output.since start = written ∧ limited.errors = whole.errors ∧
          limited.machine = whole.machine.limitedTo (some (start + count))
      else
        limited.machine.output.since start = written.extract 0 count ∧
          limited.errors = [.evaluation .outputFull] := by
  intro start whole limited written
  have size : written.size = whole.machine.output.written.size - start := Output.size_since _ _
  -- Everything follows from how the two runs end, as for the programs.
  suffices ended : (limited.errors = whole.errors ∧
        whole.machine.Fits (start + count) limited.machine) ∨
      (limited.errors = [.evaluation .outputFull] ∧
        whole.machine.Overflows (start + count) limited.machine) by
    cases ended with
    | inl alike =>
        obtain ⟨errors, _, machines, room⟩ := alike
        refine ⟨fun ends => errors ▸ ends, ?_⟩
        rw [if_pos (by omega)]
        exact ⟨by rw [machines]; rfl, errors, machines⟩
    | inr full =>
        obtain ⟨errors, _, exceeded, kept⟩ := full
        refine ⟨fun _ => by simp [errors], ?_⟩
        rw [if_neg (by omega)]
        exact ⟨Output.since_of_kept exceeded kept, errors⟩
  have fits : { machine.limitedTo none with notes := #[] }.Fits (start + count)
      { machine.limitedTo (some (start + count)) with notes := #[] } :=
    ⟨rfl, rfl, Nat.le_add_right start count⟩
  cases parsed : parse source with
  | error errors =>
      obtain ⟨errorsWhole, machineWhole⟩ := run_of_rejected depth (machine.limitedTo none) parsed
      obtain ⟨errorsLimited, machineLimited⟩ :=
        run_of_rejected depth (machine.limitedTo (some (start + count))) parsed
      refine .inl ⟨errorsLimited.trans errorsWhole.symm, ?_⟩
      rw [machineWhole, machineLimited]
      exact fits
  | ok statements =>
      obtain ⟨errorsWhole, machineWhole⟩ := run_of_parse depth (machine.limitedTo none) parsed
      obtain ⟨errorsLimited, machineLimited⟩ :=
        run_of_parse depth (machine.limitedTo (some (start + count))) parsed
      rw [errorsWhole, errorsLimited, machineWhole, machineLimited]
      cases executeProgram_limits depth statements fits with
      | inl alike => exact .inl ⟨by rw [alike.1], alike.2⟩
      | inr full => exact .inr ⟨by rw [full.1]; rfl, full.2⟩

end Lox
