import Lox.Proofs.Evaluation.Capacity

/-!
# Evaluation behind earlier output

Nothing that is evaluated reads what has been written. On a machine without a
limit on its output, an evaluation that starts behind earlier output therefore
ends as it does without that output, and writes the same behind it.
-/

set_option autoImplicit false

namespace Lox

/-- The output with what has been written on an earlier one put in front. -/
def Output.behind (output earlier : Output) : Output where
  written := earlier.written ++ output.written
  writes := earlier.writes + output.writes
  sink := output.sink

theorem Output.write_behind {output : Output} (unlimited : output.sink = .ofCapacity none)
    (earlier : Output) (bytes : ByteArray) :
    (output.behind earlier).write bytes =
      ((output.write bytes).1.behind earlier, (output.write bytes).2) := by
  have unlimitedBehind : (output.behind earlier).sink = .ofCapacity none := unlimited
  rw [write_unlimited unlimited, write_unlimited unlimitedBehind]
  simp only [behind, ByteArray.append_assoc, Nat.add_assoc]

/-- What is written behind a place does not depend on what is written before it. -/
theorem Output.since_behind (output earlier : Output) (start : Nat) :
    (output.behind earlier).since (earlier.written.size + start) = output.since start := by
  simp only [since, behind, ByteArray.size_append]
  rw [ByteArray.extract_append]
  have before : earlier.written.extract (earlier.written.size + start)
      (earlier.written.size + output.written.size) = ByteArray.empty := by
    rw [ByteArray.extract_eq_empty_iff]
    omega
  rw [before, ByteArray.empty_append, Nat.add_sub_cancel_left, Nat.add_sub_cancel_left]

namespace Machine

/-- No write on the machine fails. -/
def Unlimited (machine : Machine) : Prop := machine.output.sink = .ofCapacity none

def behind (machine : Machine) (earlier : Output) : Machine :=
  { machine with output := machine.output.behind earlier }

end Machine

/-- An ending with earlier output put in front of what has been written. -/
def Ending.behind {α : Type} (earlier : Output) :
    EStateM.Result Fault Machine α → EStateM.Result Fault Machine α
  | .ok value after => .ok value (after.behind earlier)
  | .error fault after => .error fault (after.behind earlier)

namespace Action

variable {α β : Type}

/-- Without a limit the action goes on without one, and does the same behind any
earlier output. -/
structure Oblivious (action : Action α) : Prop where
  unlimited : ∀ machine : Machine, machine.Unlimited → (action.finish machine).Unlimited
  behind : ∀ machine : Machine, machine.Unlimited → ∀ earlier,
    action (machine.behind earlier) = Ending.behind earlier (action machine)

theorem Silent.oblivious {action : Action α} (silent : action.Silent) : action.Oblivious where
  unlimited machine unlimited := by
    rw [Machine.Unlimited, silent.output_eq]
    exact unlimited
  behind machine _ earlier := by
    have kept := silent.output_eq machine
    rw [Machine.behind, silent, ← kept, finish]
    cases action machine with
    | ok value after => rfl
    | error fault after => rfl

theorem oblivious_writeLine (text : String) : (writeLine text).Oblivious where
  unlimited machine unlimited := by
    rw [finish, writeLine, Output.write_unlimited unlimited]
    exact unlimited
  behind machine unlimited earlier := by
    have ends := Output.write_behind unlimited earlier (text ++ "\n").toUTF8
    rw [writeLine, writeLine, Machine.behind, ends, Output.write_unlimited unlimited]
    rfl

theorem oblivious_bind {first : Action α} {next : α → Action β} (oblivious : first.Oblivious)
    (obliviousNext : ∀ value, (next value).Oblivious) : (first >>= next).Oblivious where
  unlimited machine unlimited := by
    have kept := oblivious.unlimited machine unlimited
    rw [finish] at kept
    simp only [finish, bind, EStateM.bind]
    cases result : first machine with
    | ok value after =>
        rw [result] at kept
        exact (obliviousNext value).unlimited after kept
    | error fault after =>
        rw [result] at kept
        exact kept
  behind machine unlimited earlier := by
    have kept := oblivious.unlimited machine unlimited
    have ends := oblivious.behind machine unlimited earlier
    rw [finish] at kept
    simp only [bind, EStateM.bind]
    rw [ends]
    cases result : first machine with
    | ok value after =>
        rw [result] at kept
        exact (obliviousNext value).behind after kept earlier
    | error fault after => rfl

theorem oblivious_current {next : ScopeId → Action α}
    (oblivious : ∀ current, (next current).Oblivious) :
    (do next (← get).current : Action α).Oblivious where
  unlimited machine := (oblivious machine.current).unlimited machine
  behind machine := (oblivious machine.current).behind machine

theorem oblivious_within {action : Action α} (oblivious : action.Oblivious) (enclosing : ScopeId)
    (bindings : Bindings) : (within enclosing bindings action).Oblivious where
  unlimited machine unlimited := by
    have kept := oblivious.unlimited (enter enclosing bindings machine) unlimited
    rw [finish] at kept ⊢
    rw [within_eq]
    cases result : action (enter enclosing bindings machine) with
    | ok value after =>
        rw [result] at kept
        exact kept
    | error fault after =>
        rw [result] at kept
        exact kept
  behind machine unlimited earlier := by
    have ends := oblivious.behind (enter enclosing bindings machine) unlimited earlier
    have entered : enter enclosing bindings (machine.behind earlier) =
        (enter enclosing bindings machine).behind earlier := rfl
    rw [within_eq, within_eq, entered, ends]
    cases action (enter enclosing bindings machine) with
    | ok value after => rfl
    | error fault after => rfl

theorem oblivious_compositional : Compositional fun _ action => action.Oblivious where
  silent := Silent.oblivious
  writeLine := oblivious_writeLine
  bind := oblivious_bind
  current := oblivious_current
  within enclosing bindings oblivious := oblivious_within oblivious enclosing bindings

end Action

open Lox.Action

/-- A program ends alike behind any earlier output, with the same written behind it. -/
theorem executeProgram_behind (depth : Nat) (statements : List Stmt) (earlier : Output) :
    ∀ machine : Machine, machine.Unlimited →
      let ended := executeProgram depth statements machine
      ended.2.Unlimited ∧
        executeProgram depth statements (machine.behind earlier) =
          (ended.1, ended.2.behind earlier) := by
  induction statements with
  | nil => exact fun machine unlimited => ⟨unlimited, rfl⟩
  | cons first rest ih =>
      intro machine unlimited
      have oblivious := (oblivious_compositional.evaluation depth).2 first
      have kept := oblivious.unlimited machine unlimited
      have ends := oblivious.behind machine unlimited earlier
      rw [finish] at kept
      simp only [executeProgram]
      rw [ends]
      cases result : execute depth first machine with
      | ok completion after =>
          rw [result] at kept
          cases completion with
          | normal => exact ih after kept
          | returned value => exact ⟨kept, rfl⟩
      | error fault after =>
          rw [result] at kept
          exact ⟨kept, rfl⟩

end Lox
