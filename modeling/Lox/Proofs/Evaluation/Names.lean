import Lox.Proofs.Evaluation.Effect
import Lox.Proofs.Evaluation.Heap

/-!
# Names stay in their scope

What an evaluation does to the scopes that were there before it. An effect
that may not define in the current scope only assigns to names that these
scopes bind: whatever it defines goes to scopes created on the way, calls of
older closures included.
-/

set_option autoImplicit false

namespace Lox

namespace Effect

variable {defines : Bool} {before after : Machine}

theorem nextId_le (effect : Effect defines before after) :
    before.heap.nextId ≤ after.heap.nextId := by
  induction effect with
  | beside heap _ => exact Nat.le_of_eq (congrArg Heap.nextId heap.symm)
  | trans _ _ first second => exact Nat.le_trans first second
  | assign assigned =>
      obtain ⟨holder, _, _, _, rfl⟩ := Heap.assign?_eq_some assigned
      exact Nat.le_of_eq (Heap.nextId_define ..).symm
  | define => exact Nat.le_of_eq (Heap.nextId_define ..).symm
  | within _ ih =>
      rw [Heap.nextId_create] at ih
      exact Nat.le_of_succ_le ih

/-- Any number of the oldest scopes change by assignments, and by definitions
in the current scope if that is one of them. -/
theorem changes (effect : Effect defines before after) :
    ∀ count ≤ before.heap.nextId,
      Heap.Changes (fun id => defines = true ∧ id = before.current ∧ id < count)
        (before.heap.first count) (after.heap.first count) := by
  induction effect with
  | beside heap _ =>
      intro count _
      rw [heap]
      exact .refl _
  | trans effect _ first second =>
      intro count bound
      have later := second count (Nat.le_trans bound effect.nextId_le)
      rw [effect.current] at later
      exact (first count bound).trans later
  | assign assigned =>
      intro count _
      exact Heap.changes_first_of_assign? assigned count
  | @define machine name value =>
      intro count _
      by_cases old : machine.current < count
      · rw [Heap.first_define_of_lt _ _ _ old]
        exact .define (.refl _) ⟨rfl, rfl, old⟩
      · rw [Heap.first_define_of_le _ _ _ (Nat.le_of_not_lt old)]
        exact .refl _
  | @within defines machine enclosing bindings after _ ih =>
      intro count bound
      have inner := ih count ((Heap.nextId_create ..).symm ▸ Nat.le_succ_of_le bound)
      rw [Heap.first_create _ _ _ bound] at inner
      -- The scope that the inner effect may define in is newer than all of these.
      apply inner.mono
      rintro id ⟨_, rfl, old⟩
      exact absurd bound (Nat.not_le_of_lt old)

end Effect

/-- A later heap has every scope of an earlier one in its place, with the scope
around it and its names, and the earlier scopes have changed by assignments only,
and by definitions in scopes that may grow. -/
def Heap.ChangesOnly (grows : ScopeId → Prop) (before after : Heap) : Prop :=
  before.Keeps grows after ∧ Heap.Changes grows before (after.first before.nextId)

theorem Effect.changesOnly {defines : Bool} {before after : Machine}
    (effect : Effect defines before after) :
    before.heap.ChangesOnly (fun id => defines = true ∧ id = before.current) after.heap := by
  have changes := effect.changes before.heap.nextId (Nat.le_refl _)
  rw [Heap.first_nextId] at changes
  have changes := changes.mono fun id ⟨allowed, current, _⟩ => And.intro allowed current
  exact ⟨changes.keeps.of_first, changes⟩

theorem Heap.ChangesOnly.mono {grows grows' : ScopeId → Prop} {before after : Heap}
    (changesOnly : before.ChangesOnly grows after) (weaker : ∀ id, grows id → grows' id) :
    before.ChangesOnly grows' after :=
  have changes := changesOnly.2.mono weaker
  ⟨changes.keeps.of_first, changes⟩

/-- However they end, expressions and blocks give no name to a scope that was
there before, and other statements only to the current one. -/
theorem names_stay_in_their_scope (depth : Nat) (machine : Machine) :
    (∀ expr, machine.heap.ChangesOnly (fun _ => False)
        ((evaluate depth expr).finish machine).heap) ∧
      (∀ statements, machine.heap.ChangesOnly (fun _ => False)
        ((execute depth (.block statements)).finish machine).heap) ∧
      ∀ stmt, machine.heap.ChangesOnly (fun id => id = machine.current)
        ((execute depth stmt).finish machine).heap := by
  refine ⟨?_, ?_, ?_⟩
  · intro expr
    exact (effect_evaluate depth expr machine).changesOnly.mono (by simp)
  · intro statements
    exact (effect_block depth statements machine).changesOnly.mono (by simp)
  · intro stmt
    exact (effect_execute depth stmt machine).changesOnly.mono fun _ grown => grown.2

end Lox
