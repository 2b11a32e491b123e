import Lox.Proofs.Evaluation.Heap

/-!
# Resolving names

A heap is ordered if every scope is newer than the scope around it. Going
outward then never comes back, so the bound on the way does not matter and a name is
resolved in a scope or in the scope around it.
-/

set_option autoImplicit false

namespace Lox

namespace Heap

/-- Every scope is newer than the scope around it. -/
def Ordered (heap : Heap) : Prop :=
  ∀ id scope, heap.get? id = some scope → ∀ outer ∈ scope.enclosing, outer < id

variable {heap : Heap} {id : ScopeId} {name : String}

theorem Ordered.define (ordered : heap.Ordered) (id : ScopeId) (name : String) (value : Value) :
    (heap.define id name value).Ordered := by
  intro other scope found outer around
  rw [get?_define] at found
  split at found
  · next same =>
    subst same
    obtain ⟨before, foundBefore, rfl⟩ := Option.map_eq_some_iff.mp found
    exact ordered other before foundBefore outer around
  · exact ordered other scope found outer around

theorem Ordered.create (ordered : heap.Ordered) {enclosing : ScopeId}
    (old : enclosing < heap.nextId) (bindings : Bindings) :
    (heap.create enclosing bindings).Ordered := by
  intro other scope found outer around
  rw [get?_create] at found
  split at found
  · next same =>
    obtain rfl := Option.some.inj found
    obtain rfl := Option.some.inj around
    exact same ▸ old
  · exact ordered other scope found outer around

/-- Two bounds that both exceed the number of a scope give the same. -/
theorem resolveWithin_eq (ordered : heap.Ordered) (name : String) :
    ∀ (bound bound' : Nat) (id : ScopeId), id < bound → id < bound' →
      heap.resolveWithin name bound id = heap.resolveWithin name bound' id
  | bound + 1, bound' + 1, id, enough, enough' => by
      simp only [resolveWithin]
      cases found : heap.get? id with
      | none => rfl
      | some scope =>
          cases around : scope.enclosing with
          | none => simp only [around]
          | some outer =>
              have newer := ordered id scope found outer around
              have same := resolveWithin_eq ordered name bound bound' outer
                (Nat.lt_of_lt_of_le newer (Nat.le_of_lt_succ enough))
                (Nat.lt_of_lt_of_le newer (Nat.le_of_lt_succ enough'))
              simp only [around, same]

theorem resolve_eq (ordered : heap.Ordered) {scope : Scope} (found : heap.get? id = some scope) :
    heap.resolve id name =
      if scope.binds name then some id else scope.enclosing.bind (heap.resolve · name) := by
  have old : id < heap.scopes.size := lt_nextId found
  obtain ⟨bound, size⟩ : ∃ bound, heap.scopes.size = bound + 1 :=
    Nat.exists_eq_succ_of_ne_zero (Nat.ne_zero_of_lt old)
  cases around : scope.enclosing with
  | none => simp [resolve, size, resolveWithin, found, around]
  | some outer =>
      have newer := ordered id scope found outer around
      have within : outer < bound :=
        Nat.lt_of_lt_of_le newer (Nat.le_of_lt_succ (Nat.lt_of_lt_of_eq old size))
      have same := resolveWithin_eq ordered name bound (bound + 1) outer within
        (Nat.lt_succ_of_lt within)
      simp [resolve, size, resolveWithin, found, around, same]

end Heap

end Lox
