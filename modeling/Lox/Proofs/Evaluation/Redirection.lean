import Lox.Proofs.Evaluation.Resolution
import Lox.Proofs.Evaluation.Steps

/-!
# Names that are found elsewhere later

Names are resolved anew whenever they are read or assigned, so the scope in
which a name is found from some scope may change in the course of a run. It
changes by one kind of step only: a declaration that gives the name to a scope
on the way, while that scope is current.
-/

set_option autoImplicit false

namespace Lox

namespace Heap

variable {heap before after : Heap} {id holder : ScopeId} {name : String}

/-- From a scope to another one by going outward. -/
inductive Outward (heap : Heap) : ScopeId → ScopeId → Prop where
  | refl (id : ScopeId) : Outward heap id id
  | step {id scope outer far} :
      heap.get? id = some scope → scope.enclosing = some outer → Outward heap outer far →
      Outward heap id far

theorem Outward.trans {near middle far : ScopeId} (first : heap.Outward near middle)
    (second : heap.Outward middle far) : heap.Outward near far := by
  induction first with
  | refl => exact second
  | step found around _ ih => exact .step found around (ih second)

/-- The way outward from a scope stays as it is. -/
theorem Outward.later {grows : ScopeId → Prop} {near far : ScopeId}
    (outward : before.Outward near far) (keeps : before.Keeps grows after) :
    after.Outward near far := by
  induction outward with
  | refl => exact .refl _
  | step found around _ ih =>
      obtain ⟨later, foundLater, grown⟩ := keeps _ _ found
      exact .step foundLater (grown.enclosing.trans around) ih

theorem outward_of_resolve (resolved : heap.resolve id name = some holder) :
    heap.Outward id holder := by
  rw [resolve] at resolved
  generalize heap.scopes.size = bound at resolved
  induction bound generalizing id with
  | zero => cases resolved
  | succ bound ih =>
      rw [resolveWithin] at resolved
      split at resolved
      · cases resolved
      · next scope found =>
        split at resolved
        · obtain rfl := Option.some.inj resolved
          exact .refl _
        · split at resolved
          · cases resolved
          · next outer around => exact .step found around (ih resolved)

theorem exists_get?_of_resolve (resolved : heap.resolve id name = some holder) :
    ∃ scope, heap.get? id = some scope := by
  cases outward_of_resolve resolved with
  | refl =>
      obtain ⟨scope, found, _⟩ := binds_of_resolveWithin resolved
      exact ⟨scope, found⟩
  | step found _ _ => exact ⟨_, found⟩

/-! ## Resolving after a change -/

/-- Through a scope that still binds the name or not as before, it is found there as
before, or it is as it is further out. -/
theorem resolve_through (ordered : heap.Ordered) (orderedAfter : after.Ordered)
    {scope scopeAfter : Scope} (found : heap.get? id = some scope)
    (foundAfter : after.get? id = some scopeAfter)
    (sameBinds : scopeAfter.binds name = scope.binds name)
    (sameEnclosing : scopeAfter.enclosing = scope.enclosing)
    (resolved : heap.resolve id name = some holder) :
    after.resolve id name = some holder ∨ ∃ outer < id,
      heap.resolve outer name = some holder ∧
        after.resolve id name = after.resolve outer name := by
  rw [resolve_eq ordered found] at resolved
  rw [resolve_eq orderedAfter foundAfter, sameBinds, sameEnclosing]
  cases binds : scope.binds name with
  | true =>
      rw [if_pos binds] at resolved
      exact .inl resolved
  | false =>
      rw [binds] at resolved
      obtain ⟨outer, around, resolved⟩ := Option.bind_eq_some_iff.mp resolved
      refine .inr ⟨outer, ordered id scope found outer around, resolved, ?_⟩
      rw [around]
      rfl

/-- From the scopes that are there already a new one is not seen. -/
theorem resolve_create (ordered : heap.Ordered) {enclosing : ScopeId}
    (old : enclosing < heap.nextId) (bindings : Bindings)
    (resolved : heap.resolve id name = some holder) :
    (heap.create enclosing bindings).resolve id name = some holder := by
  induction id using Nat.strongRecOn with
  | ind id ih =>
      obtain ⟨scope, found⟩ := exists_get?_of_resolve resolved
      have foundAfter : (heap.create enclosing bindings).get? id = some scope := by
        rw [get?_create, if_neg (Nat.ne_of_lt (lt_nextId found)), found]
      obtain here | ⟨outer, further, resolved, same⟩ := resolve_through ordered
        (ordered.create old bindings) found foundAfter rfl rfl resolved
      · exact here
      · rw [same]
        exact ih outer further resolved

/-- After a definition a name is found where it was, or in the scope that has
been given this very name. That scope is on the way to where it was found
from there too. -/
theorem resolve_define (ordered : heap.Ordered) (target : ScopeId) (declared : String)
    (value : Value) (resolved : heap.resolve id name = some holder) :
    (heap.define target declared value).resolve id name = some holder ∨
      declared = name ∧ heap.resolve target name = some holder ∧
        (heap.define target declared value).resolve id name = some target := by
  have orderedAfter := ordered.define target declared value
  induction id using Nat.strongRecOn with
  | ind id ih =>
      obtain ⟨scope, found⟩ := exists_get?_of_resolve resolved
      by_cases isTarget : id = target
      · subst isTarget
        have foundAfter : (heap.define id declared value).get? id =
            some (scope.define declared value) := by
          simp [get?_define, found]
        by_cases same : name = declared
        · have bound : (scope.define declared value).binds name = true := by
            simp [Scope.binds_define, same]
          exact .inr ⟨same.symm, resolved, resolve_of_binds foundAfter bound⟩
        · have sameBinds : (scope.define declared value).binds name = scope.binds name := by
            simp [Scope.binds_define, same]
          obtain here | ⟨outer, further, resolved, moved⟩ :=
            resolve_through ordered orderedAfter found foundAfter sameBinds rfl resolved
          · exact .inl here
          · rw [moved]
            exact ih outer further resolved
      · have foundAfter : (heap.define target declared value).get? id = some scope := by
          rw [get?_define, if_neg isTarget, found]
        obtain here | ⟨outer, further, resolved, moved⟩ :=
          resolve_through ordered orderedAfter found foundAfter rfl rfl resolved
        · exact .inl here
        · rw [moved]
          exact ih outer further resolved

/-- No assignment changes where a name is found. -/
theorem resolve_assign (ordered : heap.Ordered) {start : ScopeId} {assigned : String}
    {value : Value} (done : heap.assign? start assigned value = some after)
    (resolved : heap.resolve id name = some holder) :
    after.resolve id name = some holder := by
  obtain ⟨target, scope, found, binds, rfl⟩ := assign?_eq_some done
  obtain same | ⟨rfl, fromTarget, moved⟩ := resolve_define ordered target assigned value resolved
  · exact same
  · rw [resolve_of_binds found binds] at fromTarget
    rw [moved, fromTarget]

end Heap

/-! ## From one moment to the next -/

namespace Machine

variable {before after : Machine}

/-- A declaration is executed in a scope and gives it a name that it did not bind. -/
structure Declares (scope : ScopeId) (name : String) (before after : Machine) : Prop where
  current : before.current = scope
  unbound : ∀ found, before.heap.get? scope = some found → ¬found.binds name
  declared : ∃ (token : Token) (value : Value), token.lexeme = name ∧
    Action.define token value before = .ok () after

theorem Step.ordered (step : Step before after) (ordered : before.heap.Ordered) :
    after.heap.Ordered := by
  cases step with
  | still heap => exact heap ▸ ordered
  | assign done =>
      obtain ⟨target, _, _, _, changed⟩ := Heap.assign?_eq_some done
      exact changed ▸ ordered.define target _ _
  | declare done =>
      cases done
      exact ordered.define _ _ _
  | enter old same => exact same ▸ ordered.create old _

theorem Step.keeps (step : Step before after) : before.heap.Keeps (fun _ => True) after.heap := by
  cases step with
  | still heap => exact heap ▸ .refl _
  | assign done => exact (Heap.Changes.assign (.refl _) done).keeps
  | declare done =>
      cases done
      exact .define _ _ _ _ fun _ _ => .inr trivial
  | enter _ same => exact same ▸ .create _ _ _ _

/-- One step leaves a name to be found where it was, or declares it in a scope on the way. -/
theorem Step.resolve (step : Step before after) (ordered : before.heap.Ordered)
    {id holder : ScopeId} {name : String} (resolved : before.heap.resolve id name = some holder) :
    ∃ found, after.heap.resolve id name = some found ∧ before.heap.Outward found holder ∧
      (found = holder ∨ Declares found name before after) := by
  cases step with
  | still heap => exact ⟨holder, heap ▸ resolved, .refl _, .inl rfl⟩
  | assign done => exact ⟨holder, Heap.resolve_assign ordered done resolved, .refl _, .inl rfl⟩
  | enter old same =>
      exact ⟨holder, same ▸ Heap.resolve_create ordered old _ resolved, .refl _, .inl rfl⟩
  | @declare token value done =>
      have whole := done
      cases done
      obtain same | ⟨same, fromTarget, moved⟩ :=
        Heap.resolve_define ordered before.current token.lexeme value resolved
      · exact ⟨holder, same, .refl _, .inl rfl⟩
      · refine ⟨before.current, moved, Heap.outward_of_resolve fromTarget, ?_⟩
        by_cases bound : before.current = holder
        · exact .inl bound
        · refine .inr ⟨rfl, ?_, token, value, same, whole⟩
          intro found isCurrent binds
          rw [Heap.resolve_of_binds isCurrent binds] at fromTarget
          exact bound (Option.some.inj fromTarget)

/-! ## From one moment to any later one -/

theorem Passes.ordered {first last : Machine} {moments : List Machine}
    (passes : Passes first moments last) (ordered : first.heap.Ordered) :
    ∀ moment ∈ first :: moments, moment.heap.Ordered := by
  induction passes with
  | nil => simpa using ordered
  | cons step _ ih => exact List.forall_mem_cons.mpr ⟨ordered, ih (step.ordered ordered)⟩

/-- By any number of steps a name comes to be found elsewhere only by
declarations of it, each in a scope on the way to where it was found before. -/
theorem resolve_of_isChain {moments : List Machine} (chain : moments.IsChain Step)
    (ordered : ∀ moment ∈ moments, moment.heap.Ordered) {earlier : Nat} {first : Machine}
    (isFirst : moments[earlier]? = some first) {id holder : ScopeId} {name : String}
    (resolved : first.heap.resolve id name = some holder) (steps : Nat) :
    ∀ last, moments[earlier + steps]? = some last →
      ∃ found, last.heap.resolve id name = some found ∧ last.heap.Outward found holder ∧
        (found = holder ∨ ∃ between before after, earlier ≤ between ∧ between < earlier + steps ∧
          moments[between]? = some before ∧ moments[between + 1]? = some after ∧
          Declares found name before after) := by
  induction steps with
  | zero =>
      intro last isLast
      obtain rfl := Option.some.inj (isFirst.symm.trans isLast)
      exact ⟨holder, resolved, .refl _, .inl rfl⟩
  | succ steps ih =>
      intro last isLast
      obtain ⟨within, same⟩ := List.getElem?_eq_some_iff.mp isLast
      have isBefore : moments[earlier + steps]? = some moments[earlier + steps] :=
        List.getElem?_eq_getElem _
      obtain ⟨middle, resolved, outward, moved⟩ := ih _ isBefore
      have step : Step moments[earlier + steps] last :=
        same ▸ List.isChain_iff_getElem.mp chain (earlier + steps) within
      obtain ⟨found, resolved, further, declared⟩ :=
        step.resolve (ordered _ (List.getElem_mem _)) resolved
      refine ⟨found, resolved, (further.trans outward).later step.keeps, ?_⟩
      obtain rfl | declared := declared
      · refine moved.imp_right ?_
        rintro ⟨between, before, after, behind, ahead, isBetween, isNext, declares⟩
        exact ⟨between, before, after, behind, Nat.lt_succ_of_lt ahead, isBetween, isNext, declares⟩
      · exact .inr ⟨earlier + steps, _, _, Nat.le_add_right _ _, Nat.lt_succ_self _, isBefore,
          isLast, declared⟩

end Machine

/-- Of sources run in turn on a machine that starts afresh, each moment comes
from the one before by a single step. A name that is found in some scope at
one moment, as seen from any scope, is still found at every later one: in that
scope, or in one on the way to it that a declaration has given the name in the
meantime, executed while that scope was current and did not bind it. -/
theorem names_move_by_declarations_only (clock : Nat → Float) (output : Output)
    (sources : List (Nat × String)) :
    let fresh : Machine := { Machine.start clock none with output }
    let history := fresh.history sources
    history.IsChain Machine.Step ∧ history.getLast? = some (fresh.running sources) ∧
      ∀ earlier later first last, earlier ≤ later → history[earlier]? = some first →
        history[later]? = some last → ∀ scope name holder,
          first.heap.resolve scope name = some holder →
          ∃ found, last.heap.resolve scope name = some found ∧
            last.heap.Outward scope found ∧ last.heap.Outward found holder ∧
            (found = holder ∨ ∃ between before after, earlier ≤ between ∧ between < later ∧
              history[between]? = some before ∧ history[between + 1]? = some after ∧
              before.Declares found name after) := by
  intro fresh history
  have started := Machine.start_coherent clock none
  have coherent : fresh.Coherent := ⟨started.ordered, started.current, started.closures⟩
  have passes : fresh.Passes (fresh.moments sources) (fresh.running sources) :=
    fresh.moments_passes sources coherent
  refine ⟨passes.isChain, passes.getLast?, ?_⟩
  intro earlier later first last order isFirst isLast scope name holder resolved
  obtain ⟨steps, rfl⟩ := Nat.exists_eq_add_of_le order
  obtain ⟨found, resolvedLater, outward, moved⟩ := Machine.resolve_of_isChain passes.isChain
    (passes.ordered coherent.ordered) isFirst resolved steps last isLast
  exact ⟨found, resolvedLater, Heap.outward_of_resolve resolvedLater, outward, moved⟩

/-- A block that declares a name behind a function in it that reads the global one. -/
def lateDeclaration : String :=
  "var a = \"global\"; \x7b fun show() \x7b print a; \x7d show(); var a = \"block\"; show(); \x7d"

/-- Before and after the late declaration the function is found in the block, and
its name first in the global scope and then in the block. -/
theorem moments_of_lateDeclaration :
    let history := (Machine.start (fun _ => 0) none).history [(99, lateDeclaration)]
    (history[5]?.bind fun first => (first.heap.read? 1 "show").map fun value =>
        (value.equals (.function ⟨0, 1, .ending 1, [], []⟩), first.heap.resolve 1 "a")) =
      some (true, some 0) ∧
    (history[10]?.map fun last => last.heap.resolve 1 "a") = some (some 1) := by
  decide +kernel

/-- As seen from the block, the name has moved into it. -/
theorem late_declaration_moves_a_name :
    let history := (Machine.start (fun _ => 0) none).history [(99, lateDeclaration)]
    ∃ first last, history[5]? = some first ∧ history[10]? = some last ∧
      first.heap.resolve 1 "a" = some 0 ∧
      ∃ found, last.heap.resolve 1 "a" = some found ∧
        last.heap.Outward 1 found ∧ last.heap.Outward found 0 ∧
        (found = 0 ∨ ∃ between before after, 5 ≤ between ∧ between < 10 ∧
          history[between]? = some before ∧ history[between + 1]? = some after ∧
          before.Declares found "a" after) := by
  intro history
  obtain ⟨earlier, later⟩ := moments_of_lateDeclaration
  obtain ⟨first, isFirst, earlier⟩ := Option.bind_eq_some_iff.mp earlier
  obtain ⟨value, _, earlier⟩ := Option.map_eq_some_iff.mp earlier
  obtain ⟨_, resolved⟩ := Prod.mk.inj earlier
  obtain ⟨last, isLast, _⟩ := Option.map_eq_some_iff.mp later
  obtain ⟨_, _, moved⟩ :=
    names_move_by_declarations_only (fun _ => 0) (.ofCapacity none) [(99, lateDeclaration)]
  exact ⟨first, last, isFirst, isLast, resolved,
    moved 5 10 first last (by decide) isFirst isLast 1 "a" 0 resolved⟩

/-- The function in that block first finds the name in the global scope and then
in the block: one and the same closure refers to two declarations in turn. -/
theorem closure_finds_a_name_elsewhere_later :
    let history := (Machine.start (fun _ => 0) none).history [(99, lateDeclaration)]
    (∃ statements, parse lateDeclaration = .ok statements) ∧
      ∃ first last closure, history[5]? = some first ∧ history[10]? = some last ∧
        first.heap.read? 1 "show" = some (.function closure) ∧
        first.heap.resolve closure.scope "a" = some 0 ∧
        last.heap.resolve closure.scope "a" = some 1 := by
  intro history
  have parsed : (parse lateDeclaration).toOption.isSome = true := by decide +kernel
  obtain ⟨earlier, later⟩ := moments_of_lateDeclaration
  constructor
  · cases result : parse lateDeclaration with
    | ok statements => exact ⟨statements, rfl⟩
    | error errors => simp [result, Except.toOption] at parsed
  · obtain ⟨first, isFirst, earlier⟩ := Option.bind_eq_some_iff.mp earlier
    obtain ⟨value, isValue, earlier⟩ := Option.map_eq_some_iff.mp earlier
    obtain ⟨equal, resolved⟩ := Prod.mk.inj earlier
    obtain ⟨closure, rfl, _, scope⟩ := Value.function_of_equals equal
    obtain ⟨last, isLast, resolvedLater⟩ := Option.map_eq_some_iff.mp later
    exact ⟨first, last, closure, isFirst, isLast, isValue, scope ▸ resolved,
      scope ▸ resolvedLater⟩

end Lox
