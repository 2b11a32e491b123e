import Lox.Proofs.Evaluation.Search

/-!
# The forest of scopes

The scopes of a heap form a forest if around each of them is an older one, but
for the oldest, which is the global one and has nothing around it. Every way
outward then ends in the global scope. An assignment that holds all scopes on
its way until it has ended never comes to one that is held already.
-/

set_option autoImplicit false

namespace Lox

namespace Heap

/-- The oldest scope is the only one with nothing around it, and around every
other one is an older scope. -/
structure Forest (heap : Heap) : Prop where
  outermost : ∃ scope, heap.get? 0 = some scope ∧ scope.enclosing = none
  inner : ∀ id scope, heap.get? id = some scope → id ≠ 0 →
    ∃ outer < id, scope.enclosing = some outer

/-- How an assignment ends that holds the scopes on its way. -/
inductive Assignment where
  | done (heap : Heap)
  | undefined
  | heldAlready

/-- How an assignment ends that leads to the given heap, if to any. -/
def Assignment.ofResult : Option Heap → Assignment
  | some after => done after
  | none => undefined

/-- An assignment that takes hold of one scope after another on its way outward,
beside some that are held already, and breaks off at a scope that is held. -/
inductive Assigns (heap : Heap) (name : String) (value : Value) :
    List ScopeId → ScopeId → Assignment → Prop where
  | again {held id} : id ∈ held → Assigns heap name value held id .heldAlready
  | here {held id scope} :
      id ∉ held → heap.get? id = some scope → scope.binds name →
      Assigns heap name value held id (.done (heap.define id name value))
  | undefined {held id scope} :
      id ∉ held → heap.get? id = some scope → ¬scope.binds name → scope.enclosing = none →
      Assigns heap name value held id .undefined
  | outward {held id scope outer ending} :
      id ∉ held → heap.get? id = some scope → ¬scope.binds name → scope.enclosing = some outer →
      Assigns heap name value (id :: held) outer ending →
      Assigns heap name value held id ending

variable {heap : Heap} {name : String} {id : ScopeId} {value : Value}

namespace Forest

theorem ofGlobals (bindings : Bindings) : (Heap.ofGlobals bindings).Forest where
  outermost := ⟨_, rfl, rfl⟩
  inner := by
    intro id scope found notGlobal
    exact absurd (eq_of_get?_ofGlobals found).1 notGlobal

theorem ordered (forest : heap.Forest) : heap.Ordered := by
  intro id scope found outer around
  by_cases isGlobal : id = 0
  · subst isGlobal
    obtain ⟨_, found', alone⟩ := forest.outermost
    obtain rfl := Option.some.inj (found.symm.trans found')
    simp [alone] at around
  · obtain ⟨other, older, around'⟩ := forest.inner id scope found isGlobal
    obtain rfl := Option.some.inj (around'.symm.trans around)
    exact older

theorem acyclic (forest : heap.Forest) : heap.Acyclic := forest.ordered.acyclic

/-- From every scope the way outward ends in the global one. -/
theorem reaches_global (forest : heap.Forest) :
    ∀ id < heap.nextId, Relation.ReflTransGen heap.Inside id 0 := by
  intro id
  induction id using Nat.strongRecOn with
  | ind id ih =>
      intro old
      by_cases isGlobal : id = 0
      · subst isGlobal
        exact .refl
      · obtain ⟨scope, found⟩ := exists_get? old
        obtain ⟨outer, older, around⟩ := forest.inner id scope found isGlobal
        exact .head ⟨scope, found, around⟩ (ih outer older (Nat.lt_trans older old))

theorem define (forest : heap.Forest) (target : ScopeId) (declared : String) (value : Value) :
    (heap.define target declared value).Forest := by
  have kept : ∀ {id scope}, (heap.define target declared value).get? id = some scope →
      ∃ before, heap.get? id = some before ∧ scope.enclosing = before.enclosing := by
    intro id scope found
    rw [get?_define] at found
    split at found
    · next same =>
      subst same
      obtain ⟨before, foundBefore, rfl⟩ := Option.map_eq_some_iff.mp found
      exact ⟨before, foundBefore, rfl⟩
    · exact ⟨scope, found, rfl⟩
  constructor
  · obtain ⟨scope, found, alone⟩ := forest.outermost
    obtain ⟨later, foundLater, enclosing, _⟩ :=
      (differsAt_define heap target declared value).scopes 0 scope found
    exact ⟨later, foundLater, enclosing.trans alone⟩
  · intro id scope found inside
    obtain ⟨before, foundBefore, same⟩ := kept found
    rw [same]
    exact forest.inner id before foundBefore inside

theorem create (forest : heap.Forest) {enclosing : ScopeId} (old : enclosing < heap.nextId)
    (bindings : Bindings) : (heap.create enclosing bindings).Forest := by
  obtain ⟨globals, foundGlobals, alone⟩ := forest.outermost
  have positive := lt_nextId foundGlobals
  constructor
  · refine ⟨globals, ?_, alone⟩
    rw [get?_create, if_neg (Nat.ne_of_lt positive), foundGlobals]
  · intro id scope found inside
    rw [get?_create] at found
    split at found
    · next same =>
      subst same
      obtain rfl := Option.some.inj found
      exact ⟨enclosing, old, rfl⟩
    · exact forest.inner id scope found inside

end Forest

/-- What the first step of such an assignment is. -/
theorem Assigns.of_scope {held : List ScopeId} {ending : Assignment}
    (assigns : heap.Assigns name value held id ending) (free : id ∉ held) {scope : Scope}
    (isScope : heap.get? id = some scope) :
    (scope.binds name ∧ ending = .done (heap.define id name value)) ∨
      (¬scope.binds name ∧ scope.enclosing = none ∧ ending = .undefined) ∨
      ∃ outer, ¬scope.binds name ∧ scope.enclosing = some outer ∧
        heap.Assigns name value (id :: held) outer ending := by
  cases assigns with
  | again isHeld => exact absurd isHeld free
  | here _ isOther binds =>
      obtain rfl := Option.some.inj (isScope.symm.trans isOther)
      exact .inl ⟨binds, rfl⟩
  | undefined _ isOther unbound around =>
      obtain rfl := Option.some.inj (isScope.symm.trans isOther)
      exact .inr (.inl ⟨unbound, around, rfl⟩)
  | outward _ isOther unbound around further =>
      obtain rfl := Option.some.inj (isScope.symm.trans isOther)
      exact .inr (.inr ⟨_, unbound, around, further⟩)

/-- An assignment that goes the way of a search ends as the search does, if the
way meets no scope twice and none that is held. -/
theorem Visits.assigns_iff {path : List ScopeId} {found : Option ScopeId}
    (visits : heap.Visits name id path found) (forest : heap.Forest) (value : Value) :
    id < heap.nextId → path.Nodup → ∀ held, (∀ visited ∈ path, visited ∉ held) → ∀ ending,
      (heap.Assigns name value held id ending ↔
        ending = .ofResult (found.map fun holder => heap.define holder name value)) := by
  induction visits with
  | missing isMissing =>
      intro old
      obtain ⟨scope, isScope⟩ := exists_get? old
      simp [isMissing] at isScope
  | found isScope binds =>
      intro _ _ held free ending
      have free := free _ List.mem_cons_self
      constructor
      · intro assigns
        obtain ⟨_, rfl⟩ | ⟨unbound, _⟩ | ⟨_, unbound, _⟩ := assigns.of_scope free isScope
        · rfl
        · exact absurd binds unbound
        · exact absurd binds unbound
      · rintro rfl
        exact .here free isScope binds
  | outermost isScope unbound around =>
      intro _ _ held free ending
      have free := free _ List.mem_cons_self
      constructor
      · intro assigns
        obtain ⟨binds, _⟩ | ⟨_, _, rfl⟩ | ⟨_, _, around', _⟩ := assigns.of_scope free isScope
        · exact absurd binds unbound
        · rfl
        · simp [around] at around'
      · rintro rfl
        exact .undefined free isScope unbound around
  | @outward id scope outer rest found isScope unbound around _ ih =>
      intro old distinct held free ending
      obtain ⟨notAgain, distinct⟩ := List.nodup_cons.mp distinct
      have older := forest.ordered id scope isScope outer around
      have freeRest : ∀ visited ∈ rest, visited ∉ id :: held := by
        intro visited member isHeld
        obtain rfl | isHeld := List.mem_cons.mp isHeld
        · exact notAgain member
        · exact free visited (List.mem_cons_of_mem _ member) isHeld
      have free := free _ List.mem_cons_self
      rw [← ih (Nat.lt_trans older old) distinct (id :: held) freeRest ending]
      constructor
      · intro assigns
        obtain ⟨binds, _⟩ | ⟨_, around', _⟩ | ⟨_, _, around', further⟩ :=
          assigns.of_scope free isScope
        · exact absurd binds unbound
        · simp [around] at around'
        · obtain rfl := Option.some.inj (around.symm.trans around')
          exact further
      · exact .outward free isScope unbound around

/-- From every scope of a forest an assignment that holds the scopes on its way
ends, and it does what assigning does. -/
theorem Forest.assigns_iff (forest : heap.Forest) (old : id < heap.nextId) (name : String)
    (value : Value) (ending : Assignment) :
    heap.Assigns name value [] id ending ↔ ending = .ofResult (heap.assign? id name value) := by
  obtain ⟨path, found, visits⟩ := forest.acyclic.exists_visits name id
  have distinct := visits.nodup forest.acyclic
  rw [visits.assigns_iff forest value old distinct [] (by simp) ending, assign?,
    visits.resolve_eq forest.acyclic]
  cases found with
  | none => rfl
  | some holder => rfl

end Heap

end Lox
