import Lox.Evaluation.Scope

/-!
# Scopes under change

What defining, creating, and assigning do to each scope of a heap, and two ways
to compare a heap with a later one. A heap changes by assignments and
definitions, or it keeps its scopes with the scopes around them and their
names. A change of the first kind is one of the second.
-/

set_option autoImplicit false

namespace Lox

namespace Bindings

variable {valid : Value → Prop} {bindings : Bindings}

theorem mem_of_find? {name : String} {value : Value} (found : find? name bindings = some value) :
    (name, value) ∈ bindings := by
  induction bindings with
  | nil => cases found
  | cons first rest ih =>
      obtain ⟨bound, old⟩ := first
      simp only [find?] at found
      split at found
      · next same =>
        obtain rfl := Option.some.inj found
        exact same ▸ List.mem_cons_self
      · exact List.mem_cons_of_mem _ (ih found)

/-- What holds of a new value and of all that are bound holds of all that are bound then. -/
theorem forall_set {name : String} {value : Value} (holds : valid value)
    (all : ∀ binding ∈ bindings, valid binding.2) :
    ∀ binding ∈ set name value bindings, valid binding.2 := by
  induction bindings with
  | nil => simpa [set] using holds
  | cons first rest ih =>
      obtain ⟨holdsFirst, holdsRest⟩ := List.forall_mem_cons.mp all
      rw [set]
      split
      · exact List.forall_mem_cons.mpr ⟨holds, holdsRest⟩
      · exact List.forall_mem_cons.mpr ⟨holdsFirst, ih holdsRest⟩

theorem forall_ofArguments (parameters : List Token) {arguments : List Value}
    (all : ∀ argument ∈ arguments, valid argument) :
    ∀ binding ∈ ofArguments parameters arguments, valid binding.2 := by
  have nothing : ∀ binding ∈ ([] : Bindings), valid binding.2 := by simp
  unfold ofArguments
  refine List.foldlRecOn (motive := fun bindings : Bindings => ∀ binding ∈ bindings, valid binding.2)
    _ _ nothing ?_
  intro bindings holds pair member
  exact forall_set (all _ (List.of_mem_zip member).2) holds

end Bindings

namespace Scope

theorem binds_define (scope : Scope) (name other : String) (value : Value) :
    (scope.define name value).binds other = (other == name || scope.binds other) := by
  simp only [binds, define, Bindings.find?_set]
  by_cases same : other = name
  · simp [same]
  · simp [same]

/-- A later state of a scope: around it is the same scope, and it has lost no
name. It has gained names only where it may grow. -/
structure GrowsInto (scope later : Scope) (grows : Prop) : Prop where
  enclosing : later.enclosing = scope.enclosing
  kept : ∀ name, scope.binds name → later.binds name
  gained : ∀ name, later.binds name → scope.binds name ∨ grows

namespace GrowsInto

variable {scope middle later : Scope} {grows : Prop}

theorem refl (scope : Scope) (grows : Prop) : scope.GrowsInto scope grows :=
  ⟨rfl, fun _ bound => bound, fun _ bound => .inl bound⟩

theorem trans (first : scope.GrowsInto middle grows) (second : middle.GrowsInto later grows) :
    scope.GrowsInto later grows where
  enclosing := second.enclosing.trans first.enclosing
  kept := fun name bound => second.kept name (first.kept name bound)
  gained := by
    intro name bound
    obtain bound | grown := second.gained name bound
    · exact first.gained name bound
    · exact .inr grown

theorem define (scope : Scope) (name : String) (value : Value)
    (allowed : scope.binds name ∨ grows) :
    scope.GrowsInto (scope.define name value) grows where
  enclosing := rfl
  kept := by
    intro other bound
    simp [binds_define, bound]
  gained := by
    intro other bound
    rw [binds_define, Bool.or_eq_true] at bound
    obtain same | bound := bound
    · obtain rfl : other = name := by simpa using same
      exact allowed
    · exact .inl bound

end GrowsInto

end Scope

namespace Heap

theorem ext_get? {left right : Heap} (same : ∀ id, left.get? id = right.get? id) : left = right := by
  obtain ⟨left⟩ := left
  obtain ⟨right⟩ := right
  exact congrArg mk (Array.ext_getElem? same)

/-! ## Single changes -/

theorem get?_define (heap : Heap) (id other : ScopeId) (name : String) (value : Value) :
    (heap.define id name value).get? other =
      if other = id then (heap.get? id).map (·.define name value) else heap.get? other := by
  simp only [get?, define, Array.getElem?_modify]
  by_cases same : id = other
  · simp [same]
  · simp [same, Ne.symm same]

theorem get?_create (heap : Heap) (enclosing id : ScopeId) (bindings : Bindings) :
    (heap.create enclosing bindings).get? id =
      if id = heap.nextId then some ⟨some enclosing, bindings⟩ else heap.get? id := by
  rw [get?, create, Array.getElem?_push]
  rfl

theorem nextId_define (heap : Heap) (id : ScopeId) (name : String) (value : Value) :
    (heap.define id name value).nextId = heap.nextId := by
  simp [nextId, define]

theorem nextId_create (heap : Heap) (enclosing : ScopeId) (bindings : Bindings) :
    (heap.create enclosing bindings).nextId = heap.nextId + 1 := by
  simp [nextId, create]

theorem get?_eq_none {heap : Heap} {id : ScopeId} (beyond : heap.nextId ≤ id) :
    heap.get? id = none :=
  Array.getElem?_eq_none beyond

theorem lt_nextId {heap : Heap} {id : ScopeId} {scope : Scope} (found : heap.get? id = some scope) :
    id < heap.nextId := by
  apply Nat.lt_of_not_le
  intro beyond
  rw [get?_eq_none beyond] at found
  cases found

theorem exists_get? {heap : Heap} {id : ScopeId} (old : id < heap.nextId) :
    ∃ scope, heap.get? id = some scope :=
  ⟨_, Array.getElem?_eq_getElem old⟩

theorem eq_of_get?_ofGlobals {bindings : Bindings} {id : ScopeId} {scope : Scope}
    (found : (ofGlobals bindings).get? id = some scope) : id = 0 ∧ scope = ⟨none, bindings⟩ := by
  obtain rfl := Nat.lt_one_iff.mp (lt_nextId found)
  exact ⟨rfl, (Option.some.inj found).symm⟩

theorem binds_of_resolveWithin {heap : Heap} {name : String} {bound : Nat} {id holder : ScopeId}
    (resolved : heap.resolveWithin name bound id = some holder) :
    ∃ scope, heap.get? holder = some scope ∧ scope.binds name := by
  induction bound generalizing id with
  | zero => cases resolved
  | succ bound ih =>
      rw [resolveWithin] at resolved
      split at resolved
      · cases resolved
      · next scope found =>
        split at resolved
        · next binds =>
          obtain rfl := Option.some.inj resolved
          exact ⟨scope, found, binds⟩
        · split at resolved
          · cases resolved
          · exact ih resolved

theorem resolve_of_binds {heap : Heap} {name : String} {id : ScopeId} {scope : Scope}
    (found : heap.get? id = some scope) (binds : scope.binds name) :
    heap.resolve id name = some id := by
  obtain ⟨bound, size⟩ : ∃ bound, heap.scopes.size = bound + 1 :=
    Nat.exists_eq_succ_of_ne_zero (Nat.ne_zero_of_lt (lt_nextId found))
  simp [resolve, size, resolveWithin, found, binds]

theorem assign?_eq_some {heap after : Heap} {id : ScopeId} {name : String} {value : Value}
    (assigned : heap.assign? id name value = some after) :
    ∃ holder scope, heap.get? holder = some scope ∧ scope.binds name ∧
      after = heap.define holder name value := by
  rw [assign?] at assigned
  split at assigned
  · cases assigned
  · next holder resolved =>
    obtain ⟨scope, found, binds⟩ := binds_of_resolveWithin resolved
    exact ⟨holder, scope, found, binds, (Option.some.inj assigned).symm⟩

/-! ## Values in scopes -/

/-- All values that scopes bind are of a kind. -/
def AllValues (valid : Value → Prop) (heap : Heap) : Prop :=
  ∀ id scope, heap.get? id = some scope → ∀ binding ∈ scope.bindings, valid binding.2

namespace AllValues

variable {valid valid' : Value → Prop} {heap : Heap}

theorem mono (all : heap.AllValues valid) (weaker : ∀ value, valid value → valid' value) :
    heap.AllValues valid' :=
  fun id scope found binding member => weaker _ (all id scope found binding member)

theorem define (all : heap.AllValues valid) (id : ScopeId) (name : String) {value : Value}
    (holds : valid value) : (heap.define id name value).AllValues valid := by
  intro other scope found
  rw [get?_define] at found
  split at found
  · obtain ⟨before, foundBefore, rfl⟩ := Option.map_eq_some_iff.mp found
    exact Bindings.forall_set holds (all id before foundBefore)
  · exact all other scope found

theorem create (all : heap.AllValues valid) (enclosing : ScopeId) {bindings : Bindings}
    (holds : ∀ binding ∈ bindings, valid binding.2) :
    (heap.create enclosing bindings).AllValues valid := by
  intro id scope found
  rw [get?_create] at found
  split at found
  · obtain rfl := Option.some.inj found
    exact holds
  · exact all id scope found

theorem read? (all : heap.AllValues valid) {id : ScopeId} {name : String} {value : Value}
    (found : heap.read? id name = some value) : valid value := by
  simp only [Heap.read?, Option.bind_eq_bind, Option.bind_eq_some_iff] at found
  obtain ⟨holder, _, scope, isScope, bound⟩ := found
  exact all holder scope isScope _ (Bindings.mem_of_find? bound)

end AllValues

/-! ## Later heaps -/

/-- All scopes of a heap are still there later, and only some of them may have
gained names. -/
def Keeps (grows : ScopeId → Prop) (before after : Heap) : Prop :=
  ∀ id scope, before.get? id = some scope →
    ∃ later, after.get? id = some later ∧ scope.GrowsInto later (grows id)

/-- A heap after assignments from any of its scopes, and definitions in some of them. -/
inductive Changes (grows : ScopeId → Prop) : Heap → Heap → Prop where
  | refl (heap : Heap) : Changes grows heap heap
  | assign {before middle after id name value} :
      Changes grows before middle → middle.assign? id name value = some after →
        Changes grows before after
  | define {before middle id name value} :
      Changes grows before middle → grows id →
        Changes grows before (middle.define id name value)

variable {grows : ScopeId → Prop}

theorem Keeps.refl (heap : Heap) : heap.Keeps grows heap :=
  fun _ scope found => ⟨scope, found, .refl scope _⟩

theorem Keeps.trans {before middle after : Heap} (first : before.Keeps grows middle)
    (second : middle.Keeps grows after) : before.Keeps grows after := by
  intro id scope found
  obtain ⟨between, foundBetween, grown⟩ := first id scope found
  obtain ⟨later, foundLater, grownLater⟩ := second id between foundBetween
  exact ⟨later, foundLater, grown.trans grownLater⟩

theorem Keeps.nextId_le {before after : Heap} (keeps : before.Keeps grows after) :
    before.nextId ≤ after.nextId := by
  apply Nat.le_of_not_lt
  intro fewer
  obtain ⟨scope, found⟩ := exists_get? fewer
  obtain ⟨_, later, _⟩ := keeps after.nextId scope found
  exact absurd (lt_nextId later) (Nat.lt_irrefl _)

theorem Keeps.create (heap : Heap) (grows : ScopeId → Prop) (enclosing : ScopeId)
    (bindings : Bindings) : heap.Keeps grows (heap.create enclosing bindings) := by
  intro id scope found
  refine ⟨scope, ?_, .refl scope _⟩
  rw [get?_create, if_neg (Nat.ne_of_lt (lt_nextId found)), found]

theorem Keeps.define (heap : Heap) (id : ScopeId) (name : String) (value : Value)
    (allowed : ∀ scope, heap.get? id = some scope → scope.binds name ∨ grows id) :
    heap.Keeps grows (heap.define id name value) := by
  intro other scope found
  rw [get?_define]
  by_cases same : other = id
  · subst same
    exact ⟨scope.define name value, by simp [found], .define scope name value (allowed scope found)⟩
  · exact ⟨scope, by simp [same, found], .refl scope _⟩

theorem Changes.trans {before middle after : Heap} (first : Changes grows before middle)
    (second : Changes grows middle after) : Changes grows before after := by
  induction second with
  | refl => exact first
  | assign _ assigned ih => exact ih.assign assigned
  | define _ allowed ih => exact ih.define allowed

theorem Changes.mono {grows' : ScopeId → Prop} {before after : Heap}
    (changes : Changes grows before after) (weaker : ∀ id, grows id → grows' id) :
    Changes grows' before after := by
  induction changes with
  | refl => exact .refl _
  | assign _ assigned ih => exact ih.assign assigned
  | define _ allowed ih => exact ih.define (weaker _ allowed)

theorem Changes.keeps {before after : Heap} (changes : Changes grows before after) :
    before.Keeps grows after := by
  induction changes with
  | refl => exact .refl _
  | assign _ assigned ih =>
      obtain ⟨holder, scope, found, binds, rfl⟩ := assign?_eq_some assigned
      apply ih.trans (.define _ holder _ _ ?_)
      intro scope' found'
      obtain rfl := Option.some.inj (found.symm.trans found')
      exact .inl binds
  | define _ allowed ih => exact ih.trans (.define _ _ _ _ fun _ _ => .inr allowed)

/-! ## The oldest scopes -/

def first (heap : Heap) (count : Nat) : Heap := ⟨heap.scopes.take count⟩

theorem get?_first (heap : Heap) (count : Nat) (id : ScopeId) :
    (heap.first count).get? id = if id < count then heap.get? id else none := by
  simp only [get?, first, Array.take_eq_extract, Array.getElem?_extract]
  grind

theorem first_nextId (heap : Heap) : heap.first heap.nextId = heap := by
  apply ext_get?
  intro id
  rw [get?_first]
  split
  · rfl
  · next beyond => exact (get?_eq_none (Nat.le_of_not_lt beyond)).symm

theorem first_create (heap : Heap) (enclosing : ScopeId) (bindings : Bindings) {count : Nat}
    (within : count ≤ heap.nextId) :
    (heap.create enclosing bindings).first count = heap.first count := by
  apply ext_get?
  intro id
  simp only [get?_first, get?_create]
  grind

theorem first_define_of_lt (heap : Heap) {id : ScopeId} (name : String) (value : Value)
    {count : Nat} (old : id < count) :
    (heap.define id name value).first count = (heap.first count).define id name value := by
  apply ext_get?
  intro other
  simp only [get?_first, get?_define]
  grind

theorem first_define_of_le (heap : Heap) {id : ScopeId} (name : String) (value : Value)
    {count : Nat} (new : count ≤ id) :
    (heap.define id name value).first count = heap.first count := by
  apply ext_get?
  intro other
  simp only [get?_first, get?_define]
  grind

/-- An assignment changes the oldest scopes by an assignment or not at all. -/
theorem changes_first_of_assign? {heap after : Heap} {id : ScopeId} {name : String} {value : Value}
    (assigned : heap.assign? id name value = some after) (count : Nat) :
    Changes grows (heap.first count) (after.first count) := by
  obtain ⟨holder, scope, found, binds, rfl⟩ := assign?_eq_some assigned
  by_cases old : holder < count
  · have foundFirst : (heap.first count).get? holder = some scope := by
      rw [get?_first, if_pos old, found]
    have assigned : (heap.first count).assign? holder name value =
        some ((heap.first count).define holder name value) := by
      rw [assign?, resolve_of_binds foundFirst binds]
    rw [first_define_of_lt heap name value old]
    exact .assign (.refl _) assigned
  · rw [first_define_of_le heap name value (Nat.le_of_not_lt old)]
    exact .refl _

theorem Keeps.of_first {before after : Heap} {count : Nat}
    (keeps : before.Keeps grows (after.first count)) : before.Keeps grows after := by
  intro id scope found
  obtain ⟨later, foundLater, grown⟩ := keeps id scope found
  rw [get?_first] at foundLater
  split at foundLater
  · exact ⟨later, foundLater, grown⟩
  · cases foundLater

end Heap

end Lox
