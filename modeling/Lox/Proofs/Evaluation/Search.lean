import Mathlib.Data.List.Chain
import Mathlib.Data.List.Perm.Subperm
import Mathlib.Logic.Relation
import Lox.Evaluation.Machine
import Lox.Proofs.Evaluation.Resolution

/-!
# Searches for names

A name is searched for from a scope outward until a scope binds it. If no way
outward comes back to where it was, every search ends, and has visited no more
scopes than there are. Reading and assigning go by one and the same search, so
they succeed together, and an assignment is seen by just the searches that end
where it was made. A definition is seen by just the searches that visit its scope.
-/

set_option autoImplicit false

namespace Lox

namespace Heap

/-- The second scope is the one around the first. -/
def Inside (heap : Heap) (id outer : ScopeId) : Prop :=
  ∃ scope, heap.get? id = some scope ∧ scope.enclosing = some outer

/-- Going outward from a scope never comes back to it. -/
def Acyclic (heap : Heap) : Prop := ∀ id, ¬Relation.TransGen heap.Inside id id

/-- A search for a name from a scope outward: the scopes that it visits, and
the last of them if that one binds the name. -/
inductive Visits (heap : Heap) (name : String) :
    ScopeId → List ScopeId → Option ScopeId → Prop where
  | missing {id} : heap.get? id = none → Visits heap name id [] none
  | found {id scope} :
      heap.get? id = some scope → scope.binds name → Visits heap name id [id] (some id)
  | outermost {id scope} :
      heap.get? id = some scope → ¬scope.binds name → scope.enclosing = none →
      Visits heap name id [id] none
  | outward {id scope outer path found} :
      heap.get? id = some scope → ¬scope.binds name → scope.enclosing = some outer →
      Visits heap name outer path found → Visits heap name id (id :: path) found

/-- The later heap has the same scopes with the same names and values, but for
one name in one scope, which has the given value. -/
structure DiffersAt (heap : Heap) (target : ScopeId) (name : String) (value : Value)
    (after : Heap) : Prop where
  size : after.nextId = heap.nextId
  scopes : ∀ id scope, heap.get? id = some scope →
    ∃ later, after.get? id = some later ∧ later.enclosing = scope.enclosing ∧
      ∀ other, Bindings.find? other later.bindings =
        if id = target ∧ other = name then some value else Bindings.find? other scope.bindings

variable {heap : Heap} {name other : String} {id target holder : ScopeId} {path : List ScopeId}
  {found : Option ScopeId}

/-! ## Every search ends -/

/-- No way outward comes back if something gets less with every step. -/
theorem acyclic_of_decreasing (rank : ScopeId → Nat)
    (decreasing : ∀ id outer, heap.Inside id outer → rank outer < rank id) : heap.Acyclic := by
  have further : ∀ id far, Relation.TransGen heap.Inside id far → rank far < rank id := by
    intro id far way
    induction way with
    | single inside => exact decreasing _ _ inside
    | tail _ inside ih => exact Nat.lt_trans (decreasing _ _ inside) ih
  exact fun id way => Nat.lt_irrefl _ (further id id way)

theorem Ordered.acyclic (ordered : heap.Ordered) : heap.Acyclic :=
  acyclic_of_decreasing (fun id => id) fun id outer ⟨scope, found, around⟩ =>
    ordered id scope found outer around

theorem Acyclic.nodup (acyclic : heap.Acyclic) (chain : path.IsChain heap.Inside) : path.Nodup := by
  have ways : path.IsChain (Relation.TransGen heap.Inside) := chain.imp fun _ _ => .single
  refine ways.pairwise.imp fun {id far} way same => ?_
  subst same
  exact acyclic id way

theorem length_le_nextId (nodup : path.Nodup) (exist : ∀ visited ∈ path, visited < heap.nextId) :
    path.length ≤ heap.nextId := by
  have within : path ⊆ List.range heap.nextId :=
    fun visited member => List.mem_range.mpr (exist visited member)
  have few := (List.subperm_of_subset nodup within).length_le
  rwa [List.length_range] at few

namespace Visits

theorem head (visits : heap.Visits name id path found) : ∀ first ∈ path.head?, first = id := by
  cases visits with
  | missing => simp
  | found => simp
  | outermost => simp
  | outward => simp

theorem isChain (visits : heap.Visits name id path found) : path.IsChain heap.Inside := by
  induction visits with
  | missing => exact .nil
  | found => exact .singleton _
  | outermost => exact .singleton _
  | outward isScope _ around search ih =>
      refine List.isChain_cons.mpr ⟨fun next isNext => ?_, ih⟩
      exact ⟨_, isScope, search.head next isNext ▸ around⟩

theorem exist (visits : heap.Visits name id path found) :
    ∀ visited ∈ path, visited < heap.nextId := by
  induction visits with
  | missing => simp
  | found isScope => simpa using lt_nextId isScope
  | outermost isScope => simpa using lt_nextId isScope
  | outward isScope _ _ _ ih => exact List.forall_mem_cons.mpr ⟨lt_nextId isScope, ih⟩

theorem binds (visits : heap.Visits name id path (some holder)) :
    ∃ scope, heap.get? holder = some scope ∧ scope.binds name := by
  generalize isFound : some holder = found at visits
  induction visits with
  | missing => cases isFound
  | found isScope binds =>
      cases isFound
      exact ⟨_, isScope, binds⟩
  | outermost => cases isFound
  | outward _ _ _ _ ih => exact ih isFound

/-- A search stops at the first scope that binds the name. -/
theorem found_iff (visits : heap.Visits name id path found) {scope : Scope}
    (isScope : heap.get? target = some scope) (binds : scope.binds name) :
    found = some target ↔ target ∈ path := by
  induction visits with
  | missing => simp
  | found => simp [eq_comm]
  | outermost isOther unbound =>
      refine ⟨fun isFound => (by cases isFound), fun member => ?_⟩
      obtain rfl := List.mem_singleton.mp member
      obtain rfl := Option.some.inj (isScope.symm.trans isOther)
      exact absurd binds unbound
  | outward isOther unbound _ _ ih =>
      rw [ih, List.mem_cons, or_iff_right]
      rintro rfl
      obtain rfl := Option.some.inj (isScope.symm.trans isOther)
      exact unbound binds

theorem found_mem (visits : heap.Visits name id path (some holder)) : holder ∈ path := by
  obtain ⟨_, isScope, binds⟩ := visits.binds
  exact (visits.found_iff isScope binds).mp rfl

/-- What a search does first. -/
theorem of_scope (visits : heap.Visits name id path found) {scope : Scope}
    (isScope : heap.get? id = some scope) :
    (scope.binds name ∧ path = [id] ∧ found = some id) ∨
      (¬scope.binds name ∧ scope.enclosing = none ∧ path = [id] ∧ found = none) ∨
      ∃ outer rest, ¬scope.binds name ∧ scope.enclosing = some outer ∧ path = id :: rest ∧
        heap.Visits name outer rest found := by
  cases visits with
  | missing isMissing => simp [isMissing] at isScope
  | found isOther binds =>
      obtain rfl := Option.some.inj (isScope.symm.trans isOther)
      exact .inl ⟨binds, rfl, rfl⟩
  | outermost isOther unbound around =>
      obtain rfl := Option.some.inj (isScope.symm.trans isOther)
      exact .inr (.inl ⟨unbound, around, rfl, rfl⟩)
  | outward isOther unbound around search =>
      obtain rfl := Option.some.inj (isScope.symm.trans isOther)
      exact .inr (.inr ⟨_, _, unbound, around, rfl, search⟩)

/-- A scope has one search for a name only. -/
theorem unique (visits : heap.Visits name id path found) :
    ∀ {path' found'}, heap.Visits name id path' found' → path' = path ∧ found' = found := by
  induction visits with
  | missing isMissing =>
      intro path' found' other
      cases other with
      | missing => exact ⟨rfl, rfl⟩
      | found isScope | outermost isScope | outward isScope => simp [isMissing] at isScope
  | found isScope binds =>
      intro path' found' other
      obtain ⟨_, rfl, rfl⟩ | ⟨unbound, _⟩ | ⟨_, _, unbound, _⟩ := other.of_scope isScope
      · exact ⟨rfl, rfl⟩
      · exact absurd binds unbound
      · exact absurd binds unbound
  | outermost isScope unbound around =>
      intro path' found' other
      obtain ⟨binds, _⟩ | ⟨_, _, rfl, rfl⟩ | ⟨_, _, _, around', _⟩ := other.of_scope isScope
      · exact absurd binds unbound
      · exact ⟨rfl, rfl⟩
      · simp [around] at around'
  | outward isScope unbound around _ ih =>
      intro path' found' other
      obtain ⟨binds, _⟩ | ⟨_, around', _⟩ | ⟨_, _, _, around', rfl, search⟩ :=
        other.of_scope isScope
      · exact absurd binds unbound
      · simp [around] at around'
      · obtain rfl := Option.some.inj (around.symm.trans around')
        obtain ⟨rfl, rfl⟩ := ih search
        exact ⟨rfl, rfl⟩

/-- As many passes as the search visits scopes are enough. -/
theorem resolveWithin_eq (visits : heap.Visits name id path found) :
    ∀ bound, path.length ≤ bound → heap.resolveWithin name bound id = found := by
  induction visits with
  | missing isMissing =>
      intro bound _
      cases bound with
      | zero => rfl
      | succ bound => simp [resolveWithin, isMissing]
  | found isScope binds =>
      intro bound enough
      obtain ⟨bound, rfl⟩ := Nat.exists_eq_add_of_le' enough
      simp [resolveWithin, isScope, binds]
  | outermost isScope unbound around =>
      intro bound enough
      obtain ⟨bound, rfl⟩ := Nat.exists_eq_add_of_le' enough
      simp [resolveWithin, isScope, unbound, around]
  | outward isScope unbound around _ ih =>
      intro bound enough
      obtain ⟨bound, rfl⟩ := Nat.exists_eq_add_of_le' (Nat.le_of_add_left_le enough)
      have rest := ih bound (Nat.le_of_succ_le_succ enough)
      simp [resolveWithin, isScope, unbound, around, rest]

variable (acyclic : heap.Acyclic)

include acyclic

theorem nodup (visits : heap.Visits name id path found) : path.Nodup :=
  acyclic.nodup visits.isChain

theorem resolve_eq (visits : heap.Visits name id path found) : heap.resolve id name = found :=
  visits.resolveWithin_eq _ (length_le_nextId (visits.nodup acyclic) visits.exist)

theorem read?_eq (visits : heap.Visits name id path found) :
    heap.read? id name = found.bind fun holder =>
      (heap.get? holder).bind fun scope => Bindings.find? name scope.bindings := by
  rw [read?, visits.resolve_eq acyclic]
  rfl

end Visits

/-- From a scope a search ends, or it goes through as many scopes as one likes. -/
theorem visits_or_chain (name : String) (steps : Nat) : ∀ id,
    (∃ path found, heap.Visits name id path found) ∨
      ∃ path : List ScopeId, path.length = steps ∧ path.IsChain heap.Inside ∧
        (∀ visited ∈ path, visited < heap.nextId) ∧ ∀ first ∈ path.head?, first = id := by
  induction steps with
  | zero => exact fun id => .inr ⟨[], rfl, .nil, by simp, by simp⟩
  | succ steps ih =>
      intro id
      cases isScope : heap.get? id with
      | none => exact .inl ⟨[], none, .missing isScope⟩
      | some scope =>
          by_cases binds : scope.binds name
          · exact .inl ⟨[id], some id, .found isScope binds⟩
          · cases around : scope.enclosing with
            | none => exact .inl ⟨[id], none, .outermost isScope binds around⟩
            | some outer =>
                obtain ⟨path, found, visits⟩ | ⟨path, rfl, chain, exist, head⟩ := ih outer
                · exact .inl ⟨id :: path, found, .outward isScope binds around visits⟩
                · refine .inr ⟨id :: path, rfl, ?_, ?_, by simp⟩
                  · refine List.isChain_cons.mpr ⟨fun next isNext => ?_, chain⟩
                    exact ⟨scope, isScope, head next isNext ▸ around⟩
                  · exact List.forall_mem_cons.mpr ⟨lt_nextId isScope, exist⟩

theorem Acyclic.exists_visits (acyclic : heap.Acyclic) (name : String) (id : ScopeId) :
    ∃ path found, heap.Visits name id path found := by
  obtain visits | ⟨path, length, chain, exist, _⟩ := visits_or_chain name (heap.nextId + 1) id
  · exact visits
  · have few := length_le_nextId (acyclic.nodup chain) exist
    omega

/-! ## Searches behind a definition -/

theorem inside_define (declared : String) (value : Value) :
    (heap.define target declared value).Inside = heap.Inside := by
  funext id outer
  simp only [Inside, get?_define]
  by_cases same : id = target
  · subst same
    cases heap.get? id with
    | none => simp
    | some scope => simp [Scope.define]
  · simp [same]

theorem Acyclic.define (acyclic : heap.Acyclic) (target : ScopeId) (declared : String)
    (value : Value) : (heap.define target declared value).Acyclic := by
  rw [Acyclic, inside_define]
  exact acyclic

theorem differsAt_define (heap : Heap) (target : ScopeId) (declared : String) (value : Value) :
    heap.DiffersAt target declared value (heap.define target declared value) where
  size := nextId_define ..
  scopes := by
    intro id scope isScope
    rw [get?_define]
    by_cases same : id = target
    · subst same
      refine ⟨scope.define declared value, by simp [isScope], rfl, ?_⟩
      simp [Scope.define, Bindings.find?_set]
    · exact ⟨scope, by simp [same, isScope], rfl, by simp [same]⟩

/-- A search goes on as before if it does not meet a name that is new. -/
theorem Visits.define (visits : heap.Visits other id path found) (value : Value)
    (known : other = name → target ∈ path →
      ∃ scope, heap.get? target = some scope ∧ scope.binds name) :
    (heap.define target name value).Visits other id path found := by
  have sameBinds : ∀ {id scope}, heap.get? id = some scope → id ∈ path →
      ∃ later, (heap.define target name value).get? id = some later ∧
        later.enclosing = scope.enclosing ∧ later.binds other = scope.binds other := by
    intro id scope isScope member
    rw [get?_define]
    by_cases isTarget : id = target
    · subst isTarget
      refine ⟨scope.define name value, by simp [isScope], rfl, ?_⟩
      rw [Scope.binds_define]
      by_cases same : other = name
      · obtain ⟨_, isScope', binds⟩ := known same member
        obtain rfl := Option.some.inj (isScope.symm.trans isScope')
        simp [same, binds]
      · simp [same]
    · exact ⟨scope, by simp [isTarget, isScope], rfl, rfl⟩
  clear known
  induction visits with
  | missing isMissing =>
      refine .missing ?_
      rw [get?_define, isMissing]
      split
      · next same => rw [← same, isMissing]; rfl
      · rfl
  | found isScope binds =>
      obtain ⟨_, isLater, _, same⟩ := sameBinds isScope List.mem_cons_self
      exact .found isLater (same.trans binds)
  | outermost isScope unbound around =>
      obtain ⟨_, isLater, enclosing, same⟩ := sameBinds isScope List.mem_cons_self
      exact .outermost isLater (same ▸ unbound) (enclosing.trans around)
  | outward isScope unbound around _ ih =>
      obtain ⟨_, isLater, enclosing, same⟩ := sameBinds isScope List.mem_cons_self
      refine .outward isLater (same ▸ unbound) (enclosing.trans around) (ih ?_)
      exact fun isScope member => sameBinds isScope (List.mem_cons_of_mem _ member)

/-- A search that visits the scope of a definition ends there from now on. -/
theorem Visits.define_met (visits : heap.Visits name id path found) (value : Value)
    (met : target ∈ path) :
    ∃ path, (heap.define target name value).Visits name id path (some target) := by
  have here : ∀ {scope}, heap.get? target = some scope →
      (heap.define target name value).Visits name target [target] (some target) := by
    intro scope isScope
    have isDefined : (heap.define target name value).get? target =
        some (scope.define name value) := by
      simp [get?_define, isScope]
    exact .found isDefined (by simp [Scope.binds_define])
  induction visits with
  | missing => cases met
  | found isScope =>
      obtain rfl := List.mem_singleton.mp met
      exact ⟨_, here isScope⟩
  | outermost isScope =>
      obtain rfl := List.mem_singleton.mp met
      exact ⟨_, here isScope⟩
  | @outward id _ _ _ _ isScope unbound around _ ih =>
      by_cases same : id = target
      · subst same
        exact ⟨_, here isScope⟩
      · obtain ⟨path, visits⟩ := ih ((List.mem_cons.mp met).resolve_left (Ne.symm same))
        refine ⟨id :: path, .outward ?_ unbound around visits⟩
        rw [get?_define, if_neg same, isScope]

/-- What is read behind a definition: the new value by a search that visits its
scope, and what was read before by every other one. -/
theorem read?_define (acyclic : heap.Acyclic) (visits : heap.Visits other id path found)
    (value : Value) :
    (heap.define target name value).read? id other =
      if other = name ∧ target ∈ path then some value else heap.read? id other := by
  have later := acyclic.define target name value
  split
  · next met =>
    obtain ⟨rfl, member⟩ := met
    obtain ⟨_, visitsLater⟩ := visits.define_met value member
    obtain ⟨scope, isScope⟩ := exists_get? (visits.exist target member)
    rw [visitsLater.read?_eq later]
    simp [get?_define, isScope, Scope.define, Bindings.find?_set]
  · next notMet =>
    have visitsLater : (heap.define target name value).Visits other id path found :=
      visits.define value fun same member => absurd ⟨same, member⟩ notMet
    rw [visitsLater.read?_eq later, visits.read?_eq acyclic]
    cases found with
    | none => rfl
    | some holder =>
        simp only [Option.bind_some, get?_define]
        by_cases isTarget : holder = target
        · subst isTarget
          have distinct : other ≠ name := fun same => notMet ⟨same, visits.found_mem⟩
          cases heap.get? holder with
          | none => simp
          | some scope => simp [Scope.define, Bindings.find?_set, distinct]
        · simp [isTarget]

end Heap

/-! ## Reading and assigning -/

namespace Action

variable {machine : Machine} {name : Token} {path : List ScopeId} {holder : ScopeId}
  (acyclic : machine.heap.Acyclic)

include acyclic

theorem read_of_found
    (visits : machine.heap.Visits name.lexeme machine.current path (some holder)) :
    ∃ given, read name machine = .ok given machine := by
  obtain ⟨scope, isScope, binds⟩ := visits.binds
  obtain ⟨given, isGiven⟩ := Option.isSome_iff_exists.mp binds
  refine ⟨given, ?_⟩
  rw [read_eq, visits.read?_eq acyclic]
  simp [isScope, isGiven]

theorem assign_of_found (value : Value)
    (visits : machine.heap.Visits name.lexeme machine.current path (some holder)) :
    assign name value machine =
      .ok () { machine with heap := machine.heap.define holder name.lexeme value } := by
  rw [assign, Heap.assign?, visits.resolve_eq acyclic]

theorem read_of_unbound (visits : machine.heap.Visits name.lexeme machine.current path none) :
    read name machine = .error (.runtime ⟨.undefinedVariable, name⟩) machine := by
  rw [read_eq, visits.read?_eq acyclic]
  rfl

theorem assign_of_unbound (value : Value)
    (visits : machine.heap.Visits name.lexeme machine.current path none) :
    assign name value machine = .error (.runtime ⟨.undefinedVariable, name⟩) machine := by
  rw [assign, Heap.assign?, visits.resolve_eq acyclic]
  rfl

end Action

/-- If no way outward comes back, an assignment succeeds just where reading the
name does. It then gives the name its value in one scope, in which the search
for it ends, and is seen by all searches that end there and by nothing else. If
it fails, nothing has changed, and the fault is that of reading. A definition
is seen by just the searches for its name that visit the current scope. -/
theorem reads_and_assignments_agree (machine : Machine) (acyclic : machine.heap.Acyclic)
    (name : Token) (value : Value) :
    ((∃ given, Action.read name machine = .ok given machine) ↔
      ∃ after, Action.assign name value machine = .ok () after) ∧
    (∀ after, Action.assign name value machine = .ok () after →
      ∃ path holder, machine.heap.Visits name.lexeme machine.current path (some holder) ∧
        after = { machine with heap := after.heap } ∧
        machine.heap.DiffersAt holder name.lexeme value after.heap ∧
        (∀ id path, machine.heap.Visits name.lexeme id path (some holder) →
          after.heap.read? id name.lexeme = some value) ∧
        ∀ id other,
          (other = name.lexeme → ∀ path, ¬machine.heap.Visits other id path (some holder)) →
          after.heap.read? id other = machine.heap.read? id other) ∧
    (∀ fault after, Action.assign name value machine = .error fault after →
      after = machine ∧ fault = .runtime ⟨.undefinedVariable, name⟩ ∧
        Action.read name machine = .error fault machine) ∧
    ∃ after, Action.define name value machine = .ok () after ∧
      after = { machine with heap := after.heap } ∧
      machine.heap.DiffersAt machine.current name.lexeme value after.heap ∧
      (∀ id path found, machine.heap.Visits name.lexeme id path found → machine.current ∈ path →
        after.heap.read? id name.lexeme = some value) ∧
      ∀ id other,
        (other = name.lexeme →
          ∀ path found, machine.heap.Visits other id path found → machine.current ∉ path) →
        after.heap.read? id other = machine.heap.read? id other := by
  obtain ⟨path, found, visits⟩ := acyclic.exists_visits name.lexeme machine.current
  -- What a definition in a scope does to searches is also what an assignment does.
  have seen : ∀ target id path found, machine.heap.Visits name.lexeme id path found →
      target ∈ path →
      (machine.heap.define target name.lexeme value).read? id name.lexeme = some value := by
    intro target id path found visits met
    rw [Heap.read?_define acyclic visits value, if_pos ⟨rfl, met⟩]
  have unseen : ∀ target id other,
      (other = name.lexeme →
        ∀ path found, machine.heap.Visits other id path found → target ∉ path) →
      (machine.heap.define target name.lexeme value).read? id other =
        machine.heap.read? id other := by
    intro target id other notMet
    obtain ⟨path, found, visits⟩ := acyclic.exists_visits other id
    rw [Heap.read?_define acyclic visits value, if_neg]
    rintro ⟨same, met⟩
    exact notMet same path found visits met
  refine ⟨?_, ?_, ?_, ?_⟩
  · cases found with
    | none =>
        rw [Action.read_of_unbound acyclic visits, Action.assign_of_unbound acyclic value visits]
        simp
    | some holder =>
        rw [Action.assign_of_found acyclic value visits]
        exact iff_of_true (Action.read_of_found acyclic visits) ⟨_, rfl⟩
  · intro after assigned
    cases found with
    | none =>
        rw [Action.assign_of_unbound acyclic value visits] at assigned
        cases assigned
    | some holder =>
        rw [Action.assign_of_found acyclic value visits] at assigned
        cases assigned
        obtain ⟨scope, isScope, binds⟩ := visits.binds
        refine ⟨path, holder, visits, rfl, Heap.differsAt_define .., ?_, ?_⟩
        · exact fun id path visits => seen holder id path _ visits visits.found_mem
        · intro id other notEnded
          refine unseen holder id other fun same path found visits met => ?_
          subst same
          obtain rfl := (visits.found_iff isScope binds).mpr met
          exact notEnded rfl path visits
  · intro fault after failed
    cases found with
    | none =>
        rw [Action.assign_of_unbound acyclic value visits] at failed
        cases failed
        exact ⟨rfl, rfl, Action.read_of_unbound acyclic visits⟩
    | some holder =>
        rw [Action.assign_of_found acyclic value visits] at failed
        cases failed
  · exact ⟨_, rfl, rfl, Heap.differsAt_define .., seen machine.current, unseen machine.current⟩

/-- Two scopes inside a third one, which is newer than both, with the first one current. -/
def twoInsideAnother : Machine :=
  { Machine.start (fun _ => 0) none with
    heap := ⟨#[⟨some 2, []⟩, ⟨some 2, []⟩, ⟨none, [("a", .nil)]⟩]⟩
    current := 0 }

/-- An assignment from the first of these scopes is read from the second. -/
theorem assignment_is_seen_from_another_scope :
    let name : Token := ⟨.name, "a", 1, 1⟩
    twoInsideAnother.heap.Acyclic ∧
      ∃ after, Action.assign name (.bool true) twoInsideAnother = .ok () after ∧
        after.heap.read? 1 "a" = some (.bool true) := by
  intro name
  have acyclic : twoInsideAnother.heap.Acyclic := by
    refine Heap.acyclic_of_decreasing (fun id => 2 - id) ?_
    rintro id outer ⟨scope, isScope, around⟩
    match id with
    | 0 => cases isScope; cases around; decide
    | 1 => cases isScope; cases around; decide
    | 2 => cases isScope; cases around
    | id + 3 => cases isScope
  obtain ⟨⟨succeeds, _⟩, assigned, _⟩ :=
    reads_and_assignments_agree twoInsideAnother acyclic name (.bool true)
  obtain ⟨after, done⟩ := succeeds ⟨.nil, rfl⟩
  obtain ⟨path, holder, visits, _, _, seen, _⟩ := assigned after done
  have search : ∀ id, id < 2 → twoInsideAnother.heap.Visits "a" id [id, 2] (some 2) := by
    intro id old
    have outer : twoInsideAnother.heap.Visits "a" 2 [2] (some 2) := .found rfl rfl
    have inner : twoInsideAnother.heap.get? id = some ⟨some 2, []⟩ := by
      match id with
      | 0 | 1 => rfl
    exact .outward inner (by decide) rfl outer
  obtain ⟨_, isHolder⟩ := (search 0 (by decide)).unique visits
  obtain rfl := Option.some.inj isHolder
  exact ⟨acyclic, after, done, seen 1 [1, 2] (search 1 (by decide))⟩

end Lox
