import Lox.Proofs.Evaluation.Likeness
import Lox.Proofs.Evaluation.Resolution

/-!
# Alike machines

How the scopes of one machine stand in another one. Every scope of the first has
a place in the second, and the second may have more: an empty scope that stands
for none, a pocket, in which names are resolved as in the scope around it. So a
name that is read or assigned in a scope meets alike values in its place.
-/

set_option autoImplicit false

namespace Lox

/-- Where the scopes of a heap stand in another heap, and which scopes of that
heap are pockets inside the place of a scope. -/
structure Placement where
  stands : ScopeId → ScopeId → Prop
  pocket : ScopeId → ScopeId → Prop

namespace Placement

/-- A name seen from a scope is seen alike from its place and from the pockets in there. -/
def Leads (placement : Placement) (id id' : ScopeId) : Prop :=
  placement.stands id id' ∨ placement.pocket id id'

/-- A later placement leaves everything where it is. -/
structure Extends (placement later : Placement) : Prop where
  stands : ∀ id id', placement.stands id id' → later.stands id id'
  pocket : ∀ id id', placement.pocket id id' → later.pocket id id'

/-- Every scope up to some number in a place of the same number. -/
def inPlace (count : Nat) : Placement := ⟨fun id id' => id = id' ∧ id < count, fun _ _ => False⟩

def add (placement : Placement) (id id' : ScopeId) : Placement :=
  { placement with
    stands := fun other other' => placement.stands other other' ∨ other = id ∧ other' = id' }

def addPocket (placement : Placement) (id id' : ScopeId) : Placement :=
  { placement with
    pocket := fun other other' => placement.pocket other other' ∨ other = id ∧ other' = id' }

theorem Extends.refl (placement : Placement) : placement.Extends placement :=
  ⟨fun _ _ stands => stands, fun _ _ pocket => pocket⟩

theorem Extends.trans {placement middle later : Placement} (first : placement.Extends middle)
    (second : middle.Extends later) : placement.Extends later :=
  ⟨fun _ _ stands => second.stands _ _ (first.stands _ _ stands),
    fun _ _ pocket => second.pocket _ _ (first.pocket _ _ pocket)⟩

theorem Extends.leads {placement later : Placement} (extended : placement.Extends later)
    {id id' : ScopeId} (leads : placement.Leads id id') : later.Leads id id' :=
  leads.imp (extended.stands _ _) (extended.pocket _ _)

theorem extends_add (placement : Placement) (id id' : ScopeId) :
    placement.Extends (placement.add id id') :=
  ⟨fun _ _ => .inl, fun _ _ pocket => pocket⟩

theorem extends_addPocket (placement : Placement) (id id' : ScopeId) :
    placement.Extends (placement.addPocket id id') :=
  ⟨fun _ _ stands => stands, fun _ _ => .inl⟩

end Placement

section Definitions

variable (like : Token → Token → Prop) (aligned : Prop)

structure Scope.Alike (placement : Placement) (left right : Scope) : Prop where
  enclosing : Option.Rel placement.Leads left.enclosing right.enclosing
  bindings : Bindings.Alike like placement.stands left.bindings right.bindings

/-- Heaps with alike scopes in the places of a placement. Aligned heaps are of
one size and have every scope in the place of the same number. -/
structure Heap.Alike (placement : Placement) (left right : Heap) : Prop where
  ordered : left.Ordered
  ordered' : right.Ordered
  matched : ∀ {id id' other other'}, placement.stands id id' → placement.stands other other' →
    (id = other ↔ id' = other')
  scopes : ∀ {id id'}, placement.stands id id' → ∃ scope scope',
    left.get? id = some scope ∧ right.get? id' = some scope' ∧ scope.Alike like placement scope'
  pockets : ∀ {id id'}, placement.pocket id id' → ∃ outer,
    placement.stands id outer ∧ right.get? id' = some ⟨some outer, []⟩ ∧
      ∀ other, ¬placement.stands other id'
  aligned : aligned → left.nextId = right.nextId ∧
    ∀ id id', placement.stands id id' ↔ id = id' ∧ id < left.nextId

/-- Machines that differ in their notes and in the numbers of their scopes at
most. If the second one is settled, it is not in a pocket. -/
structure Machine.Alike (settled : Bool) (placement : Placement) (left right : Machine) : Prop where
  heap : Heap.Alike like aligned placement left.heap right.heap
  current : placement.Leads left.current right.current
  settled : settled = true → placement.stands left.current right.current
  functionsMade : left.functionsMade = right.functionsMade
  clock : left.clock = right.clock
  readings : left.readings = right.readings
  output : left.output = right.output

end Definitions

variable {like : Token → Token → Prop} {aligned : Prop} {placement later : Placement}

theorem Scope.Alike.mono {left right : Scope} (alike : left.Alike like placement right)
    (extended : placement.Extends later) : left.Alike like later right where
  enclosing := optionRel_mono alike.enclosing fun _ _ => extended.leads
  bindings := alike.bindings.mono extended.stands

theorem Scope.Alike.binds {left right : Scope} (alike : left.Alike like placement right)
    (name : String) : left.binds name = right.binds name :=
  optionRel_isSome (alike.bindings.find? name)

theorem Scope.Alike.define {left right : Scope} (alike : left.Alike like placement right)
    (name : String) {value value' : Value} (alikeValue : value.Alike like placement.stands value') :
    (left.define name value).Alike like placement (right.define name value') :=
  ⟨alike.enclosing, alike.bindings.set name alikeValue⟩

namespace Heap

namespace Alike

variable {left right : Heap} (alike : left.Alike like aligned placement right)

include alike

theorem lt_nextId {id id' : ScopeId} (leads : placement.Leads id id') :
    id < left.nextId ∧ id' < right.nextId := by
  obtain stands | pocket := leads
  · obtain ⟨_, _, found, found', _⟩ := alike.scopes stands
    exact ⟨Heap.lt_nextId found, Heap.lt_nextId found'⟩
  · obtain ⟨_, stands, found', _⟩ := alike.pockets pocket
    obtain ⟨_, _, found, _⟩ := alike.scopes stands
    exact ⟨Heap.lt_nextId found, Heap.lt_nextId found'⟩

/-! ## Reading and assigning -/

/-- In a pocket a name is resolved as in the place around it. -/
theorem resolve_pocket {id id' outer : ScopeId} (pocket : placement.pocket id id')
    (stands : placement.stands id outer) (name : String) :
    right.resolve id' name = right.resolve outer name := by
  obtain ⟨around, standsAround, found, _⟩ := alike.pockets pocket
  obtain rfl := (alike.matched stands standsAround).mp rfl
  rw [resolve_eq alike.ordered' found]
  rfl

theorem resolve (name : String) : ∀ (id : ScopeId) {id' : ScopeId}, placement.Leads id id' →
    Option.Rel placement.stands (left.resolve id name) (right.resolve id' name) := by
  intro id
  induction id using Nat.strongRecOn with
  | ind id ih =>
      have settled : ∀ {id'}, placement.stands id id' →
          Option.Rel placement.stands (left.resolve id name) (right.resolve id' name) := by
        intro id' stands
        obtain ⟨scope, scope', found, found', scopes⟩ := alike.scopes stands
        rw [resolve_eq alike.ordered found, resolve_eq alike.ordered' found', scopes.binds name]
        split
        · exact .some stands
        · have newer := alike.ordered id scope found
          exact optionRel_bind scopes.enclosing fun outer around _ => ih outer (newer outer around)
      intro id' leads
      obtain stands | pocket := leads
      · exact settled stands
      · obtain ⟨outer, stands, _⟩ := alike.pockets pocket
        rw [alike.resolve_pocket pocket stands]
        exact settled stands

theorem read? {id id' : ScopeId} (leads : placement.Leads id id') (name : String) :
    Option.Rel (Value.Alike like placement.stands) (left.read? id name) (right.read? id' name) := by
  apply optionRel_bind (alike.resolve name id leads)
  intro holder _ holder' stands
  obtain ⟨scope, scope', found, found', scopes⟩ := alike.scopes stands
  simp only [Option.bind_eq_bind, Option.bind_some, found, found']
  exact scopes.bindings.find? name

theorem define {id id' : ScopeId} (stands : placement.stands id id') (name : String)
    {value value' : Value} (alikeValue : value.Alike like placement.stands value') :
    (left.define id name value).Alike like aligned placement (right.define id' name value') where
  ordered := alike.ordered.define id name value
  ordered' := alike.ordered'.define id' name value'
  matched := alike.matched
  scopes := by
    intro other other' standsOther
    obtain ⟨scope, scope', found, found', scopes⟩ := alike.scopes standsOther
    rw [get?_define, get?_define]
    by_cases same : other = id
    · subst same
      obtain rfl := (alike.matched standsOther stands).mp rfl
      refine ⟨scope.define name value, scope'.define name value', ?_, ?_, ?_⟩
      · simp [found]
      · simp [found']
      · exact scopes.define name alikeValue
    · have same' := mt (alike.matched standsOther stands).mpr same
      rw [if_neg same, if_neg same']
      exact ⟨scope, scope', found, found', scopes⟩
  pockets := by
    intro other other' pocket
    obtain ⟨outer, standsOuter, found, apart⟩ := alike.pockets pocket
    have differs : other' ≠ id' := by
      rintro rfl
      exact apart _ stands
    exact ⟨outer, standsOuter, by rw [get?_define, if_neg differs, found], apart⟩
  aligned := by
    rw [nextId_define, nextId_define]
    exact alike.aligned

theorem assign? {id id' : ScopeId} (leads : placement.Leads id id') (name : String)
    {value value' : Value} (alikeValue : value.Alike like placement.stands value') :
    Option.Rel (Heap.Alike like aligned placement)
      (left.assign? id name value) (right.assign? id' name value') := by
  have resolved := alike.resolve name id leads
  simp only [Heap.assign?]
  revert resolved
  generalize left.resolve id name = holder?
  generalize right.resolve id' name = holder'?
  rintro (stands | _)
  · exact .some (alike.define stands name alikeValue)
  · exact .none

/-! ## New scopes -/

theorem stands_lt {id id' : ScopeId} (stands : placement.stands id id') :
    id ≠ left.nextId ∧ id' ≠ right.nextId :=
  (alike.lt_nextId (.inl stands)).imp Nat.ne_of_lt Nat.ne_of_lt

/-- A new scope in each heap, the one standing for the other. -/
theorem create {enclosing enclosing' : ScopeId} (leads : placement.Leads enclosing enclosing')
    {bindings bindings' : Bindings}
    (alikeBindings : Bindings.Alike like placement.stands bindings bindings') :
    (left.create enclosing bindings).Alike like aligned
      (placement.add left.nextId right.nextId) (right.create enclosing' bindings') where
  ordered := alike.ordered.create (alike.lt_nextId leads).1 bindings
  ordered' := alike.ordered'.create (alike.lt_nextId leads).2 bindings'
  matched := by
    rintro id id' other other' (stands | ⟨rfl, rfl⟩) (standsOther | ⟨rfl, rfl⟩)
    · exact alike.matched stands standsOther
    · simp [alike.stands_lt stands]
    · simp [(alike.stands_lt standsOther).1.symm, (alike.stands_lt standsOther).2.symm]
    · simp
  scopes := by
    have extended := placement.extends_add left.nextId right.nextId
    rintro id id' (stands | ⟨rfl, rfl⟩)
    · obtain ⟨scope, scope', found, found', scopes⟩ := alike.scopes stands
      obtain ⟨old, old'⟩ := alike.stands_lt stands
      rw [get?_create, get?_create, if_neg old, if_neg old']
      exact ⟨scope, scope', found, found', scopes.mono extended⟩
    · rw [get?_create, get?_create, if_pos rfl, if_pos rfl]
      exact ⟨_, _, rfl, rfl, .some (extended.leads leads), alikeBindings.mono extended.stands⟩
  pockets := by
    intro id id' pocket
    obtain ⟨outer, stands, found, apart⟩ := alike.pockets pocket
    have old := Nat.ne_of_lt (Heap.lt_nextId found)
    refine ⟨outer, .inl stands, by rw [get?_create, if_neg old, found], ?_⟩
    rintro other (standsOther | ⟨_, new⟩)
    · exact apart other standsOther
    · exact old new
  aligned := by
    intro isAligned
    obtain ⟨sizes, inPlace⟩ := alike.aligned isAligned
    rw [nextId_create, nextId_create]
    refine ⟨congrArg (· + 1) sizes, fun id id' => ?_⟩
    have old := inPlace id id'
    simp only [Placement.add, old]
    grind

/-- A new empty scope in the second heap only, inside the place of a scope. -/
theorem createPocket (unaligned : ¬aligned) {id id' : ScopeId} (stands : placement.stands id id') :
    left.Alike like aligned (placement.addPocket id right.nextId) (right.create id' []) where
  ordered := alike.ordered
  ordered' := alike.ordered'.create (alike.lt_nextId (.inl stands)).2 []
  matched := alike.matched
  scopes := by
    intro other other' standsOther
    obtain ⟨scope, scope', found, found', scopes⟩ := alike.scopes standsOther
    refine ⟨scope, scope', found, ?_, scopes.mono (placement.extends_addPocket id right.nextId)⟩
    rw [get?_create, if_neg (alike.stands_lt standsOther).2, found']
  pockets := by
    rintro other other' (pocket | ⟨rfl, rfl⟩)
    · obtain ⟨outer, standsOuter, found, apart⟩ := alike.pockets pocket
      have old := Nat.ne_of_lt (Heap.lt_nextId found)
      exact ⟨outer, standsOuter, by rw [get?_create, if_neg old, found], apart⟩
    · refine ⟨id', stands, by rw [get?_create, if_pos rfl], fun other standsOther => ?_⟩
      exact (alike.stands_lt standsOther).2 rfl
  aligned := fun isAligned => absurd isAligned unaligned

end Alike

end Heap

end Lox
