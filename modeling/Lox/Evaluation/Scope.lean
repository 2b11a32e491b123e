import Lox.Evaluation.Value

/-!
# Scopes

A heap keeps every scope ever created, in order of creation, and never drops
one. A scope binds names and may be enclosed by another. A name is resolved
from a scope by going outward to the first scope that binds it; reading and
assigning both act on that scope, defining always on the scope given.
-/

set_option autoImplicit false

namespace Lox

/-- Names with their values, each name at most once. -/
abbrev Bindings := List (String × Value)

namespace Bindings

def find? (name : String) : Bindings → Option Value
  | [] => none
  | (bound, value) :: rest => if bound = name then some value else find? name rest

/-- Gives a name a value, in place of the one it had. -/
def set (name : String) (value : Value) : Bindings → Bindings
  | [] => [(name, value)]
  | (bound, old) :: rest =>
      if bound = name then (name, value) :: rest else (bound, old) :: set name value rest

/-- The parameters of a function with their arguments. Of two parameters with
one name the later argument counts. -/
def ofArguments (parameters : List Token) (arguments : List Value) : Bindings :=
  (parameters.zip arguments).foldl (fun bindings (parameter, argument) =>
    set parameter.lexeme argument bindings) []

theorem find?_set (name other : String) (value : Value) (bindings : Bindings) :
    find? other (set name value bindings) =
      if other = name then some value else find? other bindings := by
  induction bindings with
  | nil => simp [set, find?, eq_comm]
  | cons binding rest ih =>
      obtain ⟨bound, old⟩ := binding
      by_cases same : bound = name
      · subst same
        by_cases found : bound = other
        · subst found
          simp [set, find?]
        · simp [set, find?, found, Ne.symm found]
      · by_cases found : bound = other
        · subst found
          simp [set, find?, same]
        · simp [set, find?, same, found, ih]

end Bindings

structure Scope where
  enclosing : Option ScopeId
  bindings : Bindings

def Scope.binds (scope : Scope) (name : String) : Bool :=
  (Bindings.find? name scope.bindings).isSome

def Scope.define (scope : Scope) (name : String) (value : Value) : Scope :=
  { scope with bindings := Bindings.set name value scope.bindings }

/-- All scopes in order of creation. -/
structure Heap where
  scopes : Array Scope

namespace Heap

/-- A heap with a single scope that nothing encloses. -/
def ofGlobals (bindings : Bindings) : Heap := ⟨#[⟨none, bindings⟩]⟩

def get? (heap : Heap) (id : ScopeId) : Option Scope := heap.scopes[id]?

def nextId (heap : Heap) : ScopeId := heap.scopes.size

def create (heap : Heap) (enclosing : ScopeId) (bindings : Bindings) : Heap :=
  ⟨heap.scopes.push ⟨some enclosing, bindings⟩⟩

def define (heap : Heap) (id : ScopeId) (name : String) (value : Value) : Heap :=
  ⟨heap.scopes.modify id (·.define name value)⟩

/-- The first scope that binds a name, going outward at most the given number of scopes. -/
def resolveWithin (heap : Heap) (name : String) : Nat → ScopeId → Option ScopeId
  | 0, _ => none
  | bound + 1, id =>
      match heap.get? id with
      | none => none
      | some scope =>
          if scope.binds name then some id
          else
            match scope.enclosing with
            | none => none
            | some outer => heap.resolveWithin name bound outer

/-- The first scope that binds a name, going outward. No way outward passes
more scopes than there are. -/
def resolve (heap : Heap) (id : ScopeId) (name : String) : Option ScopeId :=
  heap.resolveWithin name heap.scopes.size id

def read? (heap : Heap) (id : ScopeId) (name : String) : Option Value := do
  let scope ← heap.get? (← heap.resolve id name)
  Bindings.find? name scope.bindings

/-- Gives a new value to a name as seen from a scope. -/
@[inline] def assign? (heap : Heap) (id : ScopeId) (name : String) (value : Value) : Option Heap :=
  match heap.resolve id name with
  | none => none
  | some holder => some (heap.define holder name value)

end Heap

end Lox
