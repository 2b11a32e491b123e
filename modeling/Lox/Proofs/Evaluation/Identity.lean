import Lox.Proofs.Evaluation.Declarations
import Lox.Proofs.Evaluation.Equality

/-!
# Functions and their declarations

A function value stands for one execution of a declaration. However it is
copied, passed or returned, it is equal to what that execution made and to
nothing else, so calling one function twice gives different inner functions.
-/

set_option autoImplicit false

namespace Lox

/-- A value that there is in a history: at some moment a scope gives it to a
name, or an expression whose evaluation passes the moments that follow gives it. -/
inductive Value.Held (history : List Machine) (value : Value) : Prop where
  | bound {machine : Machine} {id : ScopeId} {scope : Scope} {name : String} :
      machine ∈ history → machine.heap.get? id = some scope → (name, value) ∈ scope.bindings →
      Held history value
  | given {moment depth : Nat} {before after : Machine} {expr : Expr} :
      history[moment]? = some before → evaluate depth expr before = .ok value after →
      (expr.passage depth).moments before <+: history.drop (moment + 1) →
      Held history value

theorem Value.Held.of_read? {history : List Machine} {machine : Machine} {id : ScopeId}
    {name : String} {value : Value} (member : machine ∈ history)
    (read : machine.heap.read? id name = some value) : value.Held history := by
  obtain ⟨holder, _, read⟩ := Option.bind_eq_some_iff.mp read
  obtain ⟨scope, found, bound⟩ := Option.bind_eq_some_iff.mp read
  exact .bound member found (Bindings.mem_of_find? bound)

section Accounted

variable {history : List Machine}
  (accounted : ∀ (moment : Nat) (machine : Machine), history[moment]? = some machine →
    machine.Accounted history moment)

include accounted

/-- Every function that there is has been declared. -/
theorem Value.Held.declaredAt {closure : Closure} (held : (Value.function closure).Held history) :
    ∃ moment, closure.DeclaredAt history moment := by
  have of_declared : ∀ moment, (Value.function closure).Declared history moment →
      ∃ moment, closure.DeclaredAt history moment := by
    intro moment declared
    obtain ⟨earlier, _, declaredAt⟩ := declared closure rfl
    exact ⟨earlier, declaredAt⟩
  cases held with
  | bound member found bound =>
      obtain ⟨moment, isMoment⟩ := List.mem_iff_getElem?.mp member
      exact of_declared moment ((accounted moment _ isMoment).functions _ _ found _ bound)
  | @given moment depth before after expr isBefore gives within =>
      have accounts := (Passage.accounts_passage history depth).1 expr moment before
      obtain ⟨_, valid⟩ := accounts (accounted moment before isBefore) within
      rw [(Passage.action_passage depth).1] at valid
      exact of_declared _ (valid _ after gives)

namespace Closure.DeclaredAt

variable {moment other : Nat} {left right : Closure}

/-- A function made at an earlier moment has an earlier identity. -/
theorem identity_lt (first : left.DeclaredAt history moment)
    (second : right.DeclaredAt history other) (earlier : moment < other) :
    left.identity < right.identity := by
  obtain ⟨before, made, _, _, isMade, _, identity, _, counted, _⟩ := first.moments
  obtain ⟨beforeSecond, _, _, isBefore, _, _, identitySecond, _⟩ := second.moments
  have precedes := (accounted other beforeSecond isBefore).precedes (moment + 1) earlier made isMade
  have more := precedes.counted
  omega

/-- The identity tells the moment at which a function was declared. -/
theorem moment_eq (first : left.DeclaredAt history moment)
    (second : right.DeclaredAt history other) (same : left.identity = right.identity) :
    moment = other := by
  obtain earlier | same | later := Nat.lt_trichotomy moment other
  · have := identity_lt accounted first second earlier
    omega
  · exact same
  · have := identity_lt accounted second first later
    omega

/-- What is declared at one moment is one function. -/
theorem closure_eq (first : left.DeclaredAt history moment)
    (second : right.DeclaredAt history moment) : left = right := by
  obtain ⟨before, _, after, isBefore, _, isAfter, _, _, _, named⟩ := first.moments
  obtain ⟨beforeAgain, _, afterAgain, isBeforeAgain, _, isAfterAgain, _, _, _, namedAgain⟩ :=
    second.moments
  obtain rfl := Option.some.inj (isBefore.symm.trans isBeforeAgain)
  obtain rfl := Option.some.inj (isAfter.symm.trans isAfterAgain)
  have accountedBefore := accounted moment before isBefore
  obtain ⟨scope, isCurrent⟩ := Heap.exists_get? accountedBefore.current
  have isDefined := congrArg (Heap.get? · before.current) (named.symm.trans namedAgain)
  simp only [Heap.get?_define, if_true, isCurrent, Option.map_some, Option.some.injEq] at isDefined
  have bound := congrArg (Bindings.find? left.name.lexeme ·.bindings) isDefined
  simp only [Scope.define, Bindings.find?_set, if_true] at bound
  split at bound
  · cases bound
    rfl
  · -- The scope would have given the name this very function already.
    obtain ⟨earlier, sooner, declaredAt⟩ := accountedBefore.functions _ _ isCurrent _
      (Bindings.mem_of_find? bound.symm) left rfl
    have same := moment_eq accounted declaredAt first rfl
    omega

end Closure.DeclaredAt

end Accounted

theorem Operator.binary_equalEqual {operator : Token}
    (isEquality : operator.kind = .symbol .equalEqual) (left right : Value) :
    binary operator left right = .ok (.bool (left.equals right)) := by
  rw [binary, isEquality]

/-- Of sources run in turn on a machine that starts afresh, every function that
there is at any moment, in a scope or as what an expression gives, comes from
one execution of a declaration. Two of them are equal exactly if both come from
the same one, and functions of one identity are the same throughout. Values
that are not undefined numbers are equal as in an equivalence, and none to one
of another type. -/
theorem functions_are_equal_by_declaration (clock : Nat → Float) (output : Output)
    (sources : List (Nat × String)) :
    let fresh : Machine := { Machine.start clock none with output }
    let history := fresh.history sources
    history.getLast? = some (fresh.running sources) ∧
      (∀ left right : Closure, (Value.function left).Held history →
        (Value.function right).Held history →
        (∃! moment, left.DeclaredAt history moment) ∧
          (∀ operator : Token, operator.kind = .symbol .equalEqual →
            (Operator.binary operator (.function left) (.function right) = .ok (.bool true) ↔
              ∃ moment, left.DeclaredAt history moment ∧ right.DeclaredAt history moment)) ∧
          (left.identity = right.identity → left = right)) ∧
      Equivalence (fun left right : {value : Value // value.Comparable} =>
        left.val.equals right.val = true) ∧
      ∀ left right : Value, left.type ≠ right.type → left.equals right = false := by
  intro fresh history
  have through : Machine.Through history 0 (fresh.moments sources) (fresh.running sources) :=
    Machine.history_through clock output sources
  have accounted : ∀ (moment : Nat) (machine : Machine), history[moment]? = some machine →
      machine.Accounted history moment := fun _ _ => through.accounted
  refine ⟨through.getLast?, ?_, ?_, ?_⟩
  · intro left right heldLeft heldRight
    obtain ⟨moment, declared⟩ := heldLeft.declaredAt accounted
    obtain ⟨other, declaredRight⟩ := heldRight.declaredAt accounted
    have same_of_identity (same : left.identity = right.identity) : left = right := by
      obtain rfl := declared.moment_eq accounted declaredRight same
      exact declared.closure_eq accounted declaredRight
    refine ⟨⟨moment, declared, ?_⟩, ?_, same_of_identity⟩
    · intro further declaredToo
      exact declaredToo.moment_eq accounted declared rfl
    · intro operator isEquality
      rw [Operator.binary_equalEqual isEquality]
      constructor
      · intro equal
        obtain rfl : left = right := same_of_identity (by simp_all [Value.equals])
        exact ⟨moment, declared, declared⟩
      · rintro ⟨further, first, second⟩
        obtain rfl := first.closure_eq accounted second
        simp [Value.equals]
  · exact ⟨fun value => Value.equals_self value.property, Value.equals_symm, Value.equals_trans⟩
  · intro left right different
    exact Bool.eq_false_iff.mpr fun equal => different (Value.type_eq_of_equals equal)

/-- A function that is called twice for the function inside it. One of the two is copied. -/
def twoClosures : String :=
  "fun maker() \x7b fun inner() \x7b\x7d return inner; \x7d" ++
    " var a = maker(); var b = maker(); var c = a;"

theorem functions_of_twoClosures :
    let history := (Machine.start (fun _ => 0) none).history [(99, twoClosures)]
    (history.getLast?.map fun last => [("a", 1), ("b", 2), ("c", 1)].map fun (name, call) =>
        (last.heap.read? 0 name).map (·.equals (.function ⟨call, call, .ending 1, [], []⟩))) =
      some [some true, some true, some true] := by
  decide +kernel

/-- The copy comes from the execution that the function does, the one from the
other call does not. -/
theorem closures_of_two_calls_differ :
    let history := (Machine.start (fun _ => 0) none).history [(99, twoClosures)]
    ∃ first second copied : Closure, (Value.function first).Held history ∧
      (Value.function second).Held history ∧ (Value.function copied).Held history ∧
      (∃ moment, first.DeclaredAt history moment ∧ copied.DeclaredAt history moment) ∧
      ¬∃ moment, first.DeclaredAt history moment ∧ second.DeclaredAt history moment := by
  intro history
  obtain ⟨last, isLast, reads⟩ := Option.map_eq_some_iff.mp functions_of_twoClosures
  have member : last ∈ history := List.mem_of_getLast? isLast
  have read (name : String) (call : Nat)
      (equal : (last.heap.read? 0 name).map
        (·.equals (.function ⟨call, call, .ending 1, [], []⟩)) = some true) :
      ∃ closure : Closure, closure.identity = call ∧ closure.scope = call ∧
        (Value.function closure).Held history := by
    obtain ⟨value, isValue, equal⟩ := Option.map_eq_some_iff.mp equal
    obtain ⟨closure, rfl, identity, scope⟩ := Value.function_of_equals equal
    exact ⟨closure, identity, scope, .of_read? member isValue⟩
  simp only [List.map_cons, List.map_nil, List.cons.injEq, and_true] at reads
  obtain ⟨readFirst, readSecond, readCopied⟩ := reads
  obtain ⟨first, identity, scope, held⟩ := read "a" 1 readFirst
  obtain ⟨second, identitySecond, _, heldSecond⟩ := read "b" 2 readSecond
  obtain ⟨copied, identityCopied, scopeCopied, heldCopied⟩ := read "c" 1 readCopied
  let equality : Token := ⟨.symbol .equalEqual, "==", 1, 1⟩
  obtain ⟨_, functions, _⟩ :=
    functions_are_equal_by_declaration (fun _ => 0) (.ofCapacity none) [(99, twoClosures)]
  have copies := (functions first copied held heldCopied).2.1 equality rfl
  have others := (functions first second held heldSecond).2.1 equality rfl
  rw [Operator.binary_equalEqual rfl] at copies others
  refine ⟨first, second, copied, held, heldSecond, heldCopied, copies.mp ?_, fun same => ?_⟩
  · simp [Value.equals, *]
  · have equal := others.mpr same
    simp [Value.equals, *] at equal

end Lox
