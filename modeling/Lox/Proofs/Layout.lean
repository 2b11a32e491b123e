import Lox.Proofs.Joining

/-!
# Layout

How a source is laid out, in lines and with blanks, shows in the places of its
tokens only. Parsing does not depend on these places, and neither does execution:
token lists written alike are parsed alike, and alike statements end alike on
machines that differ in the places of tokens inside their functions.
-/

set_option autoImplicit false

namespace Lox

/-- Tokens of one kind and one text, wherever they stand. -/
def Token.SameWriting (left right : Token) : Prop :=
  right.kind = left.kind ∧ right.lexeme = left.lexeme

theorem sameWriting_writtenAlike : Token.WrittenAlike Token.SameWriting :=
  fun _ _ same => same

/-! ## The end of a source -/

theorem find?_ending_sameWriting {tokens tokens' : List Token}
    (same : List.Forall₂ Token.SameWriting tokens tokens') :
    Option.Rel Token.SameWriting (tokens.find? Token.isEnding) (tokens'.find? Token.isEnding) := by
  induction same with
  | nil => exact .none
  | cons token _ ih =>
      simp only [List.find?_cons, Token.isEnding, token.1]
      split
      · exact .some token
      · exact ih

/-- An end that is made up is written like any other. -/
theorem endingOf_sameWriting {tokens tokens' : List Token}
    (same : List.Forall₂ Token.SameWriting tokens tokens') :
    (endingOf tokens).SameWriting (endingOf tokens') := by
  have found := find?_ending_sameWriting same
  rw [endingOf, endingOf]
  generalize tokens.find? Token.isEnding = ending? at found
  generalize tokens'.find? Token.isEnding = ending'? at found
  cases found with
  | none => exact ⟨rfl, rfl⟩
  | some token => exact token

/-! ## Machines that differ in places only -/

section Resemblance

variable {like : Token → Token → Prop}

/-- Values that are alike at equal scopes are so at the places of these scopes, if they exist. -/
theorem Value.Alike.inPlace {count : Nat} {left right : Value}
    (alike : left.Alike like Eq right)
    (placed : ∀ closure, left = .function closure → closure.scope < count) :
    left.Alike like (Placement.inPlace count).stands right := by
  cases alike with
  | nil => exact .nil
  | bool => exact .bool
  | number => exact .number
  | string => exact .string
  | function closures =>
      exact .function { closures with scope := ⟨closures.scope, placed _ rfl⟩ }
  | builtin => exact .builtin

theorem Bindings.Alike.inPlace {count : Nat} {left right : Bindings}
    (alike : Bindings.Alike like Eq left right)
    (placed : ∀ binding ∈ left, ∀ closure, binding.2 = .function closure → closure.scope < count) :
    Bindings.Alike like (Placement.inPlace count).stands left right := by
  induction alike with
  | nil => exact .nil
  | cons first _ ih =>
      obtain ⟨placedFirst, placedRest⟩ := List.forall_mem_cons.mp placed
      exact .cons ⟨first.1, first.2.inPlace placedFirst⟩ (ih placedRest)

namespace Machine.Resembles

variable {left right : Machine}

theorem found (resembles : left.Resembles like right) {id : ScopeId} {scope : Scope}
    (found : left.heap.get? id = some scope) :
    ∃ scope', right.heap.get? id = some scope' ∧ scope.enclosing = scope'.enclosing ∧
      Bindings.Alike like Eq scope.bindings scope'.bindings := by
  have scopes := resembles.scopes id
  rw [found] at scopes
  generalize right.heap.get? id = scope'? at scopes
  cases scopes with
  | some scopes => exact ⟨_, rfl, scopes⟩

theorem found' (resembles : left.Resembles like right) {id : ScopeId} {scope' : Scope}
    (found : right.heap.get? id = some scope') :
    ∃ scope, left.heap.get? id = some scope ∧ scope.enclosing = scope'.enclosing := by
  have scopes := resembles.scopes id
  rw [found] at scopes
  generalize left.heap.get? id = scope? at scopes
  cases scopes with
  | some scopes => exact ⟨_, rfl, scopes.1⟩

theorem nextId (resembles : left.Resembles like right) :
    left.heap.nextId = right.heap.nextId := by
  refine Nat.le_antisymm (Nat.le_of_not_lt fun fewer => ?_) (Nat.le_of_not_lt fun fewer => ?_)
  · obtain ⟨_, found, _⟩ := resembles.found (Array.getElem?_eq_getElem fewer)
    exact absurd (Heap.lt_nextId found) (Nat.lt_irrefl _)
  · obtain ⟨_, found, _⟩ := resembles.found' (Array.getElem?_eq_getElem fewer)
    exact absurd (Heap.lt_nextId found) (Nat.lt_irrefl _)

/-- Machines that resemble each other are alike, every scope being in its own place. -/
theorem alike (resembles : left.Resembles like right) (coherent : left.Coherent)
    (clock : left.clock = right.clock) :
    Machine.Alike like True true (.inPlace left.heap.nextId) left right where
  heap :=
    { ordered := coherent.ordered
      ordered' := by
        intro id scope' found' outer around
        obtain ⟨scope, found, same⟩ := resembles.found' found'
        exact coherent.ordered id scope found outer (same.trans around)
      matched := by
        rintro id _ other _ ⟨rfl, _⟩ ⟨rfl, _⟩
        exact Iff.rfl
      scopes := by
        rintro id _ ⟨rfl, old⟩
        have found : left.heap.get? id = some left.heap.scopes[id] :=
          Array.getElem?_eq_getElem old
        obtain ⟨scope', found', same, bindings⟩ := resembles.found found
        refine ⟨_, _, found, found', ?_, bindings.inPlace (coherent.closures id _ found)⟩
        have newer := coherent.ordered id _ found
        rw [← same]
        generalize Scope.enclosing _ = outer? at newer
        cases outer? with
        | none => exact .none
        | some outer => exact .some (.inl ⟨rfl, Nat.lt_trans (newer outer rfl) old⟩)
      pockets := False.elim
      aligned := fun _ => ⟨resembles.nextId, fun _ _ => Iff.rfl⟩ }
  current := .inl ⟨resembles.current, coherent.current⟩
  settled := fun _ => ⟨resembles.current, coherent.current⟩
  functionsMade := resembles.functionsMade
  clock := clock
  readings := resembles.readings
  output := resembles.output

end Machine.Resembles

end Resemblance

/-! ## Parsing and executing without places -/

/-- Token lists that agree in kinds and texts are parsed alike: the statements
differ in places only, and so do the tokens of the two errors, whose faults are
the same. Statements that differ in places only, executed on coherent machines
that do so too, stop with the same fault and message at tokens written alike or
both with none, after the same output, on machines that again differ in places
only. And every machine that runs lead to is coherent. -/
theorem behaviour_ignores_layout :
    (∀ tokens tokens', List.Forall₂ Token.SameWriting tokens tokens' →
      (parseTokens tokens).Alike Token.SameWriting (parseTokens tokens')) ∧
    (∀ (depth : Nat) (statements statements' : List Stmt) (machine machine' : Machine),
      List.Forall₂ (Stmt.Alike Token.SameWriting) statements statements' →
      machine.Coherent → machine.Resembles Token.SameWriting machine' →
      machine.clock = machine'.clock →
        let ended := executeProgram depth statements machine
        let ended' := executeProgram depth statements' machine'
        List.Forall₂ (Error.Elsewhere Token.SameWriting) (ended.1.map Error.evaluation).toList
            (ended'.1.map Error.evaluation).toList ∧
          ended.2.output = ended'.2.output ∧ ended.2.Resembles Token.SameWriting ended'.2) ∧
    (∀ (clock : Nat → Float) (output : Output) (sources : List (Nat × String)),
      let fresh : Machine := { Machine.start clock none with output }
      (fresh.running sources).Coherent) := by
  refine ⟨fun tokens tokens' same => ?_, ?_, running_coherent⟩
  · exact parseTokens_alike sameWriting_writtenAlike same (endingOf_sameWriting same)
  · intro depth statements statements' machine machine' alike coherent resembles clock
    obtain ⟨_, _, faults, machines⟩ := executeProgram_follows sameWriting_writtenAlike depth alike
      (resembles.alike coherent clock)
    exact ⟨errors_elsewhere sameWriting_writtenAlike faults, machines.output, machines.resembles⟩

/-- A call of a function whose body fails, all of it laid out in two ways. -/
theorem failing_call_ignores_layout :
    let tokens (line column : Nat) : List Token :=
      [⟨.name, "f", line, column⟩, ⟨.symbol .leftParen, "(", line, column + 2⟩,
        ⟨.symbol .rightParen, ")", line + 1, column⟩, ⟨.symbol .semicolon, ";", line + 1, 9⟩]
    let call (line column : Nat) : List Stmt :=
      [.expression (.call (.variable ⟨.name, "f", line, column⟩)
        ⟨.symbol .rightParen, ")", line + 1, column⟩ [])]
    let body (line : Nat) : List Stmt := [.print (.variable ⟨.name, "a", line, 9⟩)]
    let declared (line : Nat) : Machine :=
      { Machine.start (fun _ => 0) none with
        heap := .ofGlobals [("f", .function ⟨0, 0, ⟨.name, "f", line, 5⟩, [], body line⟩)] }
    let ended := executeProgram 9 (call 1 1) (declared 2)
    let ended' := executeProgram 9 (call 5 7) (declared 3)
    List.Forall₂ Token.SameWriting (tokens 1 1) (tokens 5 7) ∧
      (parseTokens (tokens 1 1)).Alike Token.SameWriting (parseTokens (tokens 5 7)) ∧
      List.Forall₂ (Stmt.Alike Token.SameWriting) (call 1 1) (call 5 7) ∧
      (declared 2).Coherent ∧ (declared 2).Resembles Token.SameWriting (declared 3) ∧
      List.Forall₂ (Error.Elsewhere Token.SameWriting) (ended.1.map Error.evaluation).toList
        (ended'.1.map Error.evaluation).toList := by
  intro tokens call body declared ended ended'
  have same : ∀ {kind lexeme line column line' column'},
      Token.SameWriting ⟨kind, lexeme, line, column⟩ ⟨kind, lexeme, line', column'⟩ := ⟨rfl, rfl⟩
  have sameTokens : List.Forall₂ Token.SameWriting (tokens 1 1) (tokens 5 7) :=
    .cons same (.cons same (.cons same (.cons same .nil)))
  have sameCall : List.Forall₂ (Stmt.Alike Token.SameWriting) (call 1 1) (call 5 7) :=
    .cons (.expression (.call (.variable same) same .nil)) .nil
  have coherent : (declared 2).Coherent := by
    refine ⟨?_, Nat.zero_lt_one, ?_⟩
    · intro id scope found outer around
      obtain ⟨_, rfl⟩ := Array.getElem?_eq_some_iff.mp found
      simp [declared, Heap.ofGlobals] at around
    · intro id scope found binding member closure isFunction
      obtain ⟨_, rfl⟩ := Array.getElem?_eq_some_iff.mp found
      simp only [declared, Heap.ofGlobals, List.getElem_toArray, List.getElem_singleton,
        List.mem_singleton] at member
      subst member
      cases isFunction
      exact Nat.zero_lt_one
  have resembles : (declared 2).Resembles Token.SameWriting (declared 3) := by
    refine ⟨rfl, rfl, rfl, rfl, fun id => ?_⟩
    cases id with
    | zero =>
        refine .some ⟨rfl, .cons ⟨rfl, .function ⟨rfl, rfl, same, .nil, ?_⟩⟩ .nil⟩
        exact .cons (.print (.variable same)) .nil
    | succ id => exact .none
  obtain ⟨parses, runs, _⟩ := behaviour_ignores_layout
  obtain ⟨errors, _⟩ := runs 9 _ _ _ _ sameCall coherent resembles rfl
  exact ⟨sameTokens, parses _ _ sameTokens, sameCall, coherent, resembles, errors⟩

end Lox
