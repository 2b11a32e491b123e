import Lox.Proofs.Evaluation.Coherence
import Lox.Proofs.Grammar.Relocation
import Lox.Proofs.Runs
import Lox.Proofs.Source.Joining

/-!
# Running sources in pieces

Running two sources in turn is like running the one text that they make with a
line feed between them. The tokens of the second source are on later lines in
there, and that is all the difference: no statement reaches beyond its source,
and no evaluation looks at where its tokens stand.
-/

set_option autoImplicit false

namespace Lox

/-! ## Parsing sources -/

/-- The tokens of a source without its end. -/
def bodyTokens (source : String) : List Token := Item.tokens (itemsOf source)

theorem tokensOf_eq (source : String) :
    ∃ line, tokensOf source = bodyTokens source ++ [Token.ending line] := by
  obtain ⟨line, items⟩ := scan_itemsOf source
  exact ⟨line, by simp [tokensOf, items, bodyTokens, Item.tokens, Except.toOption]⟩

theorem bodyTokens_subset (source : String) :
    ∀ token ∈ bodyTokens source, token ∈ tokensOf source := by
  obtain ⟨line, tokens⟩ := tokensOf_eq source
  simp +contextual [tokens]

theorem bodyOf_tokensOf (source : String) : bodyOf (tokensOf source) = bodyTokens source := by
  obtain ⟨line, tokens⟩ := tokensOf_eq source
  have notEnding : ∀ token ∈ bodyTokens source, (!token.isEnding) = true := by
    intro token member
    obtain ⟨item, inItems, isToken⟩ := List.mem_filterMap.mp member
    cases item with
    | error error => cases isToken
    | ok found =>
        obtain rfl := Option.some.inj isToken
        simpa [Item.isEnding, Token.isEnding] using itemsOf_notEnding inItems
  rw [bodyOf, tokens, List.takeWhile_append_of_pos notEnding]
  simp [Token.isEnding, Token.ending]

/-- A source is accepted if it has no lexical error and its tokens are a program. -/
theorem parse_eq_ok_iff {source : String} {statements : List Stmt} :
    parse source = .ok statements ↔
      Item.errors (itemsOf source) = [] ∧ Grammar.Program statements (bodyTokens source) := by
  obtain ⟨line, items⟩ := scan_itemsOf source
  have errors :
      Item.errors (Scanner.ofSource source).scan.items = Item.errors (itemsOf source) := by
    simp [items, Item.errors, Item.error?]
  rw [← Parse.ofBody_iff_program, ← bodyOf_tokensOf, ← errors, parse_accepts_iff]
  simp [parseTokens]

theorem bodyTokens_append (first second : String) :
    bodyTokens (first ++ "\n" ++ second) =
      bodyTokens first ++ (bodyTokens second).map (Token.later (linesBefore first)) := by
  simp only [bodyTokens, itemsOf_append, Item.tokens, List.filterMap_append, List.filterMap_map,
    List.map_filterMap]
  congr 1
  apply List.filterMap_congr
  rintro (error | token) _
  · rfl
  · rfl

theorem errors_append {first second : String} (noErrors : Item.errors (itemsOf first) = [])
    (noErrors' : Item.errors (itemsOf second) = []) :
    Item.errors (itemsOf (first ++ "\n" ++ second)) = [] := by
  simp only [Item.errors, List.filterMap_eq_nil_iff] at noErrors noErrors' ⊢
  intro item member
  rw [itemsOf_append, List.mem_append, List.mem_map] at member
  obtain member | ⟨before, member, rfl⟩ := member
  · exact noErrors item member
  · have noError := noErrors' before member
    cases before with
    | ok token => rfl
    | error error => cases noError

theorem writtenAlike_later (lines : Nat) :
    Token.WrittenAlike fun left right => right = left.later lines := by
  rintro left _ rfl
  exact ⟨rfl, rfl⟩

/-- Of two accepted sources the joined text is accepted: it has the statements
of the first and, at their places in there, those of the second. -/
theorem parse_append {first second : String} {statements others : List Stmt}
    (parsed : parse first = .ok statements) (parsedOthers : parse second = .ok others) :
    ∃ others', parse (first ++ "\n" ++ second) = .ok (statements ++ others') ∧
      ∀ like : Token → Token → Prop, Token.WrittenAlike like →
        (∀ token ∈ tokensOf second, like token (token.later (linesBefore first))) →
          List.Forall₂ (Stmt.Alike like) others others' := by
  obtain ⟨noErrors, derived⟩ := parse_eq_ok_iff.mp parsed
  obtain ⟨noErrors', derivedOthers⟩ := parse_eq_ok_iff.mp parsedOthers
  have moved : ∀ like : Token → Token → Prop, Token.WrittenAlike like →
      (∀ token ∈ tokensOf second, like token (token.later (linesBefore first))) →
        ∃ others', Grammar.Program others'
            ((bodyTokens second).map (Token.later (linesBefore first))) ∧
          List.Forall₂ (Stmt.Alike like) others others' := by
    intro like written later
    refine derivedOthers.relocates written (List.forall₂_map_right_iff.mpr ?_)
    exact List.forall₂_same.mpr fun token member =>
      later token (bodyTokens_subset second token member)
  obtain ⟨others', derivedOthers', -⟩ :=
    moved _ (writtenAlike_later (linesBefore first)) fun _ _ => rfl
  refine ⟨others', parse_eq_ok_iff.mpr ⟨errors_append noErrors noErrors', ?_⟩, ?_⟩
  · rw [bodyTokens_append]
    exact derived.followed derivedOthers'
  · intro like written later
    -- The statements do not depend on the relation, as tokens are one program at most.
    obtain ⟨others'', derivedOthers'', alike⟩ := moved like written later
    obtain rfl := derivedOthers''.unique derivedOthers'
    exact alike

/-- The statements of a source are alike themselves if its tokens are. -/
theorem parse_alike_self {like : Token → Token → Prop} (written : Token.WrittenAlike like)
    {source : String} {statements : List Stmt} (parsed : parse source = .ok statements)
    (known : ∀ token ∈ tokensOf source, like token token) :
    List.Forall₂ (Stmt.Alike like) statements statements := by
  obtain ⟨_, derived⟩ := parse_eq_ok_iff.mp parsed
  have likely : List.Forall₂ like (bodyTokens source) (bodyTokens source) :=
    List.forall₂_same.mpr fun token member => known token (bodyTokens_subset source token member)
  obtain ⟨statements', derived', alike⟩ := derived.relocates written likely
  obtain rfl := derived'.unique derived
  exact alike

/-! ## Running sources -/

section Running

variable {like : Token → Token → Prop} {placement : Placement}

theorem start_alike_self (clock : Nat → Float) (output : Output) :
    let fresh : Machine := { Machine.start clock none with output }
    Machine.Alike like True true (.inPlace fresh.heap.nextId) fresh fresh := by
  intro fresh
  have ordered : fresh.heap.Ordered := (Machine.start_coherent clock none).ordered
  have current : fresh.current < fresh.heap.nextId := (Machine.start_coherent clock none).current
  have values : ∀ id scope, fresh.heap.get? id = some scope → ∀ binding ∈ scope.bindings,
      binding.2.Alike like (Placement.inPlace fresh.heap.nextId).stands binding.2 := by
    intro id scope found binding member
    have bindings := (@Machine.start_bindings clock none id scope found).2
    rw [bindings, List.mem_singleton] at member
    subst member
    exact .builtin
  exact Machine.alike_self ordered current values True true

/-- Running a source keeps a machine alike itself if the tokens of the source are. -/
theorem run_alike_self (written : Token.WrittenAlike like) (depth : Nat) {source : String}
    (known : ∀ token ∈ tokensOf source, like token token) {machine : Machine}
    (alike : Machine.Alike like True true placement machine machine) :
    ∃ later, Machine.Alike like True true later (run depth source machine).machine
      (run depth source machine).machine := by
  have fresh : Machine.Alike like True true placement { machine with notes := #[] }
      { machine with notes := #[] } := { alike with }
  cases parsed : parse source with
  | error errors =>
      rw [(run_of_rejected depth machine parsed).2]
      exact ⟨placement, fresh⟩
  | ok statements =>
      obtain ⟨later, _, _, machines⟩ :=
        executeProgram_follows written depth (parse_alike_self written parsed known) fresh
      rw [(run_of_parse depth machine parsed).2]
      exact ⟨later, machines⟩

theorem running_alike_self (written : Token.WrittenAlike like) (sources : List (Nat × String))
    (known : ∀ source ∈ sources, ∀ token ∈ tokensOf source.2, like token token) :
    ∀ {placement : Placement} {machine : Machine},
      Machine.Alike like True true placement machine machine →
        ∃ later, Machine.Alike like True true later (machine.running sources)
          (machine.running sources) := by
  induction sources with
  | nil => exact fun alike => ⟨_, alike⟩
  | cons first rest ih =>
      intro placement machine alike
      obtain ⟨knownFirst, knownRest⟩ := List.forall_mem_cons.mp known
      obtain ⟨later, alike⟩ := run_alike_self written first.1 knownFirst alike
      exact ih knownRest alike

end Running

theorem executeProgram_append (depth : Nat) (first second : List Stmt) (machine : Machine) :
    executeProgram depth (first ++ second) machine =
      match executeProgram depth first machine with
      | (none, after) => executeProgram depth second after
      | (some fault, after) => (some fault, after) := by
  induction first generalizing machine with
  | nil => rfl
  | cons stmt rest ih =>
      simp only [List.cons_append, executeProgram]
      cases execute depth stmt machine with
      | error fault after => rfl
      | ok completion after =>
          cases completion with
          | normal => exact ih after
          | returned value => rfl

/-- Whatever sources have been run, the machine is coherent. -/
theorem running_coherent (clock : Nat → Float) (output : Output) (sources : List (Nat × String)) :
    let fresh : Machine := { Machine.start clock none with output }
    (fresh.running sources).Coherent := by
  intro fresh
  have started : Machine.Alike Eq True true _ fresh fresh := start_alike_self clock output
  obtain ⟨later, alike⟩ := running_alike_self writtenAlike_eq sources (by simp) started
  exact alike.coherent

/-! ## Pieces and the whole -/

/-- Machines with the same scopes, in which alike values stand, and the same
output. What they differ in is the tokens of functions. -/
structure Machine.Resembles (like : Token → Token → Prop) (left right : Machine) : Prop where
  output : left.output = right.output
  current : left.current = right.current
  readings : left.readings = right.readings
  functionsMade : left.functionsMade = right.functionsMade
  scopes : ∀ id, Option.Rel (fun scope scope' => scope.enclosing = scope'.enclosing ∧
    Bindings.Alike like Eq scope.bindings scope'.bindings) (left.heap.get? id) (right.heap.get? id)

theorem Machine.Alike.resembles {like : Token → Token → Prop} {placement : Placement}
    {left right : Machine} (alike : Machine.Alike like True true placement left right) :
    left.Resembles like right := by
  obtain ⟨sizes, inPlace⟩ := alike.heap.aligned trivial
  have same : ∀ id id', placement.stands id id' → id = id' := fun id id' stands =>
    ((inPlace id id').mp stands).1
  have noPocket : ∀ id id', ¬placement.pocket id id' := by
    intro id id' pocket
    obtain ⟨outer, _, found, apart⟩ := alike.heap.pockets pocket
    have old := sizes ▸ Heap.lt_nextId found
    exact apart id' ((inPlace id' id').mpr ⟨rfl, old⟩)
  have leads : ∀ {id id'}, placement.Leads id id' → id = id' := by
    rintro id id' (stands | pocket)
    · exact same id id' stands
    · exact absurd pocket (noPocket id id')
  refine ⟨alike.output, same _ _ (alike.settled rfl), alike.readings, alike.functionsMade, ?_⟩
  intro id
  by_cases old : id < left.heap.nextId
  · obtain ⟨scope, scope', found, found', scopes⟩ :=
      alike.heap.scopes ((inPlace id id).mpr ⟨rfl, old⟩)
    rw [found, found']
    refine .some ⟨?_, scopes.bindings.mono same⟩
    have around := scopes.enclosing
    revert around
    generalize scope.enclosing = outer?
    generalize scope'.enclosing = outer'?
    rintro (stands | _)
    · rw [leads stands]
    · rfl
  · have beyond := Nat.le_of_not_lt old
    rw [Heap.get?_eq_none beyond, Heap.get?_eq_none (sizes ▸ beyond)]
    exact .none

/-- How the tokens of a text that joins two sources are like those of the pieces:
those of the second source on later lines, and known ones where they were. -/
def Token.Joined (known : Token → Prop) (first second : String) (left right : Token) : Prop :=
  (left ∈ tokensOf second ∧ right = left.later (linesBefore first)) ∨ (known left ∧ right = left)

theorem joined_writtenAlike (known : Token → Prop) (first second : String) :
    Token.WrittenAlike (Token.Joined known first second) := by
  rintro left _ (⟨_, rfl⟩ | ⟨_, rfl⟩)
  · exact ⟨rfl, rfl⟩
  · exact ⟨rfl, rfl⟩

/-- The same error, at a token that is like the one of the other error if there is one. -/
inductive Error.Elsewhere (like : Token → Token → Prop) : Error → Error → Prop where
  | runtime {error error' : RuntimeError} :
      error.fault = error'.fault → error.message = error'.message → like error.token error'.token →
      Elsewhere like (.evaluation (.runtime error)) (.evaluation (.runtime error'))
  | same {error} : error.line? = none → Elsewhere like error error

theorem Fault.Alike.elsewhere {like : Token → Token → Prop} (written : Token.WrittenAlike like)
    {fault fault' : Fault} (alike : Fault.Alike like fault fault') :
    Error.Elsewhere like (.evaluation fault) (.evaluation fault') := by
  cases alike with
  | @runtime fault token token' likely =>
      refine .runtime rfl ?_ likely
      simp only [RuntimeError.message, (written _ _ likely).2]
  | internal | outputFull | tooDeep => exact .same rfl

theorem errors_elsewhere {like : Token → Token → Prop} (written : Token.WrittenAlike like)
    {fault? fault'? : Option Fault} (alike : Option.Rel (Fault.Alike like) fault? fault'?) :
    List.Forall₂ (Error.Elsewhere like) (fault?.map Error.evaluation).toList
      (fault'?.map Error.evaluation).toList := by
  cases alike with
  | none => exact .nil
  | some alike => exact .cons (alike.elsewhere written) .nil

/-- A text whose statements begin with those of a source runs like the source
and, if that stops with no fault, executes the other statements after it. -/
theorem run_of_statements_append {source text : String} {statements others : List Stmt}
    (parsed : parse source = .ok statements) (parsedText : parse text = .ok (statements ++ others))
    (depth : Nat) (machine : Machine) :
    let begun := run depth source machine
    let whole := run depth text machine
    (begun.errors ≠ [] → whole.errors = begun.errors ∧ whole.machine = begun.machine) ∧
      (begun.errors = [] →
        let ended := executeProgram depth others begun.machine
        whole.errors = (ended.1.map Error.evaluation).toList ∧ whole.machine = ended.2) := by
  intro begun whole
  obtain ⟨begunErrors, begunMachine⟩ := run_of_parse depth machine parsed
  obtain ⟨wholeErrors, wholeMachine⟩ := run_of_parse depth machine parsedText
  rw [executeProgram_append] at wholeErrors wholeMachine
  revert begunErrors begunMachine wholeErrors wholeMachine
  generalize executeProgram depth statements { machine with notes := #[] } = first
  obtain ⟨_ | fault, after⟩ := first
  · intro begunErrors begunMachine wholeErrors wholeMachine
    have reached : begun.machine = after := begunMachine
    rw [reached]
    exact ⟨fun failed => absurd begunErrors failed, fun _ => ⟨wholeErrors, wholeMachine⟩⟩
  · intro begunErrors begunMachine wholeErrors wholeMachine
    refine ⟨fun _ => ⟨wholeErrors.trans begunErrors.symm, wholeMachine.trans begunMachine.symm⟩, ?_⟩
    intro succeeded
    cases begunErrors.symm.trans succeeded

/-- Executing statements that are alike those of a source is like running the source. -/
theorem run_elsewhere {like : Token → Token → Prop} (written : Token.WrittenAlike like)
    {source : String} {statements statements' : List Stmt} (parsed : parse source = .ok statements)
    (alikeStatements : List.Forall₂ (Stmt.Alike like) statements statements') (depth : Nat)
    {placement : Placement} {machine : Machine}
    (alike : Machine.Alike like True true placement machine machine) :
    let ended := executeProgram depth statements' machine
    List.Forall₂ (Error.Elsewhere like) (run depth source machine).errors
        (ended.1.map Error.evaluation).toList ∧
      (run depth source machine).machine.Resembles like ended.2 := by
  have fresh : Machine.Alike like True true placement { machine with notes := #[] } machine :=
    { alike with }
  obtain ⟨later, _, faults, machines⟩ := executeProgram_follows written depth alikeStatements fresh
  obtain ⟨errors, after⟩ := run_of_parse depth machine parsed
  rw [errors, after]
  exact ⟨errors_elsewhere written faults, machines.resembles⟩

/-- Two accepted sources, run in turn after any earlier ones, do what the text
does that joins them with a line feed between. The statements of that text are
those of the first and, on later lines, those of the second. If the first source
stops with an error, so does the text, and the machine is then the same. Else
the text goes on with its other statements after the first source, and ends as
the second source does: with the same error if any, after the same output, and
with alike values in the same scopes. Tokens of the second source are later in
the text by the lines of the first, and all other tokens are where they were. -/
theorem joined_sources_run_in_turn (clock : Nat → Float) (output : Output)
    (earlier : List (Nat × String)) (depth : Nat) {first second : String}
    {statements others : List Stmt} (parsed : parse first = .ok statements)
    (parsedOthers : parse second = .ok others) :
    let fresh : Machine := { Machine.start clock none with output }
    let known := fun token => token ∈ tokensOf first ∨ ∃ source ∈ earlier, token ∈ tokensOf source.2
    let like := Token.Joined known first second
    let begun := run depth first (fresh.running earlier)
    let continued := run depth second begun.machine
    let joined := run depth (first ++ "\n" ++ second) (fresh.running earlier)
    ∃ others', parse (first ++ "\n" ++ second) = .ok (statements ++ others') ∧
      List.Forall₂ (Stmt.Alike fun left right => right = left.later (linesBefore first))
        others others' ∧
      (begun.errors ≠ [] → joined.errors = begun.errors ∧ joined.machine = begun.machine) ∧
      (begun.errors = [] →
        let ended := executeProgram depth others' begun.machine
        joined.errors = (ended.1.map Error.evaluation).toList ∧ joined.machine = ended.2 ∧
          List.Forall₂ (Error.Elsewhere like) continued.errors joined.errors ∧
          continued.machine.Resembles like joined.machine) := by
  intro fresh known like begun continued joined
  have written := joined_writtenAlike known first second
  obtain ⟨others', parsedJoined, alikeOthers⟩ := parse_append parsed parsedOthers
  obtain ⟨stopped, resumed⟩ :=
    run_of_statements_append parsed parsedJoined depth (fresh.running earlier)
  refine ⟨others', parsedJoined,
    alikeOthers _ (writtenAlike_later (linesBefore first)) fun _ _ => rfl, stopped, ?_⟩
  intro succeeded
  obtain ⟨errors, machine⟩ := resumed succeeded
  have started : Machine.Alike like True true _ fresh fresh := start_alike_self clock output
  have knownEarlier : ∀ source ∈ earlier, ∀ token ∈ tokensOf source.2, like token token :=
    fun source inEarlier token member => .inr ⟨.inr ⟨source, inEarlier, member⟩, rfl⟩
  obtain ⟨_, alikeEarlier⟩ := running_alike_self written earlier knownEarlier started
  have knownFirst : ∀ token ∈ tokensOf first, like token token :=
    fun token member => .inr ⟨.inl member, rfl⟩
  obtain ⟨_, alikeBegun⟩ := run_alike_self written depth knownFirst alikeEarlier
  have moved := alikeOthers like written fun token member => .inl ⟨member, rfl⟩
  obtain ⟨elsewhere, resembles⟩ := run_elsewhere written parsedOthers moved depth alikeBegun
  exact ⟨errors, machine, errors ▸ elsewhere, machine ▸ resembles⟩

/-- A function of the first source that the second one calls, on a machine that starts afresh. -/
theorem joined_call_runs_in_turn :
    let first := "fun f() \x7b print a; \x7d"
    let second := "f();"
    let fresh : Machine := { Machine.start (fun _ => 0) none with output := .ofCapacity none }
    let known := fun token => token ∈ tokensOf first ∨
      ∃ source ∈ ([] : List (Nat × String)), token ∈ tokensOf source.2
    let like := Token.Joined known first second
    let begun := run 9 first (fresh.running [])
    let continued := run 9 second begun.machine
    let joined := run 9 (first ++ "\n" ++ second) (fresh.running [])
    begun.errors = [] ∧ List.Forall₂ (Error.Elsewhere like) continued.errors joined.errors ∧
      continued.machine.Resembles like joined.machine := by
  intro first second fresh known like begun continued joined
  have parsed : parse first = .ok
      [.function ⟨.name, "f", 1, 5⟩ [] [.print (.variable ⟨.name, "a", 1, 17⟩)]] := by decide +kernel
  have parsedOthers : parse second = .ok
      [.expression (.call (.variable ⟨.name, "f", 1, 1⟩) ⟨.symbol .rightParen, ")", 1, 3⟩ [])] := by
    decide +kernel
  have succeeded : begun.errors = [] := (run_of_parse 9 (fresh.running []) parsed).1
  have runs := joined_sources_run_in_turn (fun _ => 0) (.ofCapacity none) [] 9 parsed parsedOthers
  obtain ⟨_, _, _, _, resumed⟩ := runs
  exact ⟨succeeded, (resumed succeeded).2.2⟩

end Lox
