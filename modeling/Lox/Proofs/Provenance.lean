import Lox.Proofs.Joining

/-!
# Where reported tokens come from

Every token that an error points at was read. The one of a syntax error is a token
of the source that is run. The one of a runtime fault was read from that source
or, inside a function that was declared before, from an earlier one, and in either
case from a source that was accepted. No tree holds a token that was made up: the
end of a source gets into none.
-/

set_option autoImplicit false

namespace Lox

namespace Token

/-- The line with the number of the token shows its lexeme, from its column on. -/
structure StandsIn (source : String) (token : Token) : Prop where
  line : 1 ≤ token.line
  column : 1 ≤ token.column
  nonempty : token.lexeme ≠ ""
  shows : ∃ line, (Source.lines source.toList)[token.line - 1]? = some line ∧
    token.lexeme.toList <+: (Source.spaced line).drop (token.column - 1)
  notEnding : token.kind ≠ .endOfSource

/-- A token of one of some sources, which was accepted, that stands in there. -/
def ReadFrom (sources : List String) (token : Token) : Prop :=
  ∃ source ∈ sources, (∃ statements, parse source = .ok statements) ∧
    token ∈ tokensOf source ∧ token.StandsIn source

end Token

/-! ## Tokens of a source -/

theorem standsIn_of_mem_bodyTokens {source : String} {token : Token}
    (member : token ∈ bodyTokens source) : token.StandsIn source := by
  obtain ⟨item, inItems, isToken⟩ := List.mem_filterMap.mp member
  cases item with
  | error error => cases isToken
  | ok found =>
      obtain rfl := Option.some.inj isToken
      rw [itemsOf, Item.ofText, Scanner.drainFrom_items] at inItems
      obtain ⟨⟨line, number⟩, numbered, inLine⟩ := List.mem_flatMap.mp inItems
      have placed := (Item.ofLine_cover number line).placed _ inLine
      obtain ⟨reached, _, isLine⟩ := List.mem_zipIdx numbered
      have sameLine : found.line = number := placed.line
      refine ⟨sameLine ▸ reached, placed.column, ?_, ⟨line, ?_, ?_⟩, ?_⟩
      · intro empty
        have nonempty := placed.nonempty
        simp [Item.start, Item.stop, Item.column, empty] at nonempty
      · rw [sameLine, isLine]
        exact List.getElem?_eq_getElem _
      · have shows : found.lexeme.toList = _ := placed.shows
        rw [shows]
        exact List.take_prefix _ _
      · simpa [Item.isEnding] using placed.notEnding

/-- The trees of a source point at what was read, and not at its end. -/
theorem parse_wellFormed_body {source : String} {statements : List Stmt}
    (parsed : parse source = .ok statements) :
    ∀ stmt ∈ statements, stmt.WellFormed (· ∈ bodyTokens source) false := by
  obtain ⟨_, derived⟩ := parse_eq_ok_iff.mp parsed
  exact derived.wellFormed fun _ member => member

theorem parse_readFrom {source : String} {sources : List String} (member : source ∈ sources)
    {statements : List Stmt} (parsed : parse source = .ok statements) :
    ∀ stmt ∈ statements, stmt.WellFormed (Token.ReadFrom sources) false := by
  intro stmt inStatements
  refine (parse_wellFormed_body parsed stmt inStatements).mono fun token inBody => ?_
  exact ⟨source, member, ⟨statements, parsed⟩, bodyTokens_subset source token inBody,
    standsIn_of_mem_bodyTokens inBody⟩

/-! ## Tokens of syntax errors -/

/-- A syntax error points at a token of the list, if the end of the source is one of them. -/
theorem parseTokens_error_mem {tokens : List Token} (ending : endingOf tokens ∈ tokens)
    {error : SyntaxError} (failed : (parseTokens tokens).error = some error) :
    error.token ∈ tokens := by
  have written : Token.WrittenAlike fun left right => left ∈ tokens ∧ right = left := by
    intro left right ⟨_, same⟩
    exact same ▸ ⟨rfl, rfl⟩
  -- Tokens of the list are related to themselves, so the two errors are one and the same.
  have alike := (parseTokens_alike written
    (List.forall₂_same.mpr fun _ member => ⟨member, rfl⟩) ⟨ending, rfl⟩).error
  rw [failed] at alike
  cases alike with
  | some errors => exact errors.token.1

theorem endingOf_tokensOf (source : String) : endingOf (tokensOf source) ∈ tokensOf source := by
  obtain ⟨line, tokens⟩ := tokensOf_eq source
  have isEnding : (Token.ending line).isEnding = true := rfl
  have found : ((tokensOf source).find? Token.isEnding).isSome = true := by
    rw [List.find?_isSome]
    exact ⟨Token.ending line, by simp [tokens], isEnding⟩
  obtain ⟨ending, found⟩ := Option.isSome_iff_exists.mp found
  rw [endingOf, found]
  exact List.mem_of_find?_eq_some found

theorem parse_syntactic_mem {source : String} {errors : List Error}
    (rejected : parse source = .error errors) {error : SyntaxError}
    (member : .syntactic error ∈ errors) : error.token ∈ tokensOf source := by
  obtain ⟨-, rfl⟩ | ⟨-, found, failed, rfl⟩ := parse_rejects_iff.mp rejected
  · simp at member
  · obtain rfl := Error.syntactic.inj (List.mem_singleton.mp member)
    exact parseTokens_error_mem (endingOf_tokensOf source) failed

/-- The end of a source is the only token of it that does not stand there. -/
theorem standsIn_or_ending {source : String} {token : Token} (member : token ∈ tokensOf source) :
    token.StandsIn source ∨ ∃ line, token = Token.ending line := by
  obtain ⟨line, tokens⟩ := tokensOf_eq source
  rw [tokens, List.mem_append, List.mem_singleton] at member
  cases member with
  | inl inBody => exact .inl (standsIn_of_mem_bodyTokens inBody)
  | inr isEnding => exact .inr ⟨line, isEnding⟩

theorem run_syntactic_mem {depth : Nat} {source : String} {machine : Machine} {error : SyntaxError}
    (member : .syntactic error ∈ (run depth source machine).errors) :
    error.token ∈ tokensOf source := by
  cases parsed : parse source with
  | error errors =>
      rw [(run_of_rejected depth machine parsed).1] at member
      exact parse_syntactic_mem parsed member
  | ok statements =>
      rw [(run_of_parse depth machine parsed).1] at member
      simp at member

/-! ## Tokens of all errors -/

/-- Of sources run in turn on a machine that starts afresh, a syntax error
points at a token of its source, and a runtime fault at one that was read from
that source or an earlier one, which was accepted. Each such token stands in
the text of that source; only a syntax error can be at the end. Of accepted
sources are also the tokens of all functions that the machine then holds. -/
theorem reported_tokens_were_read (clock : Nat → Float) (output : Output)
    (earlier : List (Nat × String)) (depth : Nat) (source : String) :
    let fresh : Machine := { Machine.start clock none with output }
    let ended := run depth source (fresh.running earlier)
    let sources := source :: earlier.map Prod.snd
    (∀ error, .syntactic error ∈ ended.errors → error.token ∈ tokensOf source ∧
        (error.token.StandsIn source ∨ ∃ line, error.token = Token.ending line)) ∧
      (∀ error, .evaluation (.runtime error) ∈ ended.errors → error.token.ReadFrom sources) ∧
      ended.machine.heap.WellFormed (Token.ReadFrom sources) := by
  intro fresh ended sources
  have started : fresh.heap.WellFormed (Token.ReadFrom sources) :=
    Machine.start_wellFormed _ clock none
  have before : (fresh.running earlier).heap.WellFormed (Token.ReadFrom sources) :=
    fresh.running_wellFormed_of_trees earlier (fun other inEarlier statements parsed =>
      parse_readFrom (.tail _ (List.mem_map_of_mem inEarlier)) parsed) started
  obtain ⟨expected, kept⟩ := run_wellFormed_of_trees depth source
    (fun statements parsed => parse_readFrom (.head _) parsed) before
  refine ⟨fun error member => ?_, fun error member => expected _ member, kept⟩
  have inSource := run_syntactic_mem member
  exact ⟨inSource, standsIn_or_ending inSource⟩

end Lox
