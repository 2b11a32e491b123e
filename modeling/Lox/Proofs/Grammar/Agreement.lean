import Lox.Proofs.Grammar.Bound
import Lox.Proofs.Grammar.Guarded
import Lox.Proofs.Grammar.Soundness

/-!
# Agreement with the parser with guards

The parser with guards does what the parser over the tokens ahead does: the two
read the same, fail at the same tokens, go back as often, and stop at the same
place. Each part of the one follows a part of the other as long as no more tokens
are ahead than the bound allows. That is shown here up to expressions.
-/

set_option autoImplicit false

namespace Lox

/-! ## Token lists with an end -/

/-- The end of the source is among the tokens. -/
def Complete (tokens : List Token) : Prop := ∃ token ∈ tokens, token.isEnding = true

section Front

variable {front : List Token} (noneEnds : ∀ token ∈ front, token.isEnding = false)
  {ending : Token} (isEnding : ending.isEnding = true) (later : List Token)

include noneEnds isEnding

theorem bodyOf_append : bodyOf (front ++ ending :: later) = front := by
  rw [bodyOf, List.takeWhile_append_of_pos (by simpa using noneEnds)]
  simp [isEnding]

theorem endingOf_append : endingOf (front ++ ending :: later) = ending := by
  have none : front.find? Token.isEnding = none := by simpa using noneEnds
  simp [endingOf, none, isEnding]

theorem findIdx_append : (front ++ ending :: later).findIdx Token.isEnding = front.length := by
  rw [List.findIdx_append, List.findIdx_eq_length.mpr noneEnds]
  simp [List.findIdx_cons, isEnding]

end Front

theorem isEnding_of_mem_bodyOf {tokens : List Token} {token : Token}
    (member : token ∈ bodyOf tokens) : token.isEnding = false := by
  have all : (bodyOf tokens).all (!·.isEnding) = true := List.all_takeWhile
  simpa using List.all_eq_true.mp all token member

namespace Complete

variable {tokens : List Token} (complete : Complete tokens)

include complete

theorem split : ∃ front ending later, tokens = front ++ ending :: later ∧
    (∀ token ∈ front, token.isEnding = false) ∧ ending.isEnding = true := by
  obtain ⟨token, member, isEnding⟩ := complete
  obtain ⟨ending, found⟩ := Option.isSome_iff_exists.mp
    (List.find?_isSome.mpr ⟨token, member, isEnding⟩)
  obtain ⟨ends, front, later, same, noneEnds⟩ := List.find?_eq_some_iff_append.mp found
  exact ⟨front, ending, later, same, by simpa using noneEnds, ends⟩

theorem isEnding_endingOf : (endingOf tokens).isEnding = true := by
  obtain ⟨front, ending, later, rfl, noneEnds, ends⟩ := complete.split
  rw [endingOf_append noneEnds ends]
  exact ends

theorem getElem?_body {index : Nat} {token : Token} (found : (bodyOf tokens)[index]? = some token) :
    tokens[index]? = some token := by
  obtain ⟨front, ending, later, rfl, noneEnds, ends⟩ := complete.split
  rw [bodyOf_append noneEnds ends] at found
  rw [List.getElem?_append_left (List.getElem?_eq_some_iff.mp found).1, found]

theorem getElem?_ending : tokens[(bodyOf tokens).length]? = some (endingOf tokens) := by
  obtain ⟨front, ending, later, rfl, noneEnds, ends⟩ := complete.split
  rw [bodyOf_append noneEnds ends, endingOf_append noneEnds ends]
  simp

/-- The first end of the source stands behind the body. -/
theorem findIdx_eq : tokens.findIdx Token.isEnding = (bodyOf tokens).length := by
  obtain ⟨front, ending, later, rfl, noneEnds, ends⟩ := complete.split
  rw [bodyOf_append noneEnds ends, findIdx_append noneEnds ends]

end Complete

/-! ## Places and cursors -/

/-- The place is in front of the same tokens as the cursor, inside as many function bodies. -/
structure Place.Stands (tokens : List Token) (place : Place) (cursor : Cursor) : Prop where
  rest : cursor.rest = (bodyOf tokens).drop place.index
  reached : place.index ≤ (bodyOf tokens).length
  depth : place.depth = cursor.depth

namespace Place.Stands

variable {tokens : List Token} {place : Place} {cursor : Cursor}

theorem index_eq (stands : place.Stands tokens cursor) :
    (bodyOf tokens).length - cursor.remaining = place.index := by
  have reached := stands.reached
  rw [cursor.remaining_eq, stands.rest, List.length_drop]
  omega

/-- Where fewer tokens are ahead, the index is greater by as many. -/
theorem index_add_le {later : Place} {reached : Cursor} (stands : place.Stands tokens cursor)
    (standsLater : later.Stands tokens reached) {gap : Nat}
    (fewer : reached.rest.length + gap ≤ cursor.rest.length) : place.index + gap ≤ later.index := by
  have within := stands.reached
  rw [stands.rest, standsLater.rest, List.length_drop, List.length_drop] at fewer
  omega

theorem skip (stands : place.Stands tokens cursor) {skipped : Nat}
    (ahead : skipped ≤ cursor.rest.length) :
    { place with index := place.index + skipped }.Stands tokens (cursor.skip skipped) where
  rest := by
    simp only [Cursor.skip, stands.rest, List.drop_drop]
  reached := by
    have reached := stands.reached
    rw [stands.rest, List.length_drop] at ahead
    dsimp only
    omega
  depth := stands.depth

theorem next (stands : place.Stands tokens cursor) {token : Token} {later : List Token}
    (ahead : cursor.rest = token :: later) :
    { place with index := place.index + 1 }.Stands tokens (cursor.skip 1) :=
  stands.skip (by simp [ahead])

theorem getElem?_of_cons (stands : place.Stands tokens cursor) (complete : Complete tokens)
    {token : Token} {later : List Token} (ahead : cursor.rest = token :: later) :
    tokens[place.index]? = some token := by
  apply complete.getElem?_body
  have first := congrArg List.head? (stands.rest.symm.trans ahead)
  simpa using first

theorem getElem?_of_nil (stands : place.Stands tokens cursor) (complete : Complete tokens)
    (ended : cursor.rest = []) : tokens[place.index]? = some (endingOf tokens) := by
  have beyond := List.drop_eq_nil_iff.mp (stands.rest.symm.trans ended)
  rw [Nat.le_antisymm stands.reached beyond]
  exact complete.getElem?_ending

theorem exists_token (stands : place.Stands tokens cursor) (complete : Complete tokens) :
    ∃ token, tokens[place.index]? = some token := by
  cases ahead : cursor.rest with
  | nil => exact ⟨_, stands.getElem?_of_nil complete ahead⟩
  | cons token later => exact ⟨token, stands.getElem?_of_cons complete ahead⟩

theorem head_not_ending (stands : place.Stands tokens cursor) {token : Token}
    {later : List Token} (ahead : cursor.rest = token :: later) : token.isEnding = false := by
  have member : token ∈ (bodyOf tokens).drop place.index := by
    rw [← stands.rest, ahead]
    exact .head _
  exact isEnding_of_mem_bodyOf (List.mem_of_mem_drop member)

end Place.Stands

theorem Cursor.length_skip_lt (cursor : Cursor) {token : Token} {later : List Token}
    (ahead : cursor.rest = token :: later) : (cursor.skip 1).rest.length < cursor.rest.length := by
  simp [Cursor.skip, ahead]

namespace Parser

variable {α : Type} {accepts : TokenKind → Bool} {next : Option Token → Parser α} {start : Cursor}

theorem bind_acceptIf_of_nil (ended : start.rest = []) :
    (acceptIf accepts >>= next) start = next none start := by
  have refused : acceptIf accepts start = ⟨.ok none, start, []⟩ := by
    rw [acceptIf, bind_ahead, ended]
    rfl
  exact bind_of_ok refused

theorem bind_acceptIf_of_cons {token : Token} {later : List Token}
    (ahead : start.rest = token :: later) :
    (acceptIf accepts >>= next) start =
      if accepts token.kind then next (some token) (start.skip 1) else next none start := by
  split
  · next accepted =>
    have read : acceptIf accepts start = ⟨.ok (some token), start.skip 1, []⟩ := by
      rw [acceptIf, bind_ahead, ahead]
      simp only [accepted, if_true]
      rfl
    exact bind_of_ok read
  · next refused =>
    have refused : acceptIf accepts start = ⟨.ok none, start, []⟩ := by
      rw [acceptIf, bind_ahead, ahead]
      simp only [refused]
      rfl
    exact bind_of_ok refused

end Parser

namespace Guarded

variable {α β : Type} {tokens : List Token} {place : Place} {cursor : Cursor} {count : Nat}

theorem bind_of_ok {first : Guarded α} {next : α → Guarded β} {value : α} {middle : Place}
    (succeeded : first tokens place = some (.ok value, middle)) :
    (first >>= next) tokens place = next value tokens middle := by
  simp only [bind, Guarded.bind, succeeded]

theorem bind_of_error {first : Guarded α} {next : α → Guarded β} {error : SyntaxError}
    {middle : Place} (failed : first tokens place = some (.error error, middle)) :
    (first >>= next) tokens place = some (.error error, middle) := by
  simp only [bind, Guarded.bind, failed]

/-! ## Tokens ahead -/

section Tokens

variable (complete : Complete tokens) (stands : place.Stands tokens cursor)

include complete stands

theorem peek_of_cons {token : Token} {later : List Token} (ahead : cursor.rest = token :: later) :
    peek tokens place = some (.ok token, place) := by
  simp [peek, index, tokenAt, bind, Guarded.bind, stands.getElem?_of_cons complete ahead]

theorem peek_of_nil (ended : cursor.rest = []) :
    peek tokens place = some (.ok (endingOf tokens), place) := by
  simp [peek, index, tokenAt, bind, Guarded.bind, stands.getElem?_of_nil complete ended]

theorem isAtEnd_eq : isAtEnd tokens place = some (.ok cursor.rest.isEmpty, place) := by
  cases ahead : cursor.rest with
  | nil =>
      have ends := complete.isEnding_endingOf
      exact (bind_of_ok (peek_of_nil complete stands ahead)).trans (by rw [ends]; rfl)
  | cons token later =>
      have more := stands.head_not_ending ahead
      exact (bind_of_ok (peek_of_cons complete stands ahead)).trans (by rw [more]; rfl)

theorem isNext_eq (kind : TokenKind) :
    isNext kind tokens place = some (.ok (cursor.rest.head?.any (·.kind = kind)), place) := by
  rw [isNext, bind_of_ok (isAtEnd_eq complete stands)]
  cases ahead : cursor.rest with
  | nil => rfl
  | cons token later => exact bind_of_ok (peek_of_cons complete stands ahead)

theorem advance_eq {token : Token} {later : List Token} (ahead : cursor.rest = token :: later) :
    advance tokens place = some (.ok token, { place with index := place.index + 1 }) := by
  have next := (stands.next ahead).reached
  have current := stands.getElem?_of_cons complete ahead
  rw [advance, bind_of_ok (isAtEnd_eq complete stands), ahead]
  simp [bind, Guarded.bind, index, goTo, tokenAt, complete.findIdx_eq, next, current]

theorem goTo_eq (reached : Place) :
    goTo place.index tokens reached = some (.ok (), { reached with index := place.index }) := by
  rw [goTo, complete.findIdx_eq, if_pos stands.reached]

end Tokens

/-- Asks for a token: reads the one ahead if its kind is accepted. -/
structure Asks (tokens : List Token) (asking : Guarded (Option Token))
    (accepts : TokenKind → Bool) : Prop where
  ended : ∀ {place cursor}, place.Stands tokens cursor → cursor.rest = [] →
    asking tokens place = some (.ok none, place)
  more : ∀ {place cursor token later}, place.Stands tokens cursor →
    cursor.rest = token :: later → asking tokens place =
      if accepts token.kind then some (.ok (some token), { place with index := place.index + 1 })
      else some (.ok none, place)

theorem Asks.refuses {asking : Guarded (Option Token)} {accepts : TokenKind → Bool}
    (asks : Asks tokens asking accepts) (stands : place.Stands tokens cursor)
    (refused : ∀ token ∈ cursor.rest.head?, accepts token.kind = false) :
    asking tokens place = some (.ok none, place) := by
  cases ahead : cursor.rest with
  | nil => exact asks.ended stands ahead
  | cons token later =>
      have asked := asks.more stands ahead
      rwa [refused token (by simp [ahead]), if_neg Bool.false_ne_true] at asked

theorem asks_accept (complete : Complete tokens) (kind : TokenKind) :
    Asks tokens (accept kind) (· = kind) where
  ended := by
    intro place cursor stands ended
    have asked := isNext_eq complete stands kind
    rw [ended] at asked
    exact bind_of_ok asked
  more := by
    intro place cursor token later stands ahead
    have asked := isNext_eq complete stands kind
    rw [ahead] at asked
    refine (bind_of_ok asked).trans ?_
    by_cases same : token.kind = kind
    · simp only [List.head?_cons, Option.any_some, same, decide_true, if_true]
      exact bind_of_ok (advance_eq complete stands ahead)
    · simp only [List.head?_cons, Option.any_some, same, decide_false, Bool.false_eq_true, if_false]
      rfl

/-- One kind is asked for after the other: it matters whether the token ahead is of any of them. -/
theorem asks_acceptAny (complete : Complete tokens) {kinds : List TokenKind}
    {accepts : TokenKind → Bool} (same : ∀ kind, accepts kind = decide (kind ∈ kinds)) :
    Asks tokens (acceptAny kinds) accepts := by
  obtain rfl := funext same
  clear same
  induction kinds with
  | nil => exact ⟨fun _ _ => rfl, fun _ _ => rfl⟩
  | cons kind kinds ih =>
      have first := asks_accept complete kind
      constructor
      · intro place cursor stands ended
        exact (bind_of_ok (first.ended stands ended)).trans (ih.ended stands ended)
      · intro place cursor token later stands ahead
        have asked := first.more stands ahead
        by_cases same : token.kind = kind
        · simp only [same, decide_true, if_true] at asked
          refine (bind_of_ok asked).trans ?_
          simp [same]
          rfl
        · simp only [same, decide_false, Bool.false_eq_true, if_false] at asked
          refine (bind_of_ok asked).trans ((ih.more stands ahead).trans ?_)
          simp [same]

/-! ## Following a parser -/

/-- Rewinds with the indices that they go back to. -/
def indexed (tokens : List Token) (rewinds : List Rewind) : List (Attempt × Nat) :=
  rewinds.map fun rewind => (rewind.attempt, (bodyOf tokens).length - rewind.remaining)

theorem indexed_append (tokens : List Token) (rewinds later : List Rewind) :
    indexed tokens (rewinds ++ later) = indexed tokens rewinds ++ indexed tokens later :=
  List.map_append

/-- From the one place to the other as a reply says: to where it stops, by its
rewinds, and out of as many function bodies as into. -/
structure Reaches (tokens : List Token) (place : Place) (reply : Reply α) (reached : Place) :
    Prop where
  stands : reached.Stands tokens reply.cursor
  depth : reached.depth = place.depth
  rewinds : reached.rewinds = place.rewinds ++ indexed tokens reply.rewinds

/-- The guarded parser has not broken off, and has the outcome of the reply. -/
def Agrees (tokens : List Token) (place : Place) (result : Option (Except SyntaxError α × Place))
    (reply : Reply α) : Prop :=
  ∃ reached,
    result = some (reply.outcome.mapError (Failure.toError (endingOf tokens)), reached) ∧
      Reaches tokens place reply reached

/-- From a place and a cursor the two parsers agree. -/
def AgreesAt (tokens : List Token) (place : Place) (cursor : Cursor) (guarded : Guarded α)
    (parser : Parser α) : Prop :=
  Agrees tokens place (guarded tokens place) (parser cursor)

/-- With so many tokens ahead at most, the guarded parser agrees with the parser. -/
def Follows (tokens : List Token) (count : Nat) (guarded : Guarded α) (parser : Parser α) : Prop :=
  ∀ place cursor, place.Stands tokens cursor → cursor.rest.length ≤ count →
    AgreesAt tokens place cursor guarded parser

theorem Follows.fewer {less : Nat} {guarded : Guarded α} {parser : Parser α}
    (follows : Follows tokens count guarded parser) (le : less ≤ count) :
    Follows tokens less guarded parser :=
  fun place cursor stands few => follows place cursor stands (Nat.le_trans few le)

theorem Follows.congr {guarded : Guarded α} {parser parser' : Parser α}
    (follows : Follows tokens count guarded parser)
    (agrees : Parser.Agrees count parser' parser) : Follows tokens count guarded parser' := by
  intro place cursor stands few
  rw [AgreesAt, agrees cursor few]
  exact follows place cursor stands few

theorem follows_pure (value : α) : Follows tokens count (pure value) (pure value) := by
  intro place cursor stands _
  exact ⟨place, rfl, stands, rfl, (List.append_nil _).symm⟩

theorem follows_fail (fault : SyntaxFault) (found : Token) :
    Follows tokens count (fail ⟨fault, found⟩ : Guarded α) (.fail ⟨fault, some found⟩) := by
  intro place cursor stands _
  exact ⟨place, rfl, stands, rfl, (List.append_nil _).symm⟩

/-- From which index one got to a place does not matter. -/
theorem Agrees.moved {place : Place} {index : Nat} {result : Option (Except SyntaxError α × Place)}
    {reply : Reply α} (agrees : Agrees tokens { place with index } result reply) :
    Agrees tokens place result reply := by
  obtain ⟨reached, ended, stands, depth, rewound⟩ := agrees
  exact ⟨reached, ended, stands, depth, rewound⟩

/-- What goes on from a later place goes on from the earlier one, after the rewinds between. -/
theorem Agrees.after {place middle : Place} {result : Option (Except SyntaxError α × Place)}
    {reply : Reply α} (agrees : Agrees tokens middle result reply) {rewinds : List Rewind}
    (depth : middle.depth = place.depth)
    (rewound : middle.rewinds = place.rewinds ++ indexed tokens rewinds) :
    Agrees tokens place result { reply with rewinds := rewinds ++ reply.rewinds } := by
  obtain ⟨reached, ended, stands, depthReached, rewoundReached⟩ := agrees
  refine ⟨reached, ended, stands, depthReached.trans depth, ?_⟩
  rw [rewoundReached, rewound, indexed_append, List.append_assoc]

/-- Back where it was, after a note of that, the parser goes on from there. -/
theorem agrees_again (stands : place.Stands tokens cursor) (few : cursor.rest.length ≤ count)
    {guarded : Guarded α} {parser : Parser α} (follows : Follows tokens count guarded parser)
    {reached : Place} {rewinds : List Rewind} (depth : reached.depth = place.depth)
    (rewound : reached.rewinds = place.rewinds ++ indexed tokens rewinds) (attempt : Attempt) :
    Agrees tokens place
      (guarded tokens { reached with
        index := place.index
        rewinds := reached.rewinds ++ [(attempt, place.index)] })
      { parser cursor with
        rewinds := rewinds ++ ⟨attempt, cursor.remaining⟩ :: (parser cursor).rewinds } := by
  have standsAgain : { reached with
      index := place.index
      rewinds := reached.rewinds ++ [(attempt, place.index)] }.Stands tokens cursor :=
    ⟨stands.rest, stands.reached, depth.trans stands.depth⟩
  rw [List.append_cons rewinds]
  apply (follows _ cursor standsAgain few).after depth
  simp [rewound, indexed, stands.index_eq]

theorem agreesAt_bind {first : Guarded α} {first' : Parser α} {next : α → Guarded β}
    {next' : α → Parser β} (agrees : AgreesAt tokens place cursor first first')
    (agreesNext : ∀ {middle value reached rewinds}, middle.Stands tokens reached →
      first' cursor = ⟨.ok value, reached, rewinds⟩ →
      AgreesAt tokens middle reached (next value) (next' value)) :
    AgreesAt tokens place cursor (first >>= next) (first' >>= next') := by
  obtain ⟨middle, ended, stands, depth, rewound⟩ := agrees
  rcases reply : first' cursor with ⟨failure | value, reached, rewinds⟩
  · rw [reply] at ended stands rewound
    rw [AgreesAt, Parser.bind_of_error reply]
    exact ⟨middle, bind_of_error ended, stands, depth, rewound⟩
  · rw [reply] at ended stands rewound
    rw [AgreesAt, Parser.bind_of_ok reply, bind_of_ok ended]
    exact (agreesNext stands reply).after depth rewound

theorem follows_bind {first : Guarded α} {first' : Parser α} {next : α → Guarded β}
    {next' : α → Parser β} (followsFirst : Follows tokens count first first')
    (moves : first'.Moves .onward)
    (followsNext : ∀ value, Follows tokens count (next value) (next' value)) :
    Follows tokens count (first >>= next) (first' >>= next') := by
  intro place cursor stands few
  apply agreesAt_bind (followsFirst place cursor stands few)
  intro middle value reached rewinds standsMiddle reply
  have moved : (first' cursor).cursor.rest <:+ cursor.rest := moves cursor
  rw [reply] at moved
  exact followsNext value middle reached standsMiddle (Nat.le_trans moved.length_le few)

theorem production_eq {guarded : Guarded α} {outcome : Except SyntaxError α} {reached : Place}
    (ended : guarded tokens place = some (outcome, reached)) (depth : reached.depth = place.depth) :
    production guarded tokens place = some (outcome, reached) := by
  simp only [production, ended, depth, if_true]

theorem outcome_eq {guarded : Guarded α} {result : Except SyntaxError α} {reached : Place}
    (ended : guarded tokens place = some (result, reached)) :
    outcome guarded tokens place = some (.ok result, reached) := by
  simp only [outcome, ended, Option.map_some]

theorem agreesAt_production {guarded : Guarded α} {parser : Parser α}
    (agrees : AgreesAt tokens place cursor guarded parser) :
    AgreesAt tokens place cursor (production guarded) parser := by
  obtain ⟨reached, ended, standsReached, depth, rewound⟩ := agrees
  exact ⟨reached, production_eq ended depth, standsReached, depth, rewound⟩

theorem follows_production {guarded : Guarded α} {parser : Parser α}
    (follows : Follows tokens count guarded parser) :
    Follows tokens count (production guarded) parser :=
  fun place cursor stands few => agreesAt_production (follows place cursor stands few)

theorem follows_inBody {guarded : Guarded α} {parser : Parser α}
    (follows : Follows tokens count guarded parser) :
    Follows tokens count (inBody guarded) (.inBody parser) := by
  intro place cursor stands few
  have inside : { place with depth := place.depth + 1 }.Stands tokens
      (cursor.atDepth (cursor.depth + 1)) :=
    ⟨stands.rest, stands.reached, congrArg (· + 1) stands.depth⟩
  obtain ⟨reached, ended, standsReached, depth, rewound⟩ := follows _ _ inside few
  have entered : reached.depth = place.depth + 1 := depth
  refine ⟨{ reached with depth := reached.depth - 1 }, ?_, ?_, ?_, rewound⟩
  · simp only [inBody, ended, entered, Nat.zero_lt_succ, if_true]
    rfl
  · exact ⟨standsReached.rest, standsReached.reached, congrArg (· - 1) standsReached.depth⟩
  · exact congrArg (· - 1) entered

/-- The number of tokens ahead, as a bound for what follows. -/
theorem follows_remaining {guarded : Guarded α} {parser : Nat → Parser α}
    (follows : ∀ bound ≤ count, Follows tokens bound guarded (parser bound)) :
    Follows tokens count guarded (.remaining >>= parser) := by
  intro place cursor stands few
  rw [AgreesAt, Parser.bind_remaining, cursor.remaining_eq]
  exact follows _ few place cursor stands (Nat.le_refl _)

/-- With tokens ahead, one of them is read or none. -/
theorem follows_asking {asking : Guarded (Option Token)} {accepts : TokenKind → Bool}
    (asks : Asks tokens asking accepts) {next : Option Token → Guarded β}
    {next' : Option Token → Parser β}
    (behind : ∀ token, ∀ less < count,
      Follows tokens less (next (some token)) (next' (some token)))
    (otherwise : Follows tokens count (next none) (next' none)) :
    Follows tokens count (asking >>= next) (.acceptIf accepts >>= next') := by
  intro place cursor stands few
  cases ahead : cursor.rest with
  | nil =>
      rw [AgreesAt, bind_of_ok (asks.ended stands ahead), Parser.bind_acceptIf_of_nil ahead]
      exact otherwise place cursor stands few
  | cons token later =>
      have asked := asks.more stands ahead
      rw [AgreesAt, Parser.bind_acceptIf_of_cons ahead]
      by_cases accepted : accepts token.kind = true
      · rw [if_pos accepted] at asked ⊢
        rw [bind_of_ok asked]
        have fewer := cursor.length_skip_lt ahead
        have agrees := behind token _ (Nat.lt_of_lt_of_le fewer few) _ _ (stands.next ahead)
          (Nat.le_refl _)
        exact agrees.moved
      · rw [if_neg accepted] at asked ⊢
        rw [bind_of_ok asked]
        exact otherwise place cursor stands few

/-- Without tokens ahead it does not matter whether one is asked for. -/
theorem follows_asking_end {asking : Guarded (Option Token)} {accepts : TokenKind → Bool}
    (asks : Asks tokens asking accepts) {next : Option Token → Guarded β} {parser : Parser β}
    (otherwise : Follows tokens 0 (next none) parser) :
    Follows tokens 0 (asking >>= next) parser := by
  intro place cursor stands none
  have ended : cursor.rest = [] := List.length_eq_zero_iff.mp (Nat.le_zero.mp none)
  rw [AgreesAt, bind_of_ok (asks.ended stands ended)]
  exact otherwise place cursor stands none

section Parts

variable (complete : Complete tokens)

include complete

theorem follows_failHere (fault : SyntaxFault) :
    Follows tokens count (failHere fault : Guarded α) (.failHere fault) := by
  intro place cursor stands _
  cases ahead : cursor.rest with
  | nil =>
      refine ⟨place, (bind_of_ok (peek_of_nil complete stands ahead)).trans ?_, stands, rfl, ?_⟩
      · rw [Parser.failHere, ahead]
        rfl
      · exact (List.append_nil _).symm
  | cons token later =>
      refine ⟨place, (bind_of_ok (peek_of_cons complete stands ahead)).trans ?_, stands, rfl, ?_⟩
      · rw [Parser.failHere, ahead]
        rfl
      · exact (List.append_nil _).symm

theorem follows_accept {kind : TokenKind} {next : Option Token → Guarded α}
    {next' : Option Token → Parser α}
    (behind : ∀ token, ∀ less < count,
      Follows tokens less (next (some token)) (next' (some token)))
    (otherwise : Follows tokens count (next none) (next' none)) :
    Follows tokens count (accept kind >>= next) (.accept kind >>= next') :=
  follows_asking (asks_accept complete kind) behind otherwise

theorem follows_expect (expectation : Expectation) :
    Follows tokens count (expect expectation) (.expect expectation) :=
  follows_accept complete (fun token _ _ => follows_pure token) (follows_failHere complete _)

theorem follows_expecting {expectation : Expectation} {next : Token → Guarded α}
    {next' : Token → Parser α}
    (follows : ∀ token, Follows tokens count (next token) (next' token)) :
    Follows tokens count (expect expectation >>= next) (.expect expectation >>= next') :=
  follows_bind (follows_expect complete expectation) (Parser.moves_expect expectation) follows

theorem follows_isNext (kind : TokenKind) :
    Follows tokens count (isNext kind) (.isNext kind) := by
  intro place cursor stands _
  exact ⟨place, isNext_eq complete stands kind, stands, rfl, (List.append_nil _).symm⟩

theorem follows_commaSeparated {item : Guarded α} {item' : Parser α} (moves : item'.Moves .onward)
    (bound : Nat) : ∀ {count passes : Nat}, count ≤ bound → count < passes →
      Follows tokens count item item' →
      Follows tokens count (commaSeparated item passes) (.commaSeparated item' bound) := by
  induction bound with
  | zero =>
      intro count passes few enough follows
      obtain rfl := Nat.le_zero.mp few
      obtain ⟨passes, rfl⟩ := Nat.exists_eq_succ_of_ne_zero (Nat.ne_zero_of_lt enough)
      apply follows_bind follows moves
      intro first
      exact follows_asking_end (asks_accept complete _) (follows_pure [first])
  | succ bound ih =>
      intro count passes few enough follows
      obtain ⟨passes, rfl⟩ := Nat.exists_eq_succ_of_ne_zero (Nat.ne_zero_of_lt enough)
      apply follows_bind follows moves
      intro first
      apply follows_accept complete
      · intro comma less fewer
        have items : Follows tokens less (commaSeparated item passes)
            (.commaSeparated item' bound) :=
          ih (by omega) (by omega) (follows.fewer (Nat.le_of_lt fewer))
        exact follows_bind items (Parser.moves_commaSeparated moves bound) fun _ => follows_pure _
      · exact follows_pure [first]

theorem follows_listUntil {item : Guarded α} {item' : Parser α} (moves : item'.Moves .onward)
    (follows : Follows tokens count item item') (closing : TokenKind) {passes : Nat}
    (enough : count < passes) :
    Follows tokens count (listUntil closing item passes) (.listUntil closing item') := by
  apply follows_bind (follows_isNext complete closing) (Parser.moves_isNext closing)
  intro isClosing
  split
  · exact follows_pure []
  · apply follows_remaining
    intro bound few
    exact follows_commaSeparated complete moves bound (Nat.le_refl _)
      (Nat.lt_of_le_of_lt few enough) (follows.fewer few)

theorem follows_unaryWithin {operand : Guarded Expr} {operand' : Parser Expr} (limit : Nat) :
    ∀ {fewer nesting : Nat}, fewer ≤ limit → fewer < nesting →
      Follows tokens fewer operand operand' →
      operand'.Moves .onward →
      Follows tokens fewer (unaryWithin operand nesting) (.unaryWithin operand' limit) := by
  have asks : Asks tokens (acceptAny [.symbol .bang, .symbol .minus]) TokenKind.isUnaryOperator :=
    asks_acceptAny complete fun kind => by simp [TokenKind.isUnaryOperator]
  induction limit with
  | zero =>
      intro fewer nesting few ample follows _
      obtain rfl := Nat.le_zero.mp few
      obtain ⟨nesting, rfl⟩ := Nat.exists_eq_succ_of_ne_zero (Nat.ne_zero_of_lt ample)
      exact follows_production (follows_asking_end asks follows)
  | succ limit ih =>
      intro fewer nesting few ample follows moves
      obtain ⟨nesting, rfl⟩ := Nat.exists_eq_succ_of_ne_zero (Nat.ne_zero_of_lt ample)
      apply follows_production
      apply follows_asking asks
      · intro operator less lt
        have nested : Follows tokens less (unaryWithin operand nesting)
            (.unaryWithin operand' limit) :=
          ih (by omega) (by omega) (follows.fewer (Nat.le_of_lt lt)) moves
        exact follows_bind nested (Parser.moves_unaryWithin moves limit) fun _ => follows_pure _
      · exact follows

section Chain

variable {operators : List TokenKind} {accepts : TokenKind → Bool}
  (same : ∀ kind, accepts kind = decide (kind ∈ operators)) {node : Expr → Token → Expr → Expr}
  {operand : Guarded Expr} {operand' : Parser Expr} (moves : operand'.Moves .onward)

include same moves

theorem follows_chainFrom (limit : Nat) : ∀ {fewer passes : Nat}, fewer ≤ limit → fewer < passes →
    Follows tokens fewer operand operand' → ∀ left,
      Follows tokens fewer (chainFrom operators node operand passes left)
        (.chainFrom accepts node operand' limit left) := by
  have asks := asks_acceptAny complete same
  induction limit with
  | zero =>
      intro fewer passes few ample _ left
      obtain rfl := Nat.le_zero.mp few
      obtain ⟨passes, rfl⟩ := Nat.exists_eq_succ_of_ne_zero (Nat.ne_zero_of_lt ample)
      exact follows_asking_end asks (follows_pure left)
  | succ limit ih =>
      intro fewer passes few ample follows left
      obtain ⟨passes, rfl⟩ := Nat.exists_eq_succ_of_ne_zero (Nat.ne_zero_of_lt ample)
      apply follows_asking asks
      · intro operator less lt
        have follows := follows.fewer (Nat.le_of_lt lt)
        apply follows_bind follows moves
        intro right
        exact ih (by omega) (by omega) follows _
      · exact follows_pure left

theorem follows_chain (follows : Follows tokens count operand operand') {bound : Nat}
    (enough : count < bound) :
    Follows tokens count (chain bound operators node operand) (.chain accepts node operand') := by
  apply follows_production
  apply follows_bind follows moves
  intro left
  apply follows_remaining
  intro limit le
  exact follows_chainFrom complete same moves limit (Nat.le_refl _) (Nat.lt_of_le_of_lt le enough)
    (follows.fewer le) left

end Chain

end Parts

/-! ## Expressions -/

theorem agreesAt_ahead {guarded : Guarded α} {parser : List Token → Parser α}
    (agrees : AgreesAt tokens place cursor guarded (parser cursor.rest)) :
    AgreesAt tokens place cursor guarded (.ahead >>= parser) :=
  agrees

theorem agreesAt_index {guarded : Nat → Guarded α} {parser : Parser α}
    (agrees : AgreesAt tokens place cursor (guarded place.index) parser) :
    AgreesAt tokens place cursor (index >>= guarded) parser :=
  agrees

theorem agrees_outcome {tried : Guarded α} {result : Except SyntaxError α} {reached : Place}
    (ended : tried tokens place = some (result, reached))
    {next : Except SyntaxError α → Guarded β} {reply : Reply β}
    (agrees : Agrees tokens place (next result tokens reached) reply) :
    Agrees tokens place ((outcome tried >>= next) tokens place) reply := by
  rw [bind_of_ok (outcome_eq ended)]
  exact agrees

section Ahead

variable (complete : Complete tokens) (stands : place.Stands tokens cursor)

include complete stands

theorem agreesAt_peek_end (ended : cursor.rest = []) {next : Token → Guarded α} {parser : Parser α}
    (agrees : AgreesAt tokens place cursor (next (endingOf tokens)) parser) :
    AgreesAt tokens place cursor (peek >>= next) parser := by
  rw [AgreesAt, bind_of_ok (peek_of_nil complete stands ended)]
  exact agrees

variable {token : Token} {later : List Token} (ahead : cursor.rest = token :: later)

include ahead

theorem agreesAt_peek {next : Token → Guarded α} {parser : Parser α}
    (agrees : AgreesAt tokens place cursor (next token) parser) :
    AgreesAt tokens place cursor (peek >>= next) parser := by
  rw [AgreesAt, bind_of_ok (peek_of_cons complete stands ahead)]
  exact agrees

/-- Behind the token ahead, one token less is ahead. -/
theorem agreesAt_advance (few : cursor.rest.length ≤ count) {next : Token → Guarded α}
    {next' : Unit → Parser α}
    (follows : ∀ less < count, Follows tokens less (next token) (next' ())) :
    AgreesAt tokens place cursor (advance >>= next) (.skip 1 >>= next') := by
  have fewer := cursor.length_skip_lt ahead
  rw [AgreesAt, bind_of_ok (advance_eq complete stands ahead), Parser.bind_skip]
  have agrees := follows _ (Nat.lt_of_lt_of_le fewer few) _ _ (stands.next ahead) (Nat.le_refl _)
  exact agrees.moved

end Ahead

section Expressions

variable (complete : Complete tokens) {inner : Guarded Expr} {inner' : Parser Expr}
  (moves : inner'.Moves .onward)
  (follows : ∀ less < count, Follows tokens less inner inner') {bound : Nat}
  (enough : count < bound)

include complete

include moves follows in
theorem follows_primary : Follows tokens count (primary inner) (.primary inner') := by
  apply follows_production
  intro place cursor stands few
  apply agreesAt_ahead
  have failed := follows_failHere (α := Expr) complete .noExpression place cursor stands few
  cases ahead : cursor.rest with
  | nil =>
      have ends : (endingOf tokens).kind = .endOfSource := by
        simpa [Token.isEnding] using complete.isEnding_endingOf
      apply agreesAt_peek_end complete stands ahead
      have noLiteral : (endingOf tokens).literal? = none := by
        simp [Token.literal?, ends, TokenKind.literal?]
      simp only [noLiteral, ends, reduceCtorEq, if_false]
      rwa [AgreesAt, failHere, bind_of_ok (peek_of_nil complete stands ahead)] at failed
  | cons token later =>
      apply agreesAt_peek complete stands ahead
      dsimp only
      cases token.literal? with
      | some value => exact agreesAt_advance complete stands ahead few fun _ _ => follows_pure _
      | none =>
          dsimp only
          split
          · exact agreesAt_advance complete stands ahead few fun _ _ => follows_pure _
          · split
            · apply agreesAt_advance complete stands ahead few
              intro less fewer
              apply follows_bind (follows less fewer) moves
              intro expr
              exact follows_expecting complete fun _ => follows_pure _
            · rwa [AgreesAt, failHere, bind_of_ok (peek_of_cons complete stands ahead)] at failed

omit follows enough in
include moves in
theorem follows_finishCall {less : Nat} (follows : Follows tokens less inner inner')
    (enough : less < bound) (callee : Expr) :
    Follows tokens less (finishCall inner bound callee) (.finishCall inner' callee) := by
  apply follows_production
  have arguments := follows_listUntil complete moves follows (.symbol .rightParen) enough
  apply follows_bind arguments (Parser.moves_listUntil moves _)
  intro arguments
  apply follows_expecting complete
  intro paren
  split
  · exact follows_fail _ _
  · exact follows_pure _

include moves follows enough in
theorem follows_callsFrom (limit : Nat) : ∀ {fewer passes : Nat}, fewer ≤ count → fewer ≤ limit →
    fewer < passes → ∀ callee,
      Follows tokens fewer (callsFrom inner bound passes callee)
        (.callsFrom inner' limit callee) := by
  induction limit with
  | zero =>
      intro fewer passes _ few ample callee
      obtain rfl := Nat.le_zero.mp few
      obtain ⟨passes, rfl⟩ := Nat.exists_eq_succ_of_ne_zero (Nat.ne_zero_of_lt ample)
      exact follows_asking_end (asks_accept complete _) (follows_pure callee)
  | succ limit ih =>
      intro fewer passes le few ample callee
      obtain ⟨passes, rfl⟩ := Nat.exists_eq_succ_of_ne_zero (Nat.ne_zero_of_lt ample)
      apply follows_accept complete
      · intro opening less lt
        have finished : Follows tokens less (finishCall inner bound callee)
            (.finishCall inner' callee) :=
          follows_finishCall complete moves (follows less (by omega)) (by omega) callee
        apply follows_bind finished (Parser.moves_finishCall moves callee)
        exact ih (by omega) (by omega) (by omega)
      · exact follows_pure callee

include moves follows enough in
theorem follows_call : Follows tokens count (call inner bound) (.call inner') := by
  apply follows_production
  apply follows_bind (follows_primary complete moves follows) (Parser.moves_primary moves)
  intro callee
  apply follows_remaining
  intro limit le
  exact follows_callsFrom complete moves follows enough limit le (Nat.le_refl _)
    (Nat.lt_of_le_of_lt le enough) callee

include moves follows enough in
theorem follows_unary : Follows tokens count (unary inner bound) (.unary inner') := by
  have calls := follows_call complete moves follows enough
  apply follows_remaining
  intro limit le
  exact follows_unaryWithin complete limit (Nat.le_refl _) (Nat.lt_of_le_of_lt le enough)
    (calls.fewer le) (Parser.moves_call moves)

include moves follows enough in
theorem follows_disjunction :
    Follows tokens count (disjunction inner bound) (.disjunction inner') := by
  have movesFactor : (Parser.factor inner').Moves .onward :=
    Parser.moves_chain (Parser.moves_unary moves)
  have movesTerm : (Parser.term inner').Moves .onward := Parser.moves_chain movesFactor
  have movesComparison : (Parser.comparison inner').Moves .onward := Parser.moves_chain movesTerm
  have movesEquality : (Parser.equality inner').Moves .onward := Parser.moves_chain movesComparison
  have factors : Follows tokens count (factor inner bound) (.factor inner') :=
    follows_chain complete (by simp [TokenKind.isFactorOperator]) (Parser.moves_unary moves)
      (follows_unary complete moves follows enough) enough
  have terms : Follows tokens count (term inner bound) (.term inner') :=
    follows_chain complete (by simp [TokenKind.isTermOperator]) movesFactor factors enough
  have comparisons : Follows tokens count (comparison inner bound) (.comparison inner') :=
    follows_chain complete (by simp [TokenKind.isComparison, Bool.or_assoc]) movesTerm terms enough
  have equalities : Follows tokens count (equality inner bound) (.equality inner') :=
    follows_chain complete (by simp [TokenKind.isEquality]) movesComparison comparisons enough
  have conjunctions : Follows tokens count (conjunction inner bound) (.conjunction inner') :=
    follows_chain complete (by simp) movesEquality equalities enough
  exact follows_chain complete (by simp) (Parser.moves_chain movesEquality) conjunctions enough

theorem disjunctionInstead_eq (stands : place.Stands tokens cursor) (reached : Place) :
    disjunctionInstead inner bound place.index tokens reached =
      disjunction inner bound tokens
        { reached with
          index := place.index
          rewinds := if place.index + 1 < reached.index then
            reached.rewinds ++ [(.assignment, place.index)] else reached.rewinds } := by
  rw [disjunctionInstead]
  by_cases moved : place.index + 1 < reached.index
  · simp only [bind, Guarded.bind, index, moved, if_true, note, goTo_eq complete stands]
  · simp only [bind, Guarded.bind, index, moved, if_false, goTo_eq complete stands]

/-- Without a name and an equals sign ahead nothing but the name may have been read. -/
theorem assignmentTarget_of_none (stands : place.Stands tokens cursor)
    (notAssigned : Parser.assignedName? cursor.rest = none) :
    ∃ reached ≤ place.index + 1, assignmentTarget inner tokens place =
      some (.ok none, { place with index := reached }) := by
  have name := asks_accept complete .name
  have equals := asks_accept complete (.symbol .equal)
  cases ahead : cursor.rest with
  | nil =>
      refine ⟨place.index, Nat.le_succ _, production_eq ?_ rfl⟩
      exact bind_of_ok (name.ended stands ahead)
  | cons first later =>
      have read := name.more stands ahead
      by_cases isName : first.kind = .name
      · simp only [isName, decide_true, if_true] at read
        refine ⟨place.index + 1, Nat.le_refl _, production_eq ((bind_of_ok read).trans ?_) rfl⟩
        refine bind_of_ok (equals.refuses (stands.next ahead) ?_)
        intro second isSecond
        simp only [Cursor.skip, ahead, List.drop_succ_cons, List.drop_zero, Option.mem_def,
          List.head?_eq_some_iff] at isSecond
        obtain ⟨rest, rfl⟩ := isSecond
        simpa [ahead, Parser.assignedName?, isName] using notAssigned
      · simp only [isName, decide_false, Bool.false_eq_true, if_false] at read
        exact ⟨place.index, Nat.le_succ _, production_eq (bind_of_ok read) rfl⟩

/-- Behind the name and the equals sign there is the value. -/
theorem assignmentTarget_of_some (stands : place.Stands tokens cursor) {name : Token}
    (assigned : Parser.assignedName? cursor.rest = some name) {value : Except SyntaxError Expr}
    {reached : Place}
    (ended : inner tokens { place with index := place.index + 2 } = some (value, reached))
    (depth : reached.depth = place.depth) :
    assignmentTarget inner tokens place =
      some (value.map fun value => some (.assign (some name) value), reached) := by
  obtain ⟨equals, later, ahead, isName, isEqual⟩ := Parser.assignedName?_eq_some assigned
  have behind : (cursor.skip 1).rest = equals :: later := by simp [Cursor.skip, ahead]
  have readName := (asks_accept complete .name).more stands ahead
  have readEquals := (asks_accept complete (.symbol .equal)).more (stands.next ahead) behind
  simp only [isName, decide_true, if_true] at readName
  simp only [isEqual, decide_true, if_true] at readEquals
  refine production_eq ((bind_of_ok readName).trans ((bind_of_ok readEquals).trans ?_)) depth
  cases value with
  | error error => exact bind_of_error ended
  | ok value => exact bind_of_ok ended

include moves follows enough in
theorem follows_assignment :
    Follows tokens count (assignment inner bound) (.assignment inner') := by
  have disjunctions := follows_disjunction complete moves follows enough
  apply follows_production
  intro place cursor stands few
  apply agreesAt_ahead
  apply agreesAt_index
  cases assigned : Parser.assignedName? cursor.rest with
  | none =>
      obtain ⟨reached, near, tried⟩ : ∃ reached ≤ place.index + 1,
          assignmentTarget inner tokens place =
            some (.ok none, { place with index := reached }) :=
        assignmentTarget_of_none complete stands assigned
      apply agrees_outcome tried
      change Agrees tokens place (disjunctionInstead inner bound place.index tokens _) _
      rw [disjunctionInstead_eq complete stands, if_neg (Nat.not_lt.mpr near)]
      exact disjunctions place cursor stands few
  | some name =>
      obtain ⟨equals, later, ahead, -⟩ := Parser.assignedName?_eq_some assigned
      have behind : 2 ≤ cursor.rest.length := by simp [ahead]
      have fewer : (cursor.skip 2).rest.length < count := by
        simp only [Cursor.skip, List.length_drop]
        omega
      obtain ⟨reached, ended, standsReached, depth, rewound⟩ :=
        follows _ fewer _ _ (stands.skip behind) (Nat.le_refl _)
      apply agrees_outcome (assignmentTarget_of_some complete stands assigned ended depth)
      dsimp only
      rcases reply : inner' (cursor.skip 2) with ⟨failure | value, stopped, rewinds⟩
      · rw [reply] at ended standsReached rewound
        have failed : (do Parser.skip 2; return .assign (some name) (← inner') : Parser Expr)
            cursor = ⟨.error failure, stopped, rewinds⟩ := by
          rw [Parser.bind_skip]
          exact Parser.bind_of_error reply
        rw [Parser.rewinding_of_error failed]
        -- The value is tried behind the equals sign, so the rewind is one to be noted.
        have shorter : (inner' (cursor.skip 2)).cursor.rest <:+ (cursor.skip 2).rest :=
          moves (cursor.skip 2)
        have moved : place.index + 2 ≤ reached.index := by
          have few := shorter.length_le
          rw [reply] at few
          apply stands.index_add_le standsReached
          simp only [Cursor.skip, List.length_drop] at few ⊢
          omega
        change Agrees tokens place (disjunctionInstead inner bound place.index tokens _) _
        rw [disjunctionInstead_eq complete stands, if_pos (Nat.lt_of_succ_le moved)]
        exact agrees_again stands few disjunctions depth rewound .assignment
      · rw [reply] at ended standsReached rewound
        have read : (do Parser.skip 2; return .assign (some name) (← inner') : Parser Expr) cursor =
            ⟨.ok (.assign (some name) value), stopped, rewinds⟩ := by
          rw [Parser.bind_skip]
          refine (Parser.bind_of_ok reply).trans ?_
          simp [pure, Parser.pure]
        rw [Parser.rewinding_of_ok read]
        exact ⟨reached, rfl, standsReached, depth, rewound⟩

end Expressions

theorem follows_expression (complete : Complete tokens) {bound : Nat} : ∀ {count : Nat},
    count < bound → Follows tokens count (expression bound) .expression := by
  induction bound with
  | zero => exact fun few => absurd few (Nat.not_lt_zero _)
  | succ bound ih =>
      intro count few
      rw [Parser.expression_eq_assignment]
      apply follows_assignment complete Parser.moves_expression _ few
      intro less le
      exact ih (Nat.lt_of_lt_of_le le (Nat.le_of_lt_succ few))

end Guarded

end Lox
