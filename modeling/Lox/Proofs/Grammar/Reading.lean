import Lox.Grammar.Parser

/-!
# What a parser reads

A parser reads a value between two cursors if it starts at the one, succeeds
with the value, and stops at the other. What each parser and each way of
joining parsers reads is said once, as an equivalence, so the same facts serve
to take a successful parse apart and to put one together.
-/

set_option autoImplicit false

namespace Lox

/-- The cursor that stands before other tokens inside the same function bodies. -/
def Cursor.before (cursor : Cursor) (tokens : List Token) : Cursor :=
  .ofTokens tokens cursor.depth

namespace Cursor

@[simp] theorem before_rest (cursor : Cursor) (tokens : List Token) :
    (cursor.before tokens).rest = tokens := rfl

@[simp] theorem before_remaining (cursor : Cursor) (tokens : List Token) :
    (cursor.before tokens).remaining = tokens.length := rfl

@[simp] theorem before_depth (cursor : Cursor) (tokens : List Token) :
    (cursor.before tokens).depth = cursor.depth := rfl

@[simp] theorem before_before (cursor : Cursor) (tokens later : List Token) :
    (cursor.before tokens).before later = cursor.before later := rfl

theorem before_eq {cursor : Cursor} {tokens : List Token} (same : cursor.rest = tokens) :
    cursor.before tokens = cursor := by
  subst same
  obtain ⟨rest, remaining, depth, rfl⟩ := cursor
  rfl

theorem skip_eq_before (cursor : Cursor) (count : Nat) :
    cursor.skip count = cursor.before (cursor.rest.drop count) := by
  obtain ⟨rest, remaining, depth, rfl⟩ := cursor
  simp [skip, before, ofTokens]

end Cursor

namespace Parser

variable {α β : Type} {start reached : Cursor}

/-- The parser succeeds from the one cursor with a value and stops at the other. -/
def Reads (parser : Parser α) (start : Cursor) (value : α) (reached : Cursor) : Prop :=
  (parser start).outcome = .ok value ∧ (parser start).cursor = reached

/-- The parser fails from the cursor. -/
def Fails (parser : Parser α) (start : Cursor) (failure : Failure) : Prop :=
  (parser start).outcome = .error failure

/-! ## Single steps -/

@[simp] theorem reads_pure {value result : α} :
    (pure value : Parser α).Reads start result reached ↔ result = value ∧ reached = start := by
  simp [Reads, pure, Parser.pure, eq_comm]

theorem reads_bind {first : Parser α} {next : α → Parser β} {result : β} :
    (first >>= next).Reads start result reached ↔
      ∃ value middle, first.Reads start value middle ∧ (next value).Reads middle result reached := by
  simp only [Reads, bind, Parser.bind]
  rcases first start with ⟨outcome, middle, rewinds⟩
  cases outcome with
  | ok value =>
      constructor
      · intro read
        exact ⟨value, middle, ⟨rfl, rfl⟩, read⟩
      · intro reading
        rcases reading with ⟨_, _, ⟨succeeded, rfl⟩, read⟩
        cases succeeded
        exact read
  | error failure => simp

@[simp] theorem reads_fail {failure : Failure} {result : α} :
    ¬ (fail failure : Parser α).Reads start result reached := by
  simp [Reads, fail]

@[simp] theorem reads_failHere {fault : SyntaxFault} {result : α} :
    ¬ (failHere fault : Parser α).Reads start result reached := by
  simp [Reads, failHere, fail]

@[simp] theorem reads_ahead {tokens : List Token} :
    ahead.Reads start tokens reached ↔ tokens = start.rest ∧ reached = start := by
  simp [Reads, ahead, eq_comm]

@[simp] theorem reads_remaining {count : Nat} :
    remaining.Reads start count reached ↔ count = start.rest.length ∧ reached = start := by
  simp [Reads, remaining, start.remaining_eq, eq_comm]

@[simp] theorem reads_depth {count : Nat} :
    depth.Reads start count reached ↔ count = start.depth ∧ reached = start := by
  simp [Reads, depth, eq_comm]

@[simp] theorem reads_skip {count : Nat} {result : Unit} :
    (skip count).Reads start result reached ↔ reached = start.before (start.rest.drop count) := by
  simp [Reads, skip, Cursor.skip_eq_before, eq_comm]

@[simp] theorem reads_note {attempt : Attempt} {result : Unit} :
    (note attempt).Reads start result reached ↔ reached = start := by
  simp [Reads, note, eq_comm]

@[simp] theorem reads_isNext {kind : TokenKind} {result : Bool} :
    (isNext kind).Reads start result reached ↔
      result = start.rest.head?.any (·.kind = kind) ∧ reached = start := by
  simp only [isNext, reads_bind, reads_ahead, reads_pure]
  constructor
  · intro reading
    rcases reading with ⟨tokens, middle, ⟨rfl, rfl⟩, rfl, rfl⟩
    exact ⟨rfl, rfl⟩
  · intro reading
    rcases reading with ⟨rfl, rfl⟩
    exact ⟨_, _, ⟨rfl, rfl⟩, rfl, rfl⟩

theorem reads_inBody {body : Parser α} {result : α} :
    (inBody body).Reads start result reached ↔
      ∃ middle, body.Reads (start.atDepth (start.depth + 1)) result middle ∧
        reached = middle.atDepth (middle.depth - 1) := by
  simp only [Reads, inBody]
  constructor
  · intro reading
    rcases reading with ⟨succeeded, stopped⟩
    exact ⟨_, ⟨succeeded, rfl⟩, stopped.symm⟩
  · intro reading
    rcases reading with ⟨middle, ⟨succeeded, rfl⟩, rfl⟩
    exact ⟨succeeded, rfl⟩

/-! ## Tokens -/

theorem reads_acceptIf_some {accepts : TokenKind → Bool} {token : Token} :
    (acceptIf accepts).Reads start (some token) reached ↔
      ∃ rest, start.rest = token :: rest ∧ accepts token.kind = true ∧
        reached = start.before rest := by
  simp only [acceptIf, reads_bind, reads_ahead]
  constructor
  · intro reading
    rcases reading with ⟨tokens, middle, ⟨rfl, rfl⟩, read⟩
    split at read
    · next first rest ahead =>
      split at read
      · next accepted =>
        simp only [reads_bind, reads_skip, reads_pure, Option.some.injEq] at read
        obtain ⟨_, _, rfl, rfl, rfl⟩ := read
        exact ⟨rest, ahead, accepted, by simp [ahead]⟩
      · simp at read
    · simp at read
  · intro reading
    rcases reading with ⟨rest, ahead, accepted, rfl⟩
    refine ⟨_, _, ⟨rfl, rfl⟩, ?_⟩
    simp only [ahead, accepted, ↓reduceIte, reads_bind, reads_skip, reads_pure]
    exact ⟨(), _, rfl, by simp⟩

theorem reads_acceptIf_none {accepts : TokenKind → Bool} :
    (acceptIf accepts).Reads start none reached ↔
      (∀ token ∈ start.rest.head?, accepts token.kind = false) ∧ reached = start := by
  simp only [acceptIf, reads_bind, reads_ahead]
  constructor
  · intro reading
    rcases reading with ⟨tokens, middle, ⟨rfl, rfl⟩, read⟩
    split at read
    · next first rest ahead =>
      split at read
      · simp [reads_bind] at read
      · next refused => simpa [ahead, refused] using read
    · next ahead => simpa [ahead] using read
  · intro reading
    rcases reading with ⟨refused, rfl⟩
    refine ⟨_, _, ⟨rfl, rfl⟩, ?_⟩
    cases ahead : reached.rest with
    | nil => simp
    | cons first rest =>
        have stays : accepts first.kind = false := refused first (by simp [ahead])
        simp [stays]

theorem reads_accept_some {kind : TokenKind} {token : Token} :
    (accept kind).Reads start (some token) reached ↔
      ∃ rest, start.rest = token :: rest ∧ token.kind = kind ∧ reached = start.before rest := by
  simp [accept, reads_acceptIf_some]

theorem reads_accept_none {kind : TokenKind} :
    (accept kind).Reads start none reached ↔
      (∀ token ∈ start.rest.head?, token.kind ≠ kind) ∧ reached = start := by
  simp [accept, reads_acceptIf_none]

theorem reads_expect {expectation : Expectation} {token : Token} :
    (expect expectation).Reads start token reached ↔
      ∃ rest, start.rest = token :: rest ∧ token.kind = expectation.kind ∧
        reached = start.before rest := by
  rw [expect, reads_bind]
  constructor
  · intro reading
    rcases reading with ⟨accepted, middle, read, finished⟩
    cases accepted with
    | none => simp at finished
    | some token =>
        obtain ⟨rfl, rfl⟩ := reads_pure.mp finished
        exact reads_accept_some.mp read
  · intro found
    exact ⟨some token, reached, reads_accept_some.mpr found, reads_pure.mpr ⟨rfl, rfl⟩⟩

/-! ## Choices -/

theorem reads_rewinding {attempt : Attempt} {tried : Parser α} {otherwise : Failure → Parser α}
    {result : α} :
    (rewinding attempt tried otherwise).Reads start result reached ↔
      tried.Reads start result reached ∨
        ∃ failure, tried.Fails start failure ∧ (otherwise failure).Reads start result reached := by
  simp only [Reads, Fails, rewinding, note, bind, Parser.bind]
  rcases tried start with ⟨outcome, middle, rewinds⟩
  cases outcome with
  | ok value => simp
  | error failure => simp

end Parser

end Lox
