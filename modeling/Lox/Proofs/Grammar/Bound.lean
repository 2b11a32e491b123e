import Lox.Proofs.Grammar.Motion
import Lox.Proofs.Grammar.Reading

/-!
# Bounds on expressions

The parser for expressions is given the number of tokens ahead as a bound on
its nesting. It uses itself only behind a token of its own, so the bound is
never reached, and the parser is the one that is given itself.
-/

set_option autoImplicit false

namespace Lox.Parser

variable {α β : Type} {count : Nat}

/-- The parsers reply the same wherever so many tokens are ahead at most. -/
def Agrees (count : Nat) (left right : Parser α) : Prop :=
  ∀ start, start.rest.length ≤ count → left start = right start

theorem agrees_refl (parser : Parser α) : Agrees count parser parser := fun _ _ => rfl

theorem Agrees.trans {left middle right : Parser α} (first : Agrees count left middle)
    (second : Agrees count middle right) : Agrees count left right :=
  fun start few => (first start few).trans (second start few)

theorem Agrees.symm {left right : Parser α} (agrees : Agrees count left right) :
    Agrees count right left :=
  fun start few => (agrees start few).symm

theorem Agrees.fewer {less : Nat} {left right : Parser α} (agrees : Agrees count left right)
    (le : less ≤ count) : Agrees less left right :=
  fun start few => agrees start (Nat.le_trans few le)

theorem bind_ahead (next : List Token → Parser β) (start : Cursor) :
    (ahead >>= next) start = next start.rest start := rfl

theorem bind_remaining (next : Nat → Parser β) (start : Cursor) :
    (remaining >>= next) start = next start.remaining start := rfl

theorem bind_skip (skipped : Nat) (next : Unit → Parser β) (start : Cursor) :
    (skip skipped >>= next) start = next () (start.skip skipped) := rfl

theorem agrees_bind {first first' : Parser α} {next next' : α → Parser β}
    (agreesFirst : Agrees count first first') (moves : first.Moves .onward)
    (agreesNext : ∀ value, Agrees count (next value) (next' value)) :
    Agrees count (first >>= next) (first' >>= next') := by
  intro start few
  have same := agreesFirst start few
  have moved : (first start).cursor.rest <:+ start.rest := moves start
  rcases reply : first start with ⟨failure | value, middle, rewinds⟩
  · rw [bind_of_error reply, bind_of_error (same ▸ reply)]
  · rw [reply] at moved
    rw [bind_of_ok reply, bind_of_ok (same ▸ reply),
      agreesNext value middle (Nat.le_trans moved.length_le few)]

theorem agrees_skip {next next' : Unit → Parser β} {skipped : Nat}
    (agrees : Agrees count (next ()) (next' ())) :
    ∀ start : Cursor, start.rest.length ≤ count + skipped →
      (skip skipped >>= next) start = (skip skipped >>= next') start := by
  intro start few
  rw [bind_skip, bind_skip]
  apply agrees
  simp only [Cursor.skip, List.length_drop]
  omega

/-- Behind a token that is read, one token less is ahead. -/
theorem agrees_acceptIf {accepts : TokenKind → Bool} {next next' : Option Token → Parser β}
    (agreesBehind : ∀ token, Agrees count (next (some token)) (next' (some token)))
    (agreesElse : Agrees (count + 1) (next none) (next' none)) :
    Agrees (count + 1) (acceptIf accepts >>= next) (acceptIf accepts >>= next') := by
  intro start few
  rcases reply : acceptIf accepts start with ⟨failure | accepted, middle, rewinds⟩
  · rw [bind_of_error reply, bind_of_error reply]
  · have read : (acceptIf accepts).Reads start accepted middle := by simp [Reads, reply]
    rw [bind_of_ok reply, bind_of_ok reply]
    cases accepted with
    | none =>
        obtain ⟨-, rfl⟩ := reads_acceptIf_none.mp read
        rw [agreesElse middle few]
    | some token =>
        obtain ⟨rest, ahead, -, rfl⟩ := reads_acceptIf_some.mp read
        rw [ahead, List.length_cons] at few
        rw [agreesBehind token (start.before rest) (Nat.le_of_succ_le_succ few)]

theorem agrees_listUntil {item item' : Parser α} (agrees : Agrees count item item')
    (moves : item.Moves .onward) (closing : TokenKind) :
    Agrees count (listUntil closing item) (listUntil closing item') := by
  have items : ∀ bound, Agrees count (commaSeparated item bound) (commaSeparated item' bound) := by
    intro bound
    induction bound with
    | zero => exact agrees_bind agrees moves fun _ => agrees_refl _
    | succ bound ih =>
        apply agrees_bind agrees moves
        intro first
        apply agrees_bind (agrees_refl _) (moves_accept _)
        intro comma
        cases comma with
        | none => exact agrees_refl _
        | some comma =>
            exact agrees_bind ih (moves_commaSeparated moves bound) fun _ => agrees_refl _
  apply agrees_bind (agrees_refl _) (moves_isNext closing)
  intro isClosing
  split
  · exact agrees_refl _
  · exact agrees_bind (agrees_refl _) moves_remaining items

theorem rewinding_congr {attempt : Attempt} {tried tried' : Parser α}
    {otherwise otherwise' : Failure → Parser α} {start : Cursor}
    (sameTried : tried start = tried' start)
    (sameOtherwise : ∀ failure, otherwise failure start = otherwise' failure start) :
    rewinding attempt tried otherwise start = rewinding attempt tried' otherwise' start := by
  rcases reply : tried start with ⟨failure | value, reached, rewinds⟩
  · rw [rewinding_of_error reply, rewinding_of_error (sameTried ▸ reply), sameOtherwise]
  · rw [rewinding_of_ok reply, rewinding_of_ok (sameTried ▸ reply)]

section Expressions

variable {inner inner' : Parser Expr} (agrees : Agrees count inner inner')
  (moves : inner.Moves .onward)

include agrees moves in
theorem agrees_primary : Agrees (count + 1) (primary inner) (primary inner') := by
  have grouped : Agrees count
      (do let expr ← inner; let _ ← expect .groupingClosing; return .grouping expr : Parser Expr)
      (do let expr ← inner'; let _ ← expect .groupingClosing; return .grouping expr : Parser Expr) :=
    agrees_bind agrees moves fun _ => agrees_refl _
  intro start few
  rw [primary, primary, bind_ahead, bind_ahead]
  cases start.rest with
  | nil => rfl
  | cons token rest =>
      dsimp only
      cases token.literal? with
      | some value => rfl
      | none =>
          dsimp only
          split
          · rfl
          · split
            · exact agrees_skip grouped start few
            · rfl

include agrees moves in
theorem agrees_finishCall (callee : Expr) :
    Agrees count (finishCall inner callee) (finishCall inner' callee) :=
  agrees_bind (agrees_listUntil agrees moves _) (moves_listUntil moves _) fun _ => agrees_refl _

include agrees moves in
theorem agrees_callsFrom (bound : Nat) : ∀ callee,
    Agrees (count + 1) (callsFrom inner bound callee) (callsFrom inner' bound callee) := by
  induction bound with
  | zero => exact fun _ => agrees_refl _
  | succ bound ih =>
      intro callee
      apply agrees_acceptIf
      · intro opening
        exact agrees_bind (agrees_finishCall agrees moves callee) (moves_finishCall moves callee)
          fun called => (ih called).fewer (Nat.le_succ count)
      · exact agrees_refl _

include agrees moves in
theorem agrees_unary : Agrees (count + 1) (unary inner) (unary inner') := by
  have calls : Agrees (count + 1) (call inner) (call inner') := by
    apply agrees_bind (agrees_primary agrees moves) (moves_primary moves)
    intro callee
    exact agrees_bind (agrees_refl _) moves_remaining fun bound =>
      agrees_callsFrom agrees moves bound callee
  apply agrees_bind (agrees_refl _) moves_remaining
  intro bound
  induction bound with
  | zero => exact calls
  | succ bound ih =>
      apply agrees_bind (agrees_refl _) (moves_acceptIf _)
      intro operator
      cases operator with
      | none => exact calls
      | some operator =>
          exact agrees_bind ih (moves_unaryWithin (moves_call moves) bound) fun _ => agrees_refl _

theorem agrees_chain {accepts : TokenKind → Bool} {node : Expr → Token → Expr → Expr}
    {operand operand' : Parser Expr} (agrees : Agrees count operand operand')
    (moves : operand.Moves .onward) :
    Agrees count (chain accepts node operand) (chain accepts node operand') := by
  have rest : ∀ bound left, Agrees count (chainFrom accepts node operand bound left)
      (chainFrom accepts node operand' bound left) := by
    intro bound
    induction bound with
    | zero => exact fun _ => agrees_refl _
    | succ bound ih =>
        intro left
        apply agrees_bind (agrees_refl _) (moves_acceptIf _)
        intro operator
        cases operator with
        | none => exact agrees_refl _
        | some operator => exact agrees_bind agrees moves fun _ => ih _
  apply agrees_bind agrees moves
  intro left
  exact agrees_bind (agrees_refl _) moves_remaining fun bound => rest bound left

include agrees moves in
theorem agrees_disjunction : Agrees (count + 1) (disjunction inner) (disjunction inner') := by
  have movesFactor : (factor inner).Moves .onward := moves_chain (moves_unary moves)
  have movesTerm : (term inner).Moves .onward := moves_chain movesFactor
  have movesComparison : (comparison inner).Moves .onward := moves_chain movesTerm
  have movesEquality : (equality inner).Moves .onward := moves_chain movesComparison
  have factors : Agrees (count + 1) (factor inner) (factor inner') :=
    agrees_chain (agrees_unary agrees moves) (moves_unary moves)
  have terms : Agrees (count + 1) (term inner) (term inner') := agrees_chain factors movesFactor
  have comparisons : Agrees (count + 1) (comparison inner) (comparison inner') :=
    agrees_chain terms movesTerm
  have equalities : Agrees (count + 1) (equality inner) (equality inner') :=
    agrees_chain comparisons movesComparison
  exact agrees_chain (agrees_chain equalities movesEquality) (moves_chain movesEquality)

include agrees moves in
theorem agrees_assignment : Agrees (count + 1) (assignment inner) (assignment inner') := by
  have disjunctions := agrees_disjunction agrees moves
  intro start few
  rw [assignment, assignment, bind_ahead, bind_ahead]
  cases assignedName? start.rest with
  | none => exact disjunctions start few
  | some name =>
      have values : Agrees count (do return .assign (some name) (← inner) : Parser Expr)
          (do return .assign (some name) (← inner') : Parser Expr) :=
        agrees_bind agrees moves fun _ => agrees_refl _
      have few' : start.rest.length ≤ count + 2 := Nat.le_succ_of_le few
      exact rewinding_congr (agrees_skip values start few') fun _ => disjunctions start few

theorem disjunction_of_nil {start : Cursor} (ended : start.rest = []) :
    disjunction inner start = ⟨.error ⟨.noExpression, none⟩, start, []⟩ := by
  have primaries : primary inner start = ⟨.error ⟨.noExpression, none⟩, start, []⟩ := by
    rw [primary, bind_ahead, ended]
    simp [failHere, fail, ended]
  have unaries : unary inner start = ⟨.error ⟨.noExpression, none⟩, start, []⟩ := by
    rw [unary, bind_remaining, start.remaining_eq, ended]
    exact bind_of_error primaries
  have factors : factor inner start = ⟨.error ⟨.noExpression, none⟩, start, []⟩ :=
    bind_of_error unaries
  have comparisons : comparison inner start = ⟨.error ⟨.noExpression, none⟩, start, []⟩ :=
    bind_of_error (bind_of_error factors)
  exact bind_of_error (bind_of_error (bind_of_error comparisons))

end Expressions

theorem expressionWithin_of_nil {start : Cursor} (ended : start.rest = []) (bound : Nat) :
    expressionWithin bound start = ⟨.error ⟨.noExpression, none⟩, start, []⟩ := by
  cases bound with
  | zero => simp [expressionWithin, failHere, fail, ended]
  | succ bound =>
      have attempt : expressionWithin (bound + 1) start = disjunction (expressionWithin bound) start := by
        simp only [expressionWithin, assignment, bind_ahead, ended, assignedName?]
      exact attempt.trans (disjunction_of_nil ended)

/-- Every bound gives the same replies that is no less than the number of tokens ahead. -/
theorem expressionWithin_agrees (count : Nat) :
    ∀ bound, count ≤ bound → Agrees count (expressionWithin bound) expression := by
  induction count with
  | zero =>
      intro bound _ start none
      have ended : start.rest = [] := List.length_eq_zero_iff.mp (Nat.le_zero.mp none)
      rw [expression, expressionWithin_of_nil ended, expressionWithin_of_nil ended]
  | succ count ih =>
      intro bound le start few
      obtain ⟨bound, rfl⟩ : ∃ less, bound = less + 1 := ⟨bound - 1, by omega⟩
      obtain fewer | exactly := Nat.lt_or_eq_of_le few
      · exact ih (bound + 1) (by omega) start (Nat.le_of_lt_succ fewer)
      · have same : Agrees count (expressionWithin bound) (expressionWithin count) :=
          (ih bound (by omega)).trans (ih count (Nat.le_refl _)).symm
        rw [expression, start.remaining_eq, exactly]
        exact agrees_assignment same (moves_expressionWithin bound) start few

/-- Expressions are parsed by the parser of assignments over that of expressions. -/
theorem expression_eq_assignment : expression = assignment expression := by
  funext start
  have same : Agrees start.rest.length (expressionWithin start.rest.length) expression :=
    expressionWithin_agrees _ _ (Nat.le_refl _)
  calc expression start
      = expressionWithin (start.rest.length + 1) start :=
        (expressionWithin_agrees _ _ (Nat.le_succ _) start (Nat.le_refl _)).symm
    _ = assignment (expressionWithin start.rest.length) start := rfl
    _ = assignment expression start :=
        agrees_assignment same (moves_expressionWithin _) start (Nat.le_succ _)

end Lox.Parser
