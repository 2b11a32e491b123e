import Lox.Proofs.Grammar.Completeness
import Lox.Proofs.Grammar.Soundness

/-!
# What is accepted

A token list is parsed without an error exactly if the grammar derives the
tokens before its end as a program, and the statements are then the ones of
the derivation. So no program has two derivations with different trees.
-/

set_option autoImplicit false

namespace Lox

theorem Parse.ofBody_iff_program {tokens : List Token} {statements : List Stmt} :
    (Parse.ofBody tokens).failure = none ∧ (Parse.ofBody tokens).statements = statements ↔
      Grammar.Program statements tokens := by
  constructor
  · intro parsed
    rcases parsed with ⟨succeeded, rfl⟩
    exact Parse.within_sound _ (.ofTokens tokens 0) (Nat.le_refl _) succeeded
  · intro derived
    exact Parse.within_complete _ (.ofTokens tokens 0) (Nat.le_refl _) derived

theorem bodyOf_eq_takeWhile (tokens : List Token) :
    bodyOf tokens = tokens.takeWhile (fun token => token.kind ≠ .endOfSource) := by
  simp [bodyOf, Token.isEnding]

/-- The grammar is not ambiguous. -/
theorem Grammar.Program.unique {tokens : List Token} {first second : List Stmt}
    (derivedFirst : Grammar.Program first tokens) (derivedSecond : Grammar.Program second tokens) :
    first = second := by
  have parsedFirst := (Parse.ofBody_iff_program.mpr derivedFirst).2
  have parsedSecond := (Parse.ofBody_iff_program.mpr derivedSecond).2
  exact parsedFirst.symm.trans parsedSecond

/-- Parsing accepts the language of the grammar, and gives the tree of the derivation. -/
theorem parseTokens_accepts_iff (tokens : List Token) (statements : List Stmt) :
    (parseTokens tokens).error = none ∧ (parseTokens tokens).statements = statements ↔
      Grammar.Program statements (tokens.takeWhile fun token => token.kind ≠ .endOfSource) := by
  rw [← bodyOf_eq_takeWhile, ← Parse.ofBody_iff_program]
  simp [parseTokens]

end Lox
