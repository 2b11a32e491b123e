import Lox.Proofs.Joining
import Lox.Proofs.Source.Rescanning
import Lox.Proofs.Syntax.Reading

/-!
# Programs and their printed trees

The printed trees of an accepted source determine its program, if no token of the
source is shown as something that other tokens could be shown as too: a string is
shown bare, and all infinite numbers alike.
-/

set_option autoImplicit false

namespace Lox

/-- A token of the kind is neither a string nor an infinite number. -/
def TokenKind.isLegible : TokenKind → Bool
  | string _ => false
  | number value => !value.isInf
  | _ => true

/-- A source without strings and infinite numbers. -/
def Legible (source : String) : Prop := ∀ token ∈ tokensOf source, token.kind.isLegible = true

instance (source : String) : Decidable (Legible source) :=
  inferInstanceAs (Decidable (∀ token ∈ tokensOf source, _))

theorem Legible.printable {source : String} (legible : Legible source) :
    ∀ token ∈ bodyTokens source, token.Printable := by
  intro token member
  have isLegible := legible token (bodyTokens_subset source token member)
  obtain ⟨first, more, rereads⟩ := rereads_of_itemsOf member
  have munch := rereads.munch [] (.inl rfl)
  obtain ⟨payload, isString⟩ | spells := munch.quoted_or_spelled
  · rw [isString] at isLegible
    cases isLegible
  · refine ⟨rereads.lexeme ▸ spells, fun value isNumber => ?_⟩
    rw [isNumber] at isLegible
    simpa [TokenKind.isLegible] using isLegible

theorem Legible.parsed {source : String} {statements : List Stmt} (legible : Legible source)
    (parsed : parse source = .ok statements) :
    ∀ stmt ∈ statements, stmt.Parsed Token.Printable false := by
  obtain ⟨_, derived⟩ := parse_eq_ok_iff.mp parsed
  exact (Grammar.Declarations.parsed derived legible.printable).1

/-- Two accepted sources without strings and infinite numbers have the same
printed trees just if they have the same statements, up to the places of tokens
and up to the keywords and closing parentheses that are not shown. -/
theorem printed_trees_determine_programs (source other : String) (statements others : List Stmt)
    (parsed : parse source = .ok statements) (parsed' : parse other = .ok others)
    (legible : Legible source) (legible' : Legible other) :
    statements.map Stmt.text = others.map Stmt.text ↔
      statements.map Stmt.shown = others.map Stmt.shown :=
  Stmt.texts_eq_iff (legible.parsed parsed) (legible'.parsed parsed')

/-- A loop with clauses is printed as the block that it stands for, and a number as its value. -/
theorem clauses_are_printed_as_written_out :
    let source := "for (var i = 0; i < 2.50; i = i + 1) print i;"
    let other := "\x7bvar i = 0; while (i < 2.5) \x7bprint i; i = i + 1;\x7d\x7d"
    ∃ statements others, parse source = .ok statements ∧ parse other = .ok others ∧
      Legible source ∧ Legible other ∧ statements ≠ others ∧
        statements.map Stmt.text = others.map Stmt.text ∧
          statements.map Stmt.shown = others.map Stmt.shown := by
  intro source other
  have parsed : parse source = .ok ((parse source).toOption.getD []) := by decide +kernel
  have parsed' : parse other = .ok ((parse other).toOption.getD []) := by decide +kernel
  have legible : Legible source := by decide +kernel
  have legible' : Legible other := by decide +kernel
  have same : ((parse source).toOption.getD []).map Stmt.text =
      ((parse other).toOption.getD []).map Stmt.text := by decide +kernel
  exact ⟨_, _, parsed, parsed', legible, legible', by decide +kernel, same,
    (printed_trees_determine_programs source other _ _ parsed parsed' legible legible').mp same⟩

/-- A string is printed as a name could be. -/
example :
    let statements := (parse "print \"a\";").toOption.getD []
    let others := (parse "print a;").toOption.getD []
    statements.map Stmt.text = others.map Stmt.text ∧
      statements.map Stmt.shown ≠ others.map Stmt.shown := by decide +kernel

end Lox
