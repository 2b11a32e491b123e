import Lox.Proofs.Source.Joining
import Lox.Proofs.Source.Quoted
import Lox.Proofs.Source.Spacing

/-!
# Scanning lexemes again

The lexemes of a source, written on one line with a space between any two, are
scanned as the tokens that they were. A space ends every token, it is part of
one only inside quotes, and the line is not changed when it is spaced.
-/

set_option autoImplicit false

namespace Lox

open Source (Tight)

/-- The text is empty or goes on with a space. -/
def EndsToken (text : List Char) : Prop := text = [] ∨ text.head? = some ' '

/-- What has no space in it ends in front of the space. -/
theorem EndsToken.isPrefix {part text behind : List Char} (ends : EndsToken behind)
    (noSpace : ' ' ∉ part) (begins : part <+: text ++ behind) : part <+: text := by
  obtain within | ⟨more, rfl⟩ := List.prefix_or_prefix_of_prefix begins (List.prefix_append text behind)
  · exact within
  · have later := (List.prefix_append_right_inj text).mp begins
    cases more with
    | nil => simp
    | cons char more =>
        obtain ⟨others, rfl⟩ := later
        obtain empty | space := ends
        · cases empty
        · obtain rfl : char = ' ' := Option.some.inj space
          exact absurd (List.mem_append_right text List.mem_cons_self) noSpace

/-! ## Tokens in front of a space -/

namespace Lexeme.MaximalMunch

variable {first : Char} {more rest : List Char} {kind : TokenKind}
  (munch : MaximalMunch (first :: (more ++ rest)) (.token kind more))

include munch

/-- A token is read as the same one in front of a space, or at the end of a line. -/
theorem again (behind : List Char) (ends : EndsToken behind) :
    MaximalMunch (first :: (more ++ behind)) (.token kind more) := by
  generalize whole : first :: (more ++ rest) = text at munch
  cases munch with
  | @quoted inner extra _ noQuote quotes _ =>
      obtain ⟨rfl, _⟩ := List.cons.inj whole
      have notQuote : behind.head? ≠ some '"' := by
        obtain rfl | space := ends
        · simp
        · simp [space]
      rw [List.append_assoc, List.singleton_append]
      exact .quoted noQuote quotes notQuote
  | @longest _ first' _ _ noComment longest =>
      subst whole
      obtain ⟨rfl, _⟩ := List.cons_prefix_cons.mp longest.begins
      rw [← List.cons_append] at noComment longest ⊢
      refine .longest (fun comment => noComment ?_)
        ⟨longest.spells, List.prefix_append _ _, fun spells begins => ?_⟩
      · have within := ends.isPrefix (by decide) comment
        exact within.trans (List.prefix_append _ _)
      · exact (ends.isPrefix spells.space_notMem begins).length_le

theorem last_ne_space : (first :: more).getLast? ≠ some ' ' := by
  intro space
  generalize whole : first :: (more ++ rest) = text at munch
  cases munch with
  | quoted =>
      rw [← List.cons_append, List.getLast?_concat] at space
      cases space
  | longest _ longest =>
      subst whole
      obtain ⟨rfl, _⟩ := List.cons_prefix_cons.mp longest.begins
      exact absurd (List.mem_of_getLast? space) longest.spells.space_notMem

end Lexeme.MaximalMunch

/-- The lexeme of the token is tight, and it is read as the token where it stands
in front of a space or at the end of a line. -/
structure Token.Rereads (token : Token) (first : Char) (more : List Char) : Prop where
  lexeme : token.lexeme.toList = first :: more
  tight : Tight (first :: more)
  munch : ∀ behind, EndsToken behind →
    Lexeme.MaximalMunch (first :: (more ++ behind)) (.token token.kind more)

theorem Item.StandsAt.rereads {line column offset : Nat} {text : List Char} {token : Token}
    (tight : Tight text) (stands : StandsAt line column (text.drop offset) (.ok token)) :
    ∃ first more, token.Rereads first more := by
  generalize behind : text.drop offset = later at stands
  cases stands with
  | @token first more rest kind munch =>
      refine ⟨first, more, String.toList_ofList, tight.part ?_ ?_ munch.last_ne_space, munch.again⟩
      · have within : first :: more <+: text.drop offset := ⟨rest, by rw [behind, List.cons_append]⟩
        exact within.isInfix.trans (List.drop_suffix offset text).isInfix
      · simpa using notSpace_of_munch munch (by simp)

theorem rereads_of_itemsOf {source : String} {token : Token}
    (member : token ∈ Item.tokens (itemsOf source)) : ∃ first more, token.Rereads first more := by
  obtain ⟨item, inItems, isToken⟩ := List.mem_filterMap.mp member
  cases item with
  | error error => cases isToken
  | ok found =>
      obtain rfl := Option.some.inj isToken
      obtain ⟨line, items⟩ := scan_itemsOf source
      have scanned : .ok found ∈ (Scanner.ofSource source).scan.items := by
        rw [items]
        exact List.mem_append_left _ inItems
      obtain ⟨_, line, _, _, stands⟩ := Item.standsAt_of_scan scanned (itemsOf_notEnding inItems)
      exact stands.rereads (Source.spaced_tight line)

/-! ## The line of lexemes -/

/-- A source without a line feed has at most one line. -/
theorem scan_of_line {source : String} (whole : '\n' ∉ source.toList) :
    (Scanner.ofSource source).scan.items =
      Item.ofLine 1 source.toList ++ [.ok (Token.ending 1)] := by
  rw [Scanner.scan_items]
  by_cases empty : source.toList = []
  · simp [empty, Source.lines, Item.ofLine, Source.spaced, Source.words, Item.ofSpaced]
  · simp [Source.lines_of_whole empty whole]

/-- The lexemes of some tokens with a space between any two. -/
def lexemeLine (tokens : List Token) : List Char :=
  [' '].intercalate (tokens.map fun token => token.lexeme.toList)

theorem lexemeLine_tight {tokens : List Token}
    (each : ∀ token ∈ tokens, ∃ first more, token.Rereads first more) :
    Tight (lexemeLine tokens) := by
  refine Tight.intercalate fun text member => ?_
  obtain ⟨token, inTokens, rfl⟩ := List.mem_map.mp member
  obtain ⟨first, more, rereads⟩ := each token inTokens
  rw [rereads.lexeme]
  exact ⟨List.cons_ne_nil _ _, rereads.tight⟩

/-- Token by token the line of lexemes is read as what the lexemes are. -/
theorem lexemeLine_munch (line : Nat) {tokens : List Token}
    (each : ∀ token ∈ tokens, ∃ first more, token.Rereads first more) :
    ∀ column, ∃ again : List Token,
      Item.MaximalMunch line column (lexemeLine tokens) (again.map .ok) ∧
        again.map Token.kind = tokens.map Token.kind ∧
        again.map Token.lexeme = tokens.map Token.lexeme := by
  induction tokens with
  | nil => exact fun column => ⟨[], .ended, rfl, rfl⟩
  | cons token rest ih =>
      intro column
      obtain ⟨⟨first, more, rereads⟩, eachRest⟩ := List.forall_mem_cons.mp each
      have lexeme : String.ofList (first :: more) = token.lexeme := by
        rw [← rereads.lexeme, String.ofList_toList]
      cases rest with
      | nil =>
          let read : Token := ⟨token.kind, String.ofList (first :: more), line, column⟩
          have munch : Item.MaximalMunch line column (first :: (more ++ [])) [.ok read] :=
            .token (rereads.munch [] (.inl rfl)) .ended
          refine ⟨[read], ?_, rfl, ?_⟩
          · rw [List.append_nil] at munch
            rw [lexemeLine, List.map_singleton, List.intercalate_singleton, rereads.lexeme]
            exact munch
          · simp only [List.map_cons, List.map_nil, read, lexeme]
      | cons second others =>
          obtain ⟨again, munchRest, kinds, lexemes⟩ := ih eachRest (column + 1 + more.length + 1)
          have munch := rereads.munch (' ' :: lexemeLine (second :: others)) (.inr rfl)
          refine ⟨⟨token.kind, String.ofList (first :: more), line, column⟩ :: again, ?_, ?_, ?_⟩
          · have split : lexemeLine (token :: second :: others) =
                first :: (more ++ ' ' :: lexemeLine (second :: others)) := by
              simp only [lexemeLine, List.map_cons, List.intercalate_cons_cons, rereads.lexeme]
              simp
            rw [split]
            exact .token munch (.space munchRest)
          · simp only [List.map_cons, kinds]
          · simp only [List.map_cons, lexeme, lexemes]

/-- The lexemes of the tokens of a source, on one line with a space between any
two, are scanned with no error as tokens of the same kinds with the same lexemes.
It does not matter what errors the source has. -/
theorem lexemes_scan_as_their_tokens (source : String) :
    let tokens := Item.tokens (itemsOf source)
    let line := " ".intercalate (tokens.map Token.lexeme)
    ∃ again : List Token,
      (Scanner.ofSource line).scan.items = again.map .ok ++ [.ok (Token.ending 1)] ∧
        again.map Token.kind = tokens.map Token.kind ∧
        again.map Token.lexeme = tokens.map Token.lexeme := by
  intro tokens line
  have each : ∀ token ∈ tokens, ∃ first more, token.Rereads first more :=
    fun _ member => rereads_of_itemsOf member
  have tight := lexemeLine_tight each
  obtain ⟨again, munch, same⟩ := lexemeLine_munch 1 each 1
  refine ⟨again, ?_, same⟩
  have text : line.toList = lexemeLine tokens := by
    simp only [line, String.toList_intercalate, List.map_map, lexemeLine]
    rfl
  have whole : '\n' ∉ line.toList := text ▸ tight.noFeed
  rw [scan_of_line whole, text, Item.ofLine, Source.spaced_of_tight tight,
    Item.maximalMunch_iff.mp munch]

end Lox
