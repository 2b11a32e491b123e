import Lox.Proofs.Source.MaximalMunch

/-!
# Quoted text

Where an item of a source stands, its line goes on with what the item is. For a
quote this tells where the text in quotes ends: not at the next quote, but at the
last of the quotes that stand side by side there. A quote with no quote behind
it on its line is reported, unless another item or a comment has taken it.
-/

set_option autoImplicit false

namespace Lox

namespace Item

/-- What an item at a place of the source is, by the text that begins there. -/
inductive StandsAt (line column : Nat) : List Char → Item → Prop where
  | token {first more rest kind} :
      Lexeme.MaximalMunch (first :: (more ++ rest)) (.token kind more) →
      StandsAt line column (first :: (more ++ rest))
        (.ok ⟨kind, String.ofList (first :: more), line, column⟩)
  | unterminated {text} :
      Lexeme.MaximalMunch text .unterminated →
      StandsAt line column text (.error ⟨.unterminated, line, column⟩)
  | unrecognized {char rest} :
      Lexeme.MaximalMunch (char :: rest) .unrecognized →
      StandsAt line column (char :: rest) (.error ⟨.unrecognized char, line, column⟩)

/-- Every item stands somewhere in its line. -/
theorem MaximalMunch.standsAt {line column : Nat} {text : List Char} {items : List Item}
    (munch : MaximalMunch line column text items) :
    ∀ item ∈ items, ∃ offset, StandsAt line (column + offset) (text.drop offset) item := by
  induction munch with
  | ended => simp
  | @space column rest items _ ih =>
      intro item member
      obtain ⟨offset, stands⟩ := ih item member
      exact ⟨offset + 1, by rwa [Nat.add_right_comm] at stands⟩
  | comment _ => simp
  | unterminated munch =>
      intro item member
      obtain rfl := List.mem_singleton.mp member
      exact ⟨0, .unterminated munch⟩
  | @unrecognized column char rest items _ munch _ ih =>
      refine List.forall_mem_cons.mpr ⟨⟨0, .unrecognized munch⟩, fun item member => ?_⟩
      obtain ⟨offset, stands⟩ := ih item member
      exact ⟨offset + 1, by rwa [Nat.add_right_comm] at stands⟩
  | @token column first more rest kind items munch _ ih =>
      refine List.forall_mem_cons.mpr ⟨⟨0, .token munch⟩, fun item member => ?_⟩
      obtain ⟨offset, stands⟩ := ih item member
      refine ⟨more.length + offset + 1, ?_⟩
      rw [List.drop_succ_cons, ← List.drop_drop, List.drop_left]
      have column : column + 1 + more.length + offset = column + (more.length + offset + 1) := by
        omega
      rwa [column] at stands

/-- Every item of a source but its end stands in one of the lines. -/
theorem standsAt_of_scan {source : String} {item : Item}
    (member : item ∈ (Scanner.ofSource source).scan.items) (notEnding : item.isEnding = false) :
    ∃ number line offset, (Source.lines source.toList)[number]? = some line ∧
      StandsAt (number + 1) (offset + 1) ((Source.spaced line).drop offset) item := by
  rw [Scanner.scan_items, List.mem_append] at member
  obtain member | member := member
  · obtain ⟨⟨line, number⟩, inLines, member⟩ := List.mem_flatMap.mp member
    obtain ⟨offset, stands⟩ := (ofSpaced_maximalMunch number 1 (Source.spaced line)).standsAt item member
    obtain ⟨from1, found⟩ := List.mk_mem_zipIdx_iff_le_and_getElem?_sub.mp inLines
    refine ⟨number - 1, line, offset, found, ?_⟩
    rwa [Nat.sub_add_cancel from1, Nat.add_comm offset]
  · obtain rfl := List.mem_singleton.mp member
    cases notEnding

/-- The items of a line are items of the source. -/
theorem mem_scan_of_ofLine {source : String} {number : Nat} {line : List Char} {item : Item}
    (found : (Source.lines source.toList)[number]? = some line)
    (member : item ∈ ofLine (number + 1) line) : item ∈ (Scanner.ofSource source).scan.items := by
  have inLines : (line, number + 1) ∈ (Source.lines source.toList).zipIdx 1 :=
    List.mk_mem_zipIdx_iff_le_and_getElem?_sub.mpr ⟨Nat.le_add_left .., found⟩
  rw [Scanner.scan_items, List.mem_append]
  exact .inl (List.mem_flatMap.mpr ⟨(line, number + 1), inLines, member⟩)

end Item

/-! ## Quotes -/

theorem quote_append_of_quotes {quotes : List Char} (all : ∀ char ∈ quotes, char = '"')
    (behind : List Char) : quotes ++ '"' :: behind = '"' :: (quotes ++ behind) := by
  induction quotes with
  | nil => rfl
  | cons first rest ih =>
      obtain ⟨rfl, others⟩ := List.forall_mem_cons.mp all
      rw [List.cons_append, ih others, List.cons_append]

/-- A string token is text without quotes between two quotes, and the quotes that
stand directly behind it, which count as text but for the last one. -/
theorem Lexeme.MaximalMunch.quotes {text more : List Char} {payload : String}
    (munch : MaximalMunch text (.token (.string payload) more)) :
    ∃ inner quotes behind, text = '"' :: (inner ++ '"' :: (quotes ++ behind)) ∧
      '"' ∉ inner ∧ (∀ char ∈ quotes, char = '"') ∧ behind.head? ≠ some '"' ∧
      more = inner ++ '"' :: quotes ∧ payload.toList = inner ++ quotes := by
  cases munch with
  | @quoted inner quotes behind noQuote all ends =>
      refine ⟨inner, quotes, behind, ?_, noQuote, all, ends, ?_, String.toList_ofList⟩
      · rw [List.append_assoc, quote_append_of_quotes all]
      · rw [List.append_assoc, quote_append_of_quotes all, List.append_nil]
  | longest _ longest => cases longest.spells

/-- A token is quoted text, or its kind is told by its lexeme alone. -/
theorem Lexeme.MaximalMunch.quoted_or_spelled {first : Char} {rest more : List Char}
    {kind : TokenKind} (munch : MaximalMunch (first :: rest) (.token kind more)) :
    (∃ payload, kind = .string payload) ∨ kind.Spells (first :: more) := by
  cases munch with
  | quoted => exact .inl ⟨_, rfl⟩
  | longest _ longest =>
      obtain ⟨rfl, _⟩ := List.cons_prefix_cons.mp longest.begins
      exact .inr longest.spells

/-- An item whose region holds a quote is a string token, or the report of a quote. -/
theorem Item.StandsAt.of_quote {number offset index : Nat} {text : List Char} {item : Item}
    (stands : StandsAt number (1 + offset) (text.drop offset) item)
    (quote : text[index]? = some '"') (starts : item.start ≤ index)
    (stops : index < item.stop text) :
    (∃ token payload, item = .ok token ∧ token.kind = .string payload) ∨
      ∃ column, item = .error ⟨.unterminated, number, column⟩ := by
  generalize behind : text.drop offset = ahead at stands
  have isAhead (starts : offset ≤ index) : ahead[index - offset]? = some '"' := by
    rw [← behind, List.getElem?_drop, Nat.add_sub_cancel' starts, quote]
  cases stands with
  | @token first more rest kind munch =>
      obtain ⟨payload, isString⟩ | spells := munch.quoted_or_spelled
      · exact .inl ⟨_, payload, rfl, isString⟩
      · simp only [start, stop, Item.column, String.length_ofList, List.length_cons] at starts stops
        have inLexeme := isAhead (by omega)
        rw [← List.cons_append, List.getElem?_append_left (by simp; omega)] at inLexeme
        exact absurd (List.mem_of_getElem? inLexeme) spells.quote_notMem
  | unterminated => exact .inr ⟨_, rfl⟩
  | unrecognized munch =>
      simp only [start, stop, Item.column] at starts stops
      obtain rfl : index = offset := by omega
      have isFirst := isAhead (Nat.le_refl _)
      rw [Nat.sub_self] at isFirst
      cases munch with
      | unrecognized notQuote _ => exact absurd (Option.some.inj isFirst) notQuote

/-- A comment begins at an offset of a line with these items: two slashes stand
there, no item reaches behind it, and what stands in front of it is spaces and
items. Slashes within a string or within a comment are not where one begins. -/
structure Item.CommentBegins (text : List Char) (items : List Item) (offset : Nat) : Prop where
  slashes : ['/', '/'] <+: text.drop offset
  stops : ∀ item ∈ items, item.stop text ≤ offset
  inFront : ∀ index < offset,
    text[index]? = some ' ' ∨ ∃ item ∈ items, item.start ≤ index ∧ index < item.stop text

/-- A quote on a line belongs to a string token, or it stands where a quote is
reported or behind that place, or it is part of a comment. -/
theorem Item.quote_cover (number : Nat) (line : List Char) {index : Nat}
    (quote : (Source.spaced line)[index]? = some '"') :
    (∃ token payload, .ok token ∈ ofLine number line ∧ token.kind = .string payload ∧
        token.column ≤ index + 1 ∧ index + 1 < token.column + token.lexeme.length) ∨
      (∃ column ≤ index + 1, .error ⟨.unterminated, number, column⟩ ∈ ofLine number line) ∨
      ∃ offset ≤ index, CommentBegins (Source.spaced line) (ofLine number line) offset := by
  have cover := ofLine_cover number line
  obtain ⟨tail, _, _, ends, shown, between⟩ := cover.covered
  by_cases inside : index < tail
  · obtain blank | ⟨item, member, starts, stops⟩ := between index (Nat.zero_le _) inside
    · rw [quote] at blank
      cases blank
    · obtain ⟨offset, stands⟩ :=
        (ofSpaced_maximalMunch number 1 (Source.spaced line)).standsAt item member
      have placed := (cover.placed item member).column
      obtain ⟨token, payload, rfl, isString⟩ | ⟨column, rfl⟩ := stands.of_quote quote starts stops
      · simp only [start, stop, Item.column] at starts stops placed
        exact .inl ⟨token, payload, member, isString, by omega, by omega⟩
      · simp only [start, Item.column] at starts
        exact .inr (.inl ⟨column, by omega, member⟩)
  · have within : tail ≤ index := Nat.le_of_not_lt inside
    obtain ended | comment := shown
    · have short := List.drop_eq_nil_iff.mp ended
      rw [List.getElem?_eq_none (Nat.le_trans short within)] at quote
      cases quote
    · exact .inr (.inr ⟨tail, within, comment, ends, fun index => between index (Nat.zero_le _)⟩)

/-- Where the text in quotes ends, for the strings of a source and for its quotes
that are reported. A string runs to the next quote and over all quotes that stand
directly behind that one; the last of them closes it, and the others are in its
text. Behind a quote that is reported there is no other on its line. And a quote of
a line is in a string, at or behind a quote that is reported, or behind the place
where a comment begins. -/
theorem strings_take_the_quotes_behind_them (source : String) :
    let lines := Source.lines source.toList
    let items := (Scanner.ofSource source).scan.items
    (∀ token payload, .ok token ∈ items → token.kind = .string payload →
      ∃ line inner quotes behind, lines[token.line - 1]? = some line ∧
        (Source.spaced line).drop (token.column - 1) =
          '"' :: (inner ++ '"' :: (quotes ++ behind)) ∧
        '"' ∉ inner ∧ (∀ char ∈ quotes, char = '"') ∧ behind.head? ≠ some '"' ∧
        token.lexeme.toList = '"' :: (inner ++ '"' :: quotes) ∧
        payload.toList = inner ++ quotes) ∧
    (∀ number column, .error ⟨.unterminated, number, column⟩ ∈ items →
      ∃ line behind, lines[number - 1]? = some line ∧
        (Source.spaced line).drop (column - 1) = '"' :: behind ∧ '"' ∉ behind) ∧
    ∀ number line index, lines[number]? = some line → (Source.spaced line)[index]? = some '"' →
      (∃ token payload, .ok token ∈ items ∧ token.line = number + 1 ∧
        token.kind = .string payload ∧ token.column ≤ index + 1 ∧
        index + 1 < token.column + token.lexeme.length) ∨
      (∃ column ≤ index + 1, .error ⟨.unterminated, number + 1, column⟩ ∈ items) ∨
      ∃ offset ≤ index,
        Item.CommentBegins (Source.spaced line) (Item.ofLine (number + 1) line) offset := by
  intro lines items
  refine ⟨?_, ?_, ?_⟩
  · intro token payload member isString
    have notEnding : (Item.isEnding (.ok token)) = false := by simp [Item.isEnding, isString]
    obtain ⟨number, line, offset, found, stands⟩ := Item.standsAt_of_scan member notEnding
    generalize same : (Source.spaced line).drop offset = text at stands
    cases stands with
    | token munch =>
        obtain rfl : _ = TokenKind.string payload := isString
        obtain ⟨inner, quotes, behind, text, noQuote, all, ends, rfl, written⟩ := munch.quotes
        obtain ⟨rfl, _⟩ := List.cons.inj text
        refine ⟨line, inner, quotes, behind, found, same.trans text, noQuote, all, ends, ?_, written⟩
        exact String.toList_ofList
  · intro number column member
    obtain ⟨number, line, offset, found, stands⟩ := Item.standsAt_of_scan member rfl
    generalize same : (Source.spaced line).drop offset = text at stands
    cases stands with
    | unterminated munch =>
        cases munch with
        | @unterminated behind noQuote => exact ⟨line, behind, found, same, noQuote⟩
  · intro number line index found quote
    have inItems : ∀ item ∈ Item.ofLine (number + 1) line, item ∈ items :=
      fun _ => Item.mem_scan_of_ofLine found
    obtain ⟨token, payload, member, taken⟩ | ⟨column, before, member⟩ | comment :=
      Item.quote_cover (number + 1) line quote
    · have placed := (Item.ofLine_cover (number + 1) line).placed _ member
      exact .inl ⟨token, payload, inItems _ member, placed.line, taken⟩
    · exact .inr (.inl ⟨column, before, inItems _ member⟩)
    · exact .inr (.inr comment)

/-- Of two texts in quotes with nothing between them, the first takes the opening
quote of the other one, which is then no string. -/
theorem adjacent_quotes_join_the_first_string :
    (Scanner.ofSource "\"a\"\"b\"").scan.items =
      [.ok ⟨.string "a\"", "\"a\"\"", 1, 1⟩, .ok ⟨.name, "b", 1, 5⟩,
        .error ⟨.unterminated, 1, 6⟩, .ok (Token.ending 1)] := by
  decide +kernel

end Lox
