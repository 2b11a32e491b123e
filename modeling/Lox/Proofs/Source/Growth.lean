import Lox.Proofs.Source.Longest

/-!
# Growing a lexeme

A lexeme can be read by taking one character after another for as long as the
text taken is a token, or is about to be one: an open quote may still be
closed, and a point with a digit behind it may still be inside of a number. The
last token met is then the lexeme. This gives what `Lexeme.read` finds at once.
-/

set_option autoImplicit false

namespace Lox

namespace Lexeme

open TokenKind (Digits Spells)

/-! ## One character at a time -/

/-- The token that a text is, strings included. -/
def candidate? (text : List Char) : Option TokenKind :=
  if 2 ≤ text.length ∧ text.head? = some '"' ∧ text.getLast? = some '"' then
    some (.string (String.ofList (text.drop 1).dropLast))
  else TokenKind.ofSpelling? text

/-- Whether the next character is a point inside of a number, the number taken being whole. -/
def isPoint (best : Option TokenKind) (taken : List Char) (next : Char) (rest : List Char) : Bool :=
  next == '.' && (best matches some (.number _)) && !taken.contains '.' && rest.head?.any Char.isDigit

/-- What a lexeme is if it grows no further. -/
def settle (taken : List Char) : Option TokenKind → Lexeme
  | some kind => .token kind (taken.drop 1)
  | none => if taken.isEmpty then .unrecognized else .unterminated

/-- Takes characters for as long as the text taken is a token or can become
one, and keeps the last token met. -/
def grow (best : Option TokenKind) (taken : List Char) : List Char → Lexeme
  | [] => settle taken best
  | next :: rest =>
      if taken ++ [next] = ['/', '/'] then .comment
      else
        match candidate? (taken ++ [next]) with
        | some kind => grow (some kind) (taken ++ [next]) rest
        | none =>
            if (best.isNone ∧ (taken ++ [next]).head? = some '"') ∨ isPoint best taken next rest then
              grow best (taken ++ [next]) rest
            else settle taken best

/-! ## Candidates -/

theorem candidate?_of_spells {kind : TokenKind} {text : List Char} (spells : kind.Spells text) :
    candidate? text = some kind := by
  obtain ⟨first, more, rfl, notQuote, _⟩ := spells.shape
  have unquoted : ¬(first :: more).head? = some '"' := by simpa using notQuote
  rw [candidate?, if_neg fun quoted => unquoted quoted.2.1]
  exact TokenKind.ofSpelling?_eq_some_iff.mpr spells

theorem candidate?_eq_none {first : Char} {more : List Char} (notQuote : first ≠ '"')
    (noToken : ∀ kind : TokenKind, ¬kind.Spells (first :: more)) :
    candidate? (first :: more) = none := by
  have unquoted : ¬(first :: more).head? = some '"' := by simpa using notQuote
  rw [candidate?, if_neg fun quoted => unquoted quoted.2.1, Option.eq_none_iff_forall_ne_some]
  exact fun kind found => noToken kind (TokenKind.ofSpelling?_eq_some_iff.mp found)

theorem candidate?_closed (payload : List Char) :
    candidate? ('"' :: payload ++ ['"']) = some (.string (String.ofList payload)) := by
  rw [candidate?, if_pos ⟨by simp, rfl, List.getLast?_concat⟩]
  simp

theorem candidate?_open {payload : List Char} {last : Char} (notQuote : last ≠ '"') :
    candidate? ('"' :: payload ++ [last]) = none := by
  have unclosed : ¬('"' :: payload ++ [last]).getLast? = some '"' := by
    rw [List.getLast?_concat]
    simpa using notQuote
  rw [candidate?, if_neg fun quoted => unclosed quoted.2.2, Option.eq_none_iff_forall_ne_some]
  intro kind found
  have spells := TokenKind.ofSpelling?_eq_some_iff.mp found
  exact spells.notQuote (List.prefix_refl _) rfl

/-! ## Steps -/

section Steps

variable {best : Option TokenKind} {kind : TokenKind} {taken rest : List Char} {next : Char}

theorem grow_of_candidate (noComment : taken ++ [next] ≠ ['/', '/'])
    (candidate : candidate? (taken ++ [next]) = some kind) :
    grow best taken (next :: rest) = grow (candidate? (taken ++ [next])) (taken ++ [next]) rest := by
  rw [grow, if_neg noComment, candidate]

theorem grow_of_point (noComment : taken ++ [next] ≠ ['/', '/'])
    (noCandidate : candidate? (taken ++ [next]) = none)
    (point : isPoint best taken next rest = true) :
    grow best taken (next :: rest) = grow best (taken ++ [next]) rest := by
  rw [grow, if_neg noComment, noCandidate]
  simp only [point, or_true, if_true]

/-- A token is kept if the text with the next character is none and is not about to be one. -/
theorem grow_stops (candidate : candidate? taken = some kind)
    (stops : ∀ next behind, rest = next :: behind → taken ++ [next] ≠ ['/', '/'] ∧
      candidate? (taken ++ [next]) = none ∧ isPoint (candidate? taken) taken next behind = false) :
    grow (candidate? taken) taken rest = .token kind (taken.drop 1) := by
  rw [candidate] at stops ⊢
  cases rest with
  | nil => rfl
  | cons next behind =>
      obtain ⟨noComment, noCandidate, noPoint⟩ := stops next behind rfl
      rw [grow, if_neg noComment, noCandidate]
      simp [noPoint, settle]

end Steps

/-- No character extends the longest token, unless it makes a comment or is a point. -/
theorem grow_stops_of_longest {kind : TokenKind} {first : Char} {more rest text : List Char}
    (longest : kind.Longest (first :: more) (first :: text)) (parts : more ++ rest = text)
    (noComment : ¬['/', '/'] <+: first :: text)
    (noPoint : ∀ next behind, isPoint (some kind) (first :: more) next behind = false) :
    grow (candidate? (first :: more)) (first :: more) rest = .token kind more := by
  have isToken := candidate?_of_spells longest.spells
  refine grow_stops isToken fun next behind split => ?_
  subst split
  subst parts
  have begins : first :: (more ++ [next]) <+: first :: (more ++ next :: behind) :=
    ⟨behind, by simp⟩
  have noCandidate : candidate? (first :: (more ++ [next])) = none := by
    refine candidate?_eq_none (longest.spells.notQuote longest.begins) fun kind spells => ?_
    have shorter := longest.longest spells begins
    simp only [List.length_cons, List.length_append, List.length_nil] at shorter
    omega
  refine ⟨fun slashes => noComment ?_, noCandidate, isToken ▸ noPoint next behind⟩
  rw [List.cons_append] at slashes
  exact slashes ▸ begins

/-- A run of characters is taken if each of them makes a longer text of one sort that is a token. -/
theorem grow_run (keep : Char → Bool) (sort : List Char → Prop)
    (longer : ∀ taken next, sort taken → keep next = true → sort (taken ++ [next]) ∧
      taken ++ [next] ≠ ['/', '/'] ∧ ∃ kind, candidate? (taken ++ [next]) = some kind)
    {taken : List Char} (sorted : sort taken) (rest : List Char) :
    grow (candidate? taken) taken rest =
      grow (candidate? (taken ++ rest.takeWhile keep)) (taken ++ rest.takeWhile keep)
        (rest.dropWhile keep) := by
  induction rest generalizing taken with
  | nil => simp
  | cons next rest ih =>
      by_cases kept : keep next = true
      · obtain ⟨stillSorted, noComment, kind, candidate⟩ := longer taken next sorted kept
        rw [grow_of_candidate noComment candidate, List.takeWhile_cons_of_pos kept,
          List.dropWhile_cons_of_pos kept, ih stillSorted]
        simp only [List.append_assoc, List.singleton_append]
      · rw [List.takeWhile_cons_of_neg kept, List.dropWhile_cons_of_neg kept, List.append_nil]

theorem not_keep_of_dropWhile {keep : Char → Bool} {rest behind : List Char} {next : Char}
    (split : rest.dropWhile keep = next :: behind) : keep next = false := by
  have fails := List.head?_dropWhile_not keep rest
  rw [split] at fails
  exact fails

/-! ## Numbers -/

section Numbers

variable {first next : Char} {more : List Char}

/-- A number ends with a digit, so it never ends with a point. -/
theorem ends_with_digit {kind : TokenKind} (digit : first.isDigit = true)
    (spells : kind.Spells (first :: more ++ [next])) : next.isDigit = true := by
  obtain digits | ⟨whole, fraction, split, _, digits⟩ :=
    spells.of_digit (List.prefix_refl _) digit
  · exact digits.2 next (by simp)
  · obtain ⟨start, final, rfl⟩ := (List.eq_nil_or_concat fraction).resolve_left digits.1
    rw [List.concat_eq_append] at digits split
    rw [← List.cons_append, ← List.append_assoc] at split
    obtain ⟨_, same⟩ := List.append_inj' split rfl
    obtain rfl := List.singleton_inj.mp same
    exact digits.2 next (by simp)

theorem candidate?_number_eq_none (digit : first.isDigit = true) (notDigit : next.isDigit = false) :
    candidate? (first :: more ++ [next]) = none := by
  refine candidate?_eq_none (by rintro rfl; cases digit) fun kind spells => ?_
  rw [ends_with_digit digit spells] at notDigit
  cases notDigit

end Numbers

theorem ne_slashes {first : Char} (notSlash : first ≠ '/') (more : List Char) :
    first :: more ≠ ['/', '/'] := fun same => notSlash (List.cons.inj same).1

theorem ne_slashes_of_digit {first : Char} (digit : first.isDigit = true) (more : List Char) :
    first :: more ≠ ['/', '/'] := by
  refine ne_slashes ?_ more
  rintro rfl
  cases digit

/-- Behind a point with a digit behind it, all further digits are taken. -/
theorem grow_fraction {whole fraction : List Char} (digits : Digits whole)
    (digits' : Digits fraction) (rest : List Char) :
    let behind := fraction ++ rest.takeWhile Char.isDigit
    grow (candidate? (whole ++ '.' :: fraction)) (whole ++ '.' :: fraction) rest =
      .token (.number (Number.Decimal.read whole behind).toFloat)
        ((whole ++ '.' :: behind).drop 1) := by
  intro behind
  obtain ⟨first, more, rfl, digit⟩ := digits.head
  have run := grow_run Char.isDigit
    (fun taken => ∃ fraction, Digits fraction ∧ taken = first :: more ++ '.' :: fraction)
    (by
      rintro _ next ⟨fraction, digits', rfl⟩ kept
      have further : Digits (fraction ++ [next]) := digits'.append (by simpa using kept)
      have same : first :: more ++ '.' :: fraction ++ [next] =
          first :: more ++ '.' :: (fraction ++ [next]) := by simp
      rw [same]
      exact ⟨⟨_, further, rfl⟩, ne_slashes_of_digit digit _, _,
        candidate?_of_spells (.decimal digits further)⟩)
    ⟨fraction, digits', rfl⟩ rest
  have allDigits : Digits behind := digits'.append fun _ => List.mem_takeWhile_imp
  rw [run, List.append_assoc, List.cons_append]
  refine grow_stops (candidate?_of_spells (.decimal digits allDigits)) fun next later split => ?_
  have notDigit : next.isDigit = false := not_keep_of_dropWhile split
  refine ⟨ne_slashes_of_digit digit _, candidate?_number_eq_none digit notDigit, ?_⟩
  simp [isPoint]

theorem isPoint_whole_iff {taken behind : List Char} {next : Char} (digits : Digits taken) :
    isPoint (candidate? taken) taken next behind = true ↔
      next = '.' ∧ ∃ second later, behind = second :: later ∧ second.isDigit = true := by
  have noPoint : '.' ∉ taken := fun member => absurd (digits.2 _ member) (by decide)
  rw [candidate?_of_spells (.whole digits)]
  cases behind <;> simp [isPoint, noPoint]

theorem fraction_of_not_point {next : Char} {behind : List Char}
    (noPoint : ¬(next = '.' ∧ ∃ second later, behind = second :: later ∧ second.isDigit = true)) :
    fraction (next :: behind) = [] := by
  unfold fraction
  split
  · next head =>
    obtain ⟨rfl, rfl⟩ := List.cons.inj head
    cases behind with
    | nil => rfl
    | cons second later =>
        refine List.takeWhile_cons_of_neg fun digit => noPoint ?_
        exact ⟨rfl, second, later, rfl, digit⟩
  · rfl

theorem grow_number {first : Char} (digit : first.isDigit = true) (rest : List Char) :
    grow none [] (first :: rest) = number first rest := by
  have single : Digits [first] := .single digit
  have whole : Digits (first :: rest.takeWhile Char.isDigit) :=
    single.append fun _ => List.mem_takeWhile_imp
  have run := grow_run Char.isDigit Digits
    (by
      intro taken next digits kept
      have further : Digits (taken ++ [next]) := digits.append (by simpa using kept)
      obtain ⟨first, more, rfl, digit⟩ := digits.head
      exact ⟨further, ne_slashes_of_digit digit _, _, candidate?_of_spells (.whole further)⟩)
    single rest
  rw [grow_of_candidate (ne_slashes_of_digit digit _) (candidate?_of_spells (.whole single)),
    List.nil_append, run, List.singleton_append]
  have spells := candidate?_of_spells (.whole whole)
  rw [number]
  cases split : rest.dropWhile Char.isDigit with
  | nil => exact grow_stops spells nofun
  | cons next behind =>
      have notDigit : next.isDigit = false := not_keep_of_dropWhile split
      have noCandidate : candidate? (first :: rest.takeWhile Char.isDigit ++ [next]) = none :=
        candidate?_number_eq_none digit notDigit
      have noComment := ne_slashes_of_digit digit (rest.takeWhile Char.isDigit ++ [next])
      by_cases point : next = '.' ∧ ∃ second later, behind = second :: later ∧ second.isDigit = true
      · have inside := (isPoint_whole_iff whole).mpr point
        obtain ⟨rfl, second, later, rfl, digit'⟩ := point
        have second' : Digits [second] := .single digit'
        have same : first :: rest.takeWhile Char.isDigit ++ ['.'] ++ [second] =
            first :: rest.takeWhile Char.isDigit ++ '.' :: [second] := by simp
        have decimal := candidate?_of_spells (.decimal whole second')
        rw [← same] at decimal
        rw [grow_of_point noComment noCandidate inside,
          grow_of_candidate (ne_slashes_of_digit digit _) decimal, same,
          grow_fraction whole second' later]
        simp [fraction, digit']
      · rw [fraction_of_not_point point]
        refine grow_stops spells fun _ _ same => ?_
        obtain ⟨rfl, rfl⟩ := List.cons.inj same
        exact ⟨noComment, noCandidate, Bool.eq_false_iff.mpr (mt (isPoint_whole_iff whole).mp point)⟩

/-! ## Words -/

theorem isPoint_wordKind (word taken : List Char) (next : Char) (rest : List Char) :
    isPoint (some (wordKind word)) taken next rest = false := by
  unfold wordKind
  split <;> simp [isPoint]

theorem grow_word {first : Char} (begins : beginsWord first = true) (rest : List Char) :
    grow none [] (first :: rest) = word first rest := by
  have notSlash : first ≠ '/' := by
    rintro rfl
    cases begins
  have isWord : ∀ more : List Char, more.all continuesWord = true →
      candidate? (first :: more) = some (wordKind (first :: more)) := fun _ continues =>
    candidate?_of_spells (TokenKind.wordKind_spells begins continues)
  have run := grow_run continuesWord
    (fun taken => ∃ more, more.all continuesWord = true ∧ taken = first :: more)
    (by
      rintro _ next ⟨more, continues, rfl⟩ kept
      have further : (more ++ [next]).all continuesWord = true := by simp [continues, kept]
      exact ⟨⟨_, further, rfl⟩, ne_slashes notSlash _, _, isWord _ further⟩)
    ⟨[], rfl, rfl⟩ rest
  have longest := word_longest begins rest
  rw [grow_of_candidate (ne_slashes notSlash _) (isWord [] rfl), List.nil_append, run,
    List.singleton_append]
  refine grow_stops_of_longest longest List.takeWhile_append_dropWhile ?_ (isPoint_wordKind _ _)
  exact fun slashes => notSlash (List.cons_prefix_cons.mp slashes).1.symm

/-! ## Symbols -/

/-- Every symbol of two characters begins with one of a single character. -/
theorem symbol_of_first {symbol : Symbol} {first : Char} {more : List Char}
    (spelling : symbol.spelling = first :: more) : ∃ other : Symbol, other.spelling = [first] := by
  have singles : ∀ symbol ∈ Symbol.all, ∃ other ∈ Symbol.all,
      other.spelling = symbol.spelling.take 1 := by decide
  obtain ⟨other, _, isFirst⟩ := singles symbol symbol.mem_all
  exact ⟨other, by rw [isFirst, spelling]; rfl⟩

/-- What is neither quoted nor a number or word: a comment, a symbol, or nothing. -/
theorem grow_other {first : Char} {rest : List Char} (notQuote : first ≠ '"')
    (notDigit : first.isDigit = false) (notWord : beginsWord first = false) :
    grow none [] (first :: rest) = Lexeme.read first rest := by
  have begin : ∀ {symbol : Symbol}, symbol.spelling = [first] →
      grow none [] (first :: rest) = grow (candidate? [first]) [first] rest := by
    intro symbol spelling
    have isSymbol := candidate?_of_spells (.symbol symbol)
    rw [spelling] at isSymbol
    exact grow_of_candidate (by simp) isSymbol
  rw [Lexeme.read, if_neg notQuote, notDigit, notWord, if_neg Bool.false_ne_true,
    if_neg Bool.false_ne_true]
  split
  · next slashes =>
    obtain ⟨rfl, head⟩ := slashes
    obtain ⟨behind, rfl⟩ := List.head?_eq_some_iff.mp head
    have isSlash : Symbol.slash.spelling = ['/'] := rfl
    have slashes : ['/'] ++ ['/'] = ['/', '/'] := rfl
    rw [begin isSlash, grow, if_pos slashes]
  · next noSlashes =>
    split
    · next symbol found =>
      have longest := symbol_longest notDigit notWord found
      obtain ⟨char, more, spelling, _, _, _, _, shape⟩ := symbol.spelling_shape
      rw [spelling] at longest ⊢
      obtain ⟨rfl, behind, rfl⟩ := List.cons_prefix_cons.mp longest.begins
      obtain ⟨single, isSingle⟩ := symbol_of_first spelling
      have noComment : ¬['/', '/'] <+: char :: (more ++ behind) := by
        rintro ⟨later, text⟩
        obtain ⟨rfl, same⟩ := List.cons.inj text
        exact noSlashes ⟨rfl, by rw [← same]; rfl⟩
      have stops := grow_stops_of_longest longest rfl noComment fun _ _ => by simp [isPoint]
      rw [begin isSingle]
      obtain rfl | rfl := shape
      · exact stops
      · have isPair := candidate?_of_spells longest.spells
        rw [List.singleton_append, grow_of_candidate (by simp) isPair]
        exact stops
    · next noSymbol =>
      have noToken : candidate? ([] ++ [first]) = none := by
        refine candidate?_eq_none notQuote fun kind spells => ?_
        obtain ⟨symbol, spelling⟩ := spells.of_other (List.prefix_refl _) notDigit notWord
        refine List.find?_eq_none.mp noSymbol symbol symbol.mem_all ?_
        rw [spelling]
        exact List.isPrefixOf_iff_prefix.mpr ⟨rest, rfl⟩
      rw [grow, if_neg (by simp), noToken]
      simp [isPoint, settle, notQuote]

/-! ## Quoted text -/

theorem grow_openQuote {inner : List Char} {next : Char} (notQuote : next ≠ '"')
    (rest : List Char) :
    grow none ('"' :: inner) (next :: rest) = grow none ('"' :: (inner ++ [next])) rest := by
  have noComment : '"' :: inner ++ [next] ≠ ['/', '/'] := ne_slashes (by decide) _
  rw [grow, if_neg noComment, candidate?_open notQuote]
  simp

theorem grow_unterminated {rest : List Char} (noQuote : '"' ∉ rest) (inner : List Char) :
    grow none ('"' :: inner) rest = .unterminated := by
  induction rest generalizing inner with
  | nil => rfl
  | cons next rest ih =>
      rw [List.mem_cons, not_or] at noQuote
      obtain ⟨differs, noQuote⟩ := noQuote
      rw [grow_openQuote (Ne.symm differs), ih noQuote]

theorem grow_closing {text : List Char} (noQuote : '"' ∉ text) (inner rest : List Char) :
    grow none ('"' :: inner) (text ++ '"' :: rest) =
      grow (candidate? ('"' :: (inner ++ text) ++ ['"'])) ('"' :: (inner ++ text) ++ ['"']) rest := by
  induction text generalizing inner with
  | nil =>
      rw [List.nil_append, List.append_nil]
      exact grow_of_candidate (ne_slashes (by decide) _) (candidate?_closed inner)
  | cons next text ih =>
      rw [List.mem_cons, not_or] at noQuote
      obtain ⟨differs, noQuote⟩ := noQuote
      rw [List.cons_append, grow_openQuote (Ne.symm differs), ih noQuote]
      simp only [List.append_assoc, List.singleton_append]

theorem grow_quoted (rest : List Char) : grow none [] ('"' :: rest) = quoted rest := by
  have opened : grow none [] ('"' :: rest) = grow none ['"'] rest := by
    have noCandidate : candidate? ['"'] = none := rfl
    rw [grow, List.nil_append, if_neg (ne_slashes (by decide) _), noCandidate]
    simp
  rw [opened]
  by_cases closed : '"' ∈ rest
  · obtain ⟨inner, behind, rfl, noQuote⟩ := List.eq_append_cons_of_mem closed
    obtain ⟨extra, later, split, quotes, ends, side⟩ := quotes_split behind
    have run := grow_run (· == '"')
      (fun taken => ∃ payload, taken = '"' :: payload ++ ['"'])
      (by
        rintro _ next ⟨payload, rfl⟩ kept
        obtain rfl : next = '"' := by simpa using kept
        have further := candidate?_closed (payload ++ ['"'])
        exact ⟨⟨payload ++ ['"'], rfl⟩, ne_slashes (by decide) _, _, further⟩)
      ⟨inner, rfl⟩ behind
    have taken : '"' :: inner ++ ['"'] ++ behind.takeWhile (· == '"') =
        '"' :: (inner ++ extra) ++ ['"'] := by
      rw [List.takeWhile_cons_of_pos rfl] at side
      rw [List.append_assoc, List.singleton_append, side]
      simp
    rw [grow_closing noQuote, List.nil_append, run, taken, split, ← List.append_assoc,
      quoted_of_parts noQuote quotes ends]
    have whole := candidate?_closed (inner ++ extra)
    refine grow_stops whole fun next further tail => ⟨ne_slashes (by decide) _, ?_, ?_⟩
    · have notQuote := not_keep_of_dropWhile tail
      exact candidate?_open (by simpa using notQuote)
    · rw [whole]
      simp [isPoint]
  · rw [grow_unterminated closed, quoted_of_unclosed closed]

/-! ## Growing is reading -/

/-- Taking one character after another gives the lexeme that reading finds at once. -/
theorem grow_eq_read (first : Char) (rest : List Char) :
    grow none [] (first :: rest) = Lexeme.read first rest := by
  by_cases quote : first = '"'
  · subst quote
    rw [grow_quoted, Lexeme.read, if_pos rfl]
  · cases digit : first.isDigit with
    | true => rw [grow_number digit, Lexeme.read, if_neg quote, if_pos digit]
    | false =>
        cases begins : beginsWord first with
        | true =>
            rw [grow_word begins, Lexeme.read, if_neg quote, digit, if_neg Bool.false_ne_true,
              if_pos begins]
        | false => exact grow_other quote digit begins

end Lexeme

end Lox
