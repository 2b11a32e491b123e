import Lox.Proofs.Source.Lexeme
import Lox.Source.Scanner

/-!
# Where items stand

Every item of a line takes a region of the spaced line: a token the characters
of its lexeme, an unrecognized character itself, and an unterminated quote all
that follows it. The regions come in the order of the items and do not meet.
Between them are spaces, and behind the last one there may be a comment.
-/

set_option autoImplicit false

namespace Lox

namespace Item

def line : Item → Nat
  | .ok token => token.line
  | .error error => error.line

def column : Item → Nat
  | .ok token => token.column
  | .error error => error.column

def isEnding : Item → Bool
  | .ok token => token.kind = .endOfSource
  | .error _ => false

/-- Where in its line an item begins, counted from zero. -/
def start (item : Item) : Nat := item.column - 1

/-- Where in its line an item has ended, counted from zero. -/
def stop (text : List Char) : Item → Nat
  | .ok token => token.column - 1 + token.lexeme.length
  | .error error =>
      match error.fault with
      | .unrecognized _ => error.column - 1 + 1
      | .unterminated => text.length

/-- What the line shows where an item stands. -/
def Shows (text : List Char) : Item → Prop
  | .ok token =>
      token.lexeme.toList = (text.drop (token.column - 1)).take token.lexeme.length
  | .error error =>
      match error.fault with
      | .unrecognized _ => ∃ char, text[error.column - 1]? = some char ∧
          error.fault.message = "Unexpected character '" ++ String.singleton char ++ "'."
      | .unterminated => text[error.column - 1]? = some '"'

/-- An item takes a region of its line, which is not empty and begins no
earlier than the given offset, and it tells what stands there. -/
structure Placed (line : Nat) (text : List Char) (offset : Nat) (item : Item) : Prop where
  line : item.line = line
  column : 1 ≤ item.column
  begins : offset ≤ item.start
  nonempty : item.start < item.stop text
  fits : item.stop text ≤ text.length
  shows : item.Shows text
  notEnding : item.isEnding = false

/-- Some items lie behind an offset in their line, one behind the other, and
what they leave out is spaces up to the tail, which is empty or a comment. -/
structure Cover (line : Nat) (text : List Char) (offset : Nat) (items : List Item) : Prop where
  placed : ∀ item ∈ items, item.Placed line text offset
  ordered : items.Pairwise fun first second => first.stop text ≤ second.start
  covered : ∃ tail, offset ≤ tail ∧ tail ≤ text.length ∧
    (∀ item ∈ items, item.stop text ≤ tail) ∧
    (text.drop tail = [] ∨ ['/', '/'] <+: text.drop tail) ∧
    ∀ index, offset ≤ index → index < tail →
      text[index]? = some ' ' ∨ ∃ item ∈ items, item.start ≤ index ∧ index < item.stop text

namespace Placed

variable {line offset : Nat} {text : List Char}

theorem mono {earlier : Nat} {item : Item} (placed : item.Placed line text offset)
    (le : earlier ≤ offset) : item.Placed line text earlier :=
  { placed with begins := Nat.le_trans le placed.begins }

theorem token {kind : TokenKind} {lexeme behind : List Char} (isLexeme : kind ≠ .endOfSource)
    (nonempty : 0 < lexeme.length) (stands : text.drop offset = lexeme ++ behind) :
    Placed line text offset (.ok ⟨kind, String.ofList lexeme, line, offset + 1⟩) where
  line := rfl
  column := Nat.le_add_left ..
  begins := Nat.le_refl _
  nonempty := by simpa [start, stop, Item.column] using nonempty
  fits := by
    have length := congrArg List.length stands
    simp only [List.length_drop, List.length_append] at length
    simp only [stop, String.length_ofList]
    omega
  shows := by simp [Shows, stands]
  notEnding := by simpa [isEnding] using isLexeme

theorem unrecognized {char : Char} {behind : List Char} (stands : text.drop offset = char :: behind) :
    Placed line text offset (.error ⟨.unrecognized char, line, offset + 1⟩) where
  line := rfl
  column := Nat.le_add_left ..
  begins := Nat.le_refl _
  nonempty := Nat.lt_succ_self _
  fits := by
    have length := congrArg List.length stands
    simp only [List.length_drop, List.length_cons] at length
    simp only [stop]
    omega
  shows := ⟨char, by rw [← List.head?_drop]; simp [stands], rfl⟩
  notEnding := rfl

theorem unterminated {behind : List Char} (stands : text.drop offset = '"' :: behind) :
    Placed line text offset (.error ⟨.unterminated, line, offset + 1⟩) where
  line := rfl
  column := Nat.le_add_left ..
  begins := Nat.le_refl _
  nonempty := by
    have length := congrArg List.length stands
    simp only [List.length_drop, List.length_cons] at length
    simp only [start, stop, Item.column]
    omega
  fits := Nat.le_refl _
  shows := by
    simp only [Shows]
    rw [← List.head?_drop]
    simp [stands]
  notEnding := rfl

end Placed

namespace Cover

variable {line offset : Nat} {text : List Char}

/-- A line without items from an offset on, but for an empty tail or a comment. -/
theorem nil (within : offset ≤ text.length)
    (tail : text.drop offset = [] ∨ ['/', '/'] <+: text.drop offset) :
    Cover line text offset [] where
  placed := by simp
  ordered := .nil
  covered := ⟨offset, Nat.le_refl _, within, by simp, tail, fun index behind before =>
    absurd before (Nat.not_lt_of_le behind)⟩

theorem space {items : List Item} (blank : text[offset]? = some ' ')
    (cover : Cover line text (offset + 1) items) : Cover line text offset items where
  placed := fun item member => (cover.placed item member).mono (Nat.le_succ _)
  ordered := cover.ordered
  covered := by
    obtain ⟨tail, behind, within, stops, shown, between⟩ := cover.covered
    refine ⟨tail, Nat.le_of_succ_le behind, within, stops, shown, fun index reached before => ?_⟩
    obtain rfl | later := Nat.eq_or_lt_of_le reached
    · exact .inl blank
    · exact between index later before

/-- An item at the offset, and a cover of what stands behind its region. -/
theorem cons {item : Item} {items : List Item} (placed : item.Placed line text offset)
    (atOffset : item.start = offset) (cover : Cover line text (item.stop text) items) :
    Cover line text offset (item :: items) where
  placed := by
    have later : offset ≤ item.stop text := atOffset ▸ Nat.le_of_lt placed.nonempty
    exact List.forall_mem_cons.mpr
      ⟨placed, fun other member => (cover.placed other member).mono later⟩
  ordered := .cons (fun other member => (cover.placed other member).begins) cover.ordered
  covered := by
    obtain ⟨tail, behind, within, stops, shown, between⟩ := cover.covered
    have begins : offset ≤ tail := Nat.le_trans (atOffset ▸ Nat.le_of_lt placed.nonempty) behind
    refine ⟨tail, begins, within, List.forall_mem_cons.mpr ⟨behind, stops⟩, shown,
      fun index reached before => ?_⟩
    by_cases inside : index < item.stop text
    · exact .inr ⟨item, by simp, atOffset ▸ reached, inside⟩
    · obtain blank | ⟨other, member, region⟩ := between index (Nat.le_of_not_lt inside) before
      · exact .inl blank
      · exact .inr ⟨other, List.mem_cons_of_mem _ member, region⟩

end Cover

section Reading

variable {text : List Char} {offset : Nat} {char : Char} {rest : List Char}

theorem lt_length_of_drop (stands : text.drop offset = char :: rest) : offset < text.length := by
  have length := congrArg List.length stands
  simp only [List.length_drop, List.length_cons] at length
  omega

theorem getElem?_of_drop (stands : text.drop offset = char :: rest) : text[offset]? = some char := by
  rw [← List.head?_drop, stands]
  rfl

theorem drop_behind (stands : text.drop offset = char :: rest) (count : Nat) :
    text.drop (offset + 1 + count) = rest.drop count := by
  rw [← List.drop_drop, ← List.drop_drop, stands]
  rfl

/-- The items from any offset of a spaced line cover what stands behind it. -/
theorem ofSpaced_cover (line : Nat) {behind : List Char} (stands : text.drop offset = behind)
    (within : offset ≤ text.length) :
    Cover line text offset (ofSpaced line (offset + 1) behind) := by
  generalize same : offset + 1 = column
  fun_induction ofSpaced line column behind generalizing offset with
  | case1 => exact .nil within (.inl stands)
  | case2 column rest ih =>
      have cover := @ih (offset + 1) (drop_behind stands 0)
        (lt_length_of_drop stands) (by omega)
      exact .space (getElem?_of_drop stands) cover
  | case3 column char rest _ read =>
      have slashes := Lexeme.read_fits char rest
      rw [read] at slashes
      exact .nil within (.inr (stands ▸ slashes))
  | case4 column char rest _ read =>
      have quote := Lexeme.read_fits char rest
      rw [read] at quote
      obtain rfl : char = '"' := quote
      subst same
      exact .cons (.unterminated stands) rfl (.nil (Nat.le_refl _) (.inl List.drop_length))
  | case5 column char rest _ read ih =>
      subst same
      have cover := @ih (offset + 1) (drop_behind stands 0) (lt_length_of_drop stands) rfl
      exact .cons (.unrecognized stands) rfl cover
  | case6 column char rest _ kind more read ih =>
      have fits := Lexeme.read_fits char rest
      rw [read] at fits
      obtain ⟨isLexeme, behind, rfl⟩ := fits
      subst same
      have placed : Placed line text offset (.ok ⟨kind, String.ofList (char :: more), line, offset + 1⟩) :=
        .token isLexeme (Nat.succ_pos _) stands
      have stops : offset + 1 + more.length =
          stop text (.ok ⟨kind, String.ofList (char :: more), line, offset + 1⟩) := by
        simp [stop, Nat.add_comm, Nat.add_left_comm]
      have cover := ih (drop_behind stands more.length) (stops ▸ placed.fits) (by omega)
      exact .cons placed rfl (stops ▸ cover)

end Reading

theorem ofLine_cover (line : Nat) (text : List Char) :
    Cover line (Source.spaced text) 0 (ofLine line text) :=
  ofSpaced_cover line rfl (Nat.zero_le _)

end Item

namespace Scanner

/-- The items of some lines, which are numbered from one behind those read already. -/
theorem drainFrom_items (lines : List (List Char)) :
    ∀ linesRead, (drainFrom linesRead lines).items =
      (lines.zipIdx (linesRead + 1)).flatMap fun (line, number) => Item.ofLine number line := by
  induction lines with
  | nil => exact fun _ => rfl
  | cons line rest ih =>
      intro linesRead
      simp [drainFrom, ih]

theorem drainFrom_linesRead (lines : List (List Char)) :
    ∀ linesRead, (drainFrom linesRead lines).scanner.linesRead = linesRead + lines.length := by
  induction lines with
  | nil => exact fun _ => rfl
  | cons line rest ih =>
      intro linesRead
      simp only [drainFrom, ih, List.length_cons]
      omega

/-- The items of a source are those of its lines in turn, and behind them the
end of the source on the last line. -/
theorem scan_items (source : String) :
    let lines := Source.lines source.toList
    (ofSource source).scan.items =
      (lines.zipIdx 1).flatMap (fun (line, number) => Item.ofLine number line) ++
        [.ok (Token.ending (max lines.length 1))] := by
  simp [scan, drain, ofSource, drainFrom_items, drainFrom_linesRead]

end Scanner

/-- The items of a line with any number tell its number, take regions of the
spaced line that lie one behind the other, and tell what stands there: a token
its lexeme, an unrecognized character itself, an unterminated quote a quote
and all behind it. What lies in no region is a space, or belongs to a comment
at the end. A source scans to the items of its lines, none of which is an end,
and to one end behind them. -/
theorem items_cover_their_line (source : String) :
    (∀ number line, Item.Cover number (Source.spaced line) 0 (Item.ofLine number line)) ∧
      let lines := Source.lines source.toList
      let items := (lines.zipIdx 1).flatMap fun (line, number) => Item.ofLine number line
      (Scanner.ofSource source).scan.items =
          items ++ [.ok (Token.ending (max 1 lines.length))] ∧
        ∀ item ∈ items, item.isEnding = false := by
  refine ⟨Item.ofLine_cover, ?_, ?_⟩
  · rw [Nat.max_comm]
    exact Scanner.scan_items source
  · intro item member
    obtain ⟨⟨line, number⟩, _, member⟩ := List.mem_flatMap.mp member
    exact ((Item.ofLine_cover number line).placed item member).notEnding

end Lox
