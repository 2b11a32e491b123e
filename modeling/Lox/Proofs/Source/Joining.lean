import Lox.Proofs.Source.Regions

/-!
# Texts that follow each other

A text that follows another one, with a line feed between the two, is scanned
as if it stood alone, on later lines. How many lines come before it is the
number of line feeds before it.
-/

set_option autoImplicit false

namespace Lox

/-- The same token on a later line. -/
def Token.later (lines : Nat) (token : Token) : Token := { token with line := token.line + lines }

namespace Source

/-- Induction over a text line by line. Each step takes off a line and the feed
behind it, and what has no feed is the last line. -/
@[elab_as_elim]
theorem lineInduction {motive : List Char → Prop}
    (last : ∀ line, '\n' ∉ line → motive line)
    (feed : ∀ line rest, '\n' ∉ line → motive rest → motive (line ++ '\n' :: rest)) :
    ∀ text, motive text := by
  intro text
  by_cases feeds : '\n' ∈ text
  · obtain ⟨line, rest, rfl, whole⟩ := List.eq_append_cons_of_mem feeds
    have shorter : rest.length < (line ++ '\n' :: rest).length := by simp; omega
    exact feed line rest whole (lineInduction last feed rest)
  · exact last text feeds
termination_by text => text.length

theorem takeWhile_inLine {line : List Char} (whole : '\n' ∉ line) (rest : List Char) :
    (line ++ rest).takeWhile inLine = line ++ rest.takeWhile inLine ∧
      (line ++ rest).dropWhile inLine = rest.dropWhile inLine := by
  have inLine : ∀ char ∈ line, inLine char = true := by
    rintro char member
    have differs : char ≠ '\n' := fun same => whole (same ▸ member)
    simpa [Source.inLine] using differs
  exact ⟨List.takeWhile_append_of_pos inLine, List.dropWhile_append_of_pos inLine⟩

theorem lines_of_ne_nil {text : List Char} (nonempty : text ≠ []) :
    lines text = text.takeWhile inLine :: lines ((text.dropWhile inLine).drop 1) := by
  cases text with
  | nil => exact absurd rfl nonempty
  | cons char rest => rw [lines]

theorem lines_append {line : List Char} (whole : '\n' ∉ line) (rest : List Char) :
    lines (line ++ '\n' :: rest) = line :: lines rest := by
  obtain ⟨taken, dropped⟩ := takeWhile_inLine whole ('\n' :: rest)
  rw [lines_of_ne_nil (by simp), taken, dropped]
  simp [inLine]

theorem lines_of_whole {line : List Char} (nonempty : line ≠ []) (whole : '\n' ∉ line) :
    lines line = [line] := by
  obtain ⟨taken, dropped⟩ := takeWhile_inLine whole []
  rw [List.append_nil] at taken dropped
  rw [lines_of_ne_nil nonempty, taken, dropped]
  simp [lines]

end Source

namespace Item

/-- The same item on a later line. -/
def later (lines : Nat) : Item → Item
  | .ok token => .ok (token.later lines)
  | .error error => .error { error with line := error.line + lines }

theorem ofSpaced_later (lines line column : Nat) (text : List Char) :
    ofSpaced (line + lines) column text = (ofSpaced line column text).map (later lines) := by
  fun_induction ofSpaced line column text with
  | case1 => simp [ofSpaced]
  | case2 column rest ih => simp [ofSpaced, ih]
  | case3 column char rest notSpace read => simp [ofSpaced, notSpace, read]
  | case4 column char rest notSpace read => simp [ofSpaced, notSpace, read, later]
  | case5 column char rest notSpace read ih => simp [ofSpaced, notSpace, read, later, ih]
  | case6 column char rest notSpace kind more read ih =>
      simp [ofSpaced, notSpace, read, later, Token.later, ih]

/-- The items of a text that stands behind some lines. -/
def ofText (linesBefore : Nat) (text : List Char) : List Item :=
  (Scanner.drainFrom linesBefore (Source.lines text)).items

theorem ofText_later (lines linesBefore : Nat) (text : List Char) :
    ofText (linesBefore + lines) text = (ofText linesBefore text).map (later lines) := by
  rw [ofText, ofText]
  generalize Source.lines text = remaining
  induction remaining generalizing linesBefore with
  | nil => rfl
  | cons line rest ih =>
      have laterLine : ofLine (linesBefore + lines + 1) line =
          (ofLine (linesBefore + 1) line).map (later lines) := by
        rw [Nat.add_right_comm, ofLine, ofSpaced_later]
        rfl
      have laterRest := ih (linesBefore + 1)
      rw [Nat.add_right_comm] at laterRest
      simp only [Scanner.drainFrom, List.map_append, laterLine, laterRest]

theorem ofText_line {line : List Char} (whole : '\n' ∉ line) (linesBefore : Nat)
    (rest : List Char) :
    ofText linesBefore (line ++ '\n' :: rest) =
      ofLine (linesBefore + 1) line ++ ofText (linesBefore + 1) rest := by
  rw [ofText, Source.lines_append whole]
  rfl

theorem ofText_whole {line : List Char} (whole : '\n' ∉ line) (linesBefore : Nat) :
    ofText linesBefore line = ofLine (linesBefore + 1) line := by
  by_cases empty : line = []
  · subst empty
    simp [ofText, Source.lines, Scanner.drainFrom, ofLine, Source.spaced, Source.words, ofSpaced]
  · rw [ofText, Source.lines_of_whole empty whole]
    simp [Scanner.drainFrom]

/-- The items of two texts with a line feed between them. -/
theorem ofText_append (text more : List Char) (linesBefore : Nat) :
    ofText linesBefore (text ++ '\n' :: more) =
      ofText linesBefore text ++ ofText (linesBefore + (text.count '\n' + 1)) more := by
  induction text using Source.lineInduction generalizing linesBefore with
  | last line whole =>
      rw [ofText_line whole, ofText_whole whole, List.count_eq_zero_of_not_mem whole]
  | feed line rest whole ih =>
      have count : (line ++ '\n' :: rest).count '\n' = rest.count '\n' + 1 := by
        simp [List.count_append, List.count_eq_zero_of_not_mem whole]
      have lines : linesBefore + 1 + (rest.count '\n' + 1) =
          linesBefore + (rest.count '\n' + 1 + 1) := by omega
      rw [List.append_assoc, List.cons_append, ofText_line whole, ofText_line whole, ih, count,
        lines, List.append_assoc]

end Item

/-- The items of a source without its end. -/
def itemsOf (source : String) : List Item := Item.ofText 0 source.toList

theorem scan_itemsOf (source : String) : ∃ line,
    (Scanner.ofSource source).scan.items = itemsOf source ++ [.ok (Token.ending line)] :=
  ⟨_, rfl⟩

theorem itemsOf_notEnding {source : String} {item : Item} (member : item ∈ itemsOf source) :
    item.isEnding = false := by
  rw [itemsOf, Item.ofText, Scanner.drainFrom_items] at member
  obtain ⟨⟨line, number⟩, _, member⟩ := List.mem_flatMap.mp member
  exact ((Item.ofLine_cover number line).placed item member).notEnding

/-- The number of lines that a text puts before another one behind it. -/
def linesBefore (source : String) : Nat := source.toList.count '\n' + 1

theorem itemsOf_append (first second : String) :
    itemsOf (first ++ "\n" ++ second) =
      itemsOf first ++ (itemsOf second).map (Item.later (linesBefore first)) := by
  have text : (first ++ "\n" ++ second).toList = first.toList ++ '\n' :: second.toList := by
    simp
  rw [itemsOf, text, Item.ofText_append, Item.ofText_later]
  rfl

end Lox
