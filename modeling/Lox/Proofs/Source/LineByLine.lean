import Lox.Proofs.Source.Pulling
import Lox.Proofs.Source.Spacing

/-!
# Scanning line by line

The items of a source are those of the texts between its line feeds, each text
scanned by itself under its own number. So nothing goes on behind a line feed, and
what one line holds, be it an error or a comment, has no effect on another one.
-/

set_option autoImplicit false

namespace Lox

namespace Source

/-- All texts between the line feeds of the first text are lines, even if the last one is empty. -/
theorem lines_append_feed (text more : List Char) :
    lines (text ++ '\n' :: more) = text.splitOn '\n' ++ lines more := by
  induction text using lineInduction with
  | last line whole =>
      rw [lines_append whole, List.splitOn_eq_singleton whole, List.singleton_append]
  | feed line rest whole ih =>
      rw [List.append_assoc, List.cons_append, lines_append whole, ih,
        List.splitOn_append_cons_self_of_not_mem whole, List.cons_append]

theorem length_splitOn_feed (text : List Char) :
    (text.splitOn '\n').length = text.count '\n' + 1 := by
  induction text using lineInduction with
  | last line whole =>
      rw [List.splitOn_eq_singleton whole, List.count_eq_zero_of_not_mem whole]
      rfl
  | feed line rest whole ih =>
      rw [List.splitOn_append_cons_self_of_not_mem whole, List.length_cons, ih]
      simp [List.count_append, List.count_eq_zero_of_not_mem whole]

end Source

namespace Item

/-- The items of some lines that are numbered from the given number on. -/
def ofNumbered (number : Nat) (lines : List (List Char)) : List Item :=
  (lines.zipIdx number).flatMap fun (line, number) => ofLine number line

theorem ofNumbered_cons (number : Nat) (line : List Char) (rest : List (List Char)) :
    ofNumbered number (line :: rest) = ofLine number line ++ ofNumbered (number + 1) rest := by
  simp [ofNumbered]

theorem ofText_eq_ofNumbered (text : List Char) (linesBefore : Nat) :
    ofText linesBefore text = ofNumbered (linesBefore + 1) (text.splitOn '\n') := by
  induction text using Source.lineInduction generalizing linesBefore with
  | last line whole =>
      rw [ofText_whole whole, List.splitOn_eq_singleton whole]
      simp [ofNumbered]
  | feed line rest whole ih =>
      rw [ofText_line whole, ih, List.splitOn_append_cons_self_of_not_mem whole, ofNumbered_cons]

theorem line_of_mem_ofLine {number : Nat} {line : List Char} {item : Item}
    (member : item ∈ ofLine number line) : item.line = number :=
  ((ofLine_cover number line).placed item member).line

theorem le_line_of_mem_ofNumbered {number : Nat} {lines : List (List Char)} {item : Item}
    (member : item ∈ ofNumbered number lines) : number ≤ item.line := by
  obtain ⟨⟨line, place⟩, numbered, inLine⟩ := List.mem_flatMap.mp member
  have isLine : item.line = place := line_of_mem_ofLine inLine
  exact isLine ▸ (List.mem_zipIdx numbered).1

theorem filter_ofLine (number other : Nat) (line : List Char) :
    (ofLine number line).filter (·.line = other) =
      if number = other then ofLine number line else [] := by
  split
  · next same =>
    rw [List.filter_eq_self]
    intro item member
    simpa [same] using line_of_mem_ofLine member
  · next differs =>
    rw [List.filter_eq_nil_iff]
    intro item member
    simpa [line_of_mem_ofLine member] using differs

/-- Of some numbered lines, the items with the number of a line are those that
the line has by itself. -/
theorem filter_ofNumbered (lines : List (List Char)) : ∀ number index : Nat,
    (ofNumbered number lines).filter (·.line = number + index) =
      ofLine (number + index) (lines.getD index []) := by
  induction lines with
  | nil =>
      intro number index
      simp [ofNumbered, ofLine, Source.spaced, Source.words, ofSpaced]
  | cons line rest ih =>
      intro number index
      rw [ofNumbered_cons, List.filter_append, filter_ofLine]
      cases index with
      | zero =>
          have later : (ofNumbered (number + 1) rest).filter (·.line = number + 0) = [] := by
            rw [List.filter_eq_nil_iff]
            intro item member
            have le := le_line_of_mem_ofNumbered member
            simp only [decide_eq_true_eq]
            omega
          rw [if_pos (Nat.add_zero number).symm, later, List.append_nil]
          rfl
      | succ index =>
          have moved : number + (index + 1) = number + 1 + index := by omega
          rw [if_neg (by omega), List.nil_append, moved, ih, List.getD_cons_succ]

/-- The lexeme of a token is a part of its line as spaced, which has no line feed. -/
theorem lexeme_of_mem_ofNumbered {number : Nat} {lines : List (List Char)} {token : Token}
    (member : .ok token ∈ ofNumbered number lines) :
    ∃ line, lines[token.line - number]? = some line ∧
      token.lexeme.toList <:+: Source.spaced line ∧ '\n' ∉ token.lexeme.toList := by
  obtain ⟨⟨line, place⟩, numbered, inLine⟩ := List.mem_flatMap.mp member
  obtain ⟨reached, inside, isLine⟩ := List.mem_zipIdx numbered
  have placed := (ofLine_cover place line).placed _ inLine
  have same : token.line = place := placed.line
  have shows : token.lexeme.toList = _ := placed.shows
  have part : token.lexeme.toList <:+: Source.spaced line := by
    rw [shows]
    exact (List.take_prefix _ _).isInfix.trans (List.drop_suffix _ _).isInfix
  refine ⟨line, ?_, part, fun feed => (Source.spaced_tight line).noFeed (part.subset feed)⟩
  rw [same, isLine]
  exact List.getElem?_eq_getElem _

end Item

/-- The items of a source are those of the texts between its line feeds, each
scanned by itself, and on no line is there an item of another one. A token is a
part of its line. A source with another one behind it, and a line feed between
the two, has the items of the first and then those of the second on later lines,
and ends on the last line of both. -/
theorem sources_scan_line_by_line (source : String) :
    let lines := source.toList.splitOn '\n'
    let items := (Scanner.ofSource source).drain.items
    items = (lines.zipIdx 1).flatMap (fun (line, number) => Item.ofLine number line) ∧
      (∀ index, items.filter (·.line = 1 + index) =
        Item.ofLine (1 + index) (lines.getD index [])) ∧
      (∀ token, .ok token ∈ items → ∃ line, lines[token.line - 1]? = some line ∧
        token.lexeme.toList <:+: Source.spaced line ∧ '\n' ∉ token.lexeme.toList) ∧
      ∀ more : String,
        let joined := Scanner.ofSource (source ++ "\n" ++ more)
        let before := source.toList.count '\n' + 1
        let both := items ++ (Scanner.ofSource more).drain.items.map (Item.later before)
        (∀ count, (joined.take count).items = both.take count) ∧
          joined.scan.items =
            both ++ [.ok (Token.ending (before + (Source.lines more.toList).length))] := by
  intro lines items
  have numbered : items = Item.ofNumbered 1 lines := Item.ofText_eq_ofNumbered source.toList 0
  refine ⟨numbered, ?_, ?_, ?_⟩
  · intro index
    rw [numbered]
    exact Item.filter_ofNumbered lines 1 index
  · intro token member
    rw [numbered] at member
    exact Item.lexeme_of_mem_ofNumbered member
  · intro more joined before both
    have drained : joined.drain.items = both := itemsOf_append source more
    refine ⟨fun count => by rw [Scanner.take_items, drained], ?_⟩
    have text : (source ++ "\n" ++ more).toList = source.toList ++ '\n' :: more.toList := by simp
    have linesRead : joined.drain.scanner.linesRead =
        before + (Source.lines more.toList).length := by
      simp only [joined, Scanner.drain, Scanner.ofSource, Scanner.drainFrom_linesRead, text,
        Source.lines_append_feed, List.length_append, Source.length_splitOn_feed, before]
      omega
    have last : max joined.drain.scanner.linesRead 1 =
        before + (Source.lines more.toList).length := by
      omega
    rw [Scanner.scan, drained, last]

/-- On the line behind an unterminated string a name is read as if it stood alone. -/
theorem unterminated_string_ends_with_its_line :
    let source := "\"a // b\nc"
    let name : Token := ⟨.name, "c", 2, 1⟩
    .ok name ∈ (Scanner.ofSource source).drain.items ∧
      ∃ line, (source.toList.splitOn '\n')[name.line - 1]? = some line ∧
        name.lexeme.toList <:+: Source.spaced line ∧ '\n' ∉ name.lexeme.toList := by
  intro source name
  have member : .ok name ∈ (Scanner.ofSource source).drain.items := by decide +kernel
  obtain ⟨_, _, parts, _⟩ := sources_scan_line_by_line source
  exact ⟨member, parts name member⟩

end Lox
