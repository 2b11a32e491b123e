import Lox.Proofs.Number.Exact
import Lox.Proofs.Number.Text
import Lox.Proofs.Source.Rescanning
import Lox.Evaluation.Value

/-!
# Printed numbers

What printing shows for a finite number that a literal denotes is a literal for
the same number. It has a point just if the number is not whole, and never a sign or
an exponent.
-/

set_option autoImplicit false

namespace Lox

/-! ## A literal by itself -/

theorem isWhiteSpace_of_isDigit {char : Char} (digit : char.isDigit = true) :
    isWhiteSpace char = false := by
  have zero : '0'.toNat = 48 := rfl
  have nine : '9'.toNat = 57 := rfl
  obtain ⟨least, most⟩ := Char.isDigit_iff_toNat.mp digit
  simp only [isWhiteSpace, whiteSpaceRanges, List.any_cons, List.any_nil, Bool.or_eq_false_iff,
    Bool.and_eq_false_iff, decide_eq_false_iff_not, and_true]
  omega

namespace TokenKind

variable {literal : List Char} {value : Float}

theorem Spells.number_digits (spells : (number value).Spells literal) :
    ∀ char ∈ literal, char.isDigit = true ∨ char = '.' := by
  intro char member
  cases spells with
  | whole digits => exact .inl (digits.2 char member)
  | decimal digits digits' =>
      obtain inWhole | here | inFraction := by
        simpa only [List.mem_append, List.mem_cons] using member
      · exact .inl (digits.2 char inWhole)
      · exact .inr here
      · exact .inl (digits'.2 char inFraction)

theorem Spells.number_value (spells : (number value).Spells literal) :
    ∃ decimal : Number.Decimal, value = decimal.toFloat := by
  cases spells with
  | whole => exact ⟨_, rfl⟩
  | decimal => exact ⟨_, rfl⟩

/-- A literal that is all of a source is scanned as one token. -/
theorem Spells.scan_number (spells : (number value).Spells literal) :
    (Scanner.ofSource (.ofList literal)).scan.items =
      [.ok ⟨.number value, .ofList literal, 1, 1⟩, .ok (Token.ending 1)] := by
  have visible : ∀ char ∈ literal, isWhiteSpace char = false := by
    intro char member
    obtain digit | rfl := spells.number_digits char member
    · exact isWhiteSpace_of_isDigit digit
    · decide
  have tight := Source.tight_of_noSpace visible
  obtain ⟨first, more, rfl, _⟩ := spells.shape
  have noComment : ¬['/', '/'] <+: first :: (more ++ []) := by
    intro begins
    have slash : '/' ∈ first :: more := by simpa using begins.subset List.mem_cons_self
    obtain digit | point := spells.number_digits '/' slash
    · cases digit
    · cases point
  have longest : (number value).Longest (first :: more) (first :: (more ++ [])) := by
    refine ⟨spells, by simp, fun _ begins => ?_⟩
    simpa using begins.length_le
  have munch : Item.MaximalMunch 1 1 (first :: (more ++ []))
      [.ok ⟨.number value, .ofList (first :: more), 1, 1⟩] :=
    .token (.longest noComment longest) .ended
  rw [List.append_nil] at munch
  have whole : '\n' ∉ (String.ofList (first :: more)).toList := by
    rw [String.toList_ofList]
    exact tight.noFeed
  rw [scan_of_line whole, String.toList_ofList, Item.ofLine, Source.spaced_of_tight tight,
    Item.maximalMunch_iff.mp munch]
  rfl

end TokenKind

/-! ## Points -/

namespace Number

theorem point_mem_magnitudeText_iff (bits : Nat) :
    '.' ∈ magnitudeText bits ↔ ¬unitsOfBits bits % unitsPerOne = 0 := by
  unfold magnitudeText
  extract_lets units
  split
  · next whole =>
    refine iff_of_false (fun point => ?_) (not_not_intro whole)
    cases (digits_spell _).2 _ point
  · next notWhole => exact iff_of_true (by simp [Decimal.write]) notWhole

/-- A finite number is printed without a point just if it is whole. -/
theorem point_notMem_text_iff {decimal : Decimal} (finite : decimal.toFloat.isInf = false) :
    '.' ∉ (text decimal.toFloat).toList ↔ IsWhole decimal.toFloat := by
  rw [toList_text finite, point_mem_magnitudeText_iff, not_not]
  exact (isWhole_ofBits_iff (bits_lt finite)).symm

end Number

/-- A literal is scanned as its number. If this is finite, what is printed for
it is scanned as the same number with nothing behind it, and has no point just
if the number is whole. -/
theorem printed_numbers_scan_back {literal : List Char} {value : Float}
    (isLiteral : (TokenKind.number value).Spells literal) (finite : value.isFinite = true) :
    let shown := (Value.number value).text
    (Scanner.ofSource (.ofList literal)).scan.items =
        [.ok ⟨.number value, .ofList literal, 1, 1⟩, .ok (Token.ending 1)] ∧
      (Scanner.ofSource shown).scan.items =
        [.ok ⟨.number value, shown, 1, 1⟩, .ok (Token.ending 1)] ∧
      ('.' ∉ shown.toList ↔ Number.IsWhole value) := by
  intro shown
  obtain ⟨decimal, rfl⟩ := isLiteral.number_value
  have notInfinite := Number.isInf_of_isFinite finite
  have again := (Number.text_spells notInfinite).scan_number
  rw [String.ofList_toList] at again
  exact ⟨isLiteral.scan_number, again, Number.point_notMem_text_iff notInfinite⟩

/-- A literal with more digits than its number needs is printed as a shorter one. -/
theorem literal_is_printed_shorter :
    ∃ value, (TokenKind.number value).Spells ['0', '.', '1', '0'] ∧ value.isFinite = true ∧
      (Value.number value).text = "0.1" ∧
      (Scanner.ofSource "0.1").scan.items =
        [.ok ⟨.number value, "0.1", 1, 1⟩, .ok (Token.ending 1)] ∧
      ¬Number.IsWhole value := by
  let value := (Number.Decimal.read ['0'] ['1', '0']).toFloat
  have isLiteral : (TokenKind.number value).Spells (['0'] ++ '.' :: ['1', '0']) :=
    .decimal (.single rfl) ((TokenKind.Digits.single rfl).append (by simp))
  have finite : value.isFinite = true := by decide +kernel
  have shown : (Value.number value).text = "0.1" := by decide +kernel
  obtain ⟨_, again, point⟩ := printed_numbers_scan_back isLiteral finite
  rw [shown] at again point
  exact ⟨value, isLiteral, finite, shown, again, fun whole => point.mpr whole (by decide)⟩

end Lox
