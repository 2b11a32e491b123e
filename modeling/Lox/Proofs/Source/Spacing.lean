import Mathlib.Data.List.Chain
import Mathlib.Data.List.TakeWhile
import Lox.Source.Line

/-!
# Spaced lines

Spacing a line leaves no white space but single spaces between other
characters. A text that is like this already is not changed by it, and texts
like this can be joined by single spaces again.
-/

set_option autoImplicit false

namespace Lox

namespace Source

/-- All white space of the text is single spaces between other characters. -/
structure Tight (text : List Char) : Prop where
  spaces : ∀ char ∈ text, isWhiteSpace char = true → char = ' '
  single : text.IsChain fun first second => first = ' ' → second ≠ ' '
  first : text.head? ≠ some ' '
  last : text.getLast? ≠ some ' '

theorem tight_nil : Tight [] where
  spaces := by simp
  single := .nil
  first := by simp
  last := by simp

theorem tight_of_noSpace {text : List Char} (word : ∀ char ∈ text, isWhiteSpace char = false) :
    Tight text := by
  have notSpace : ∀ char ∈ text, char ≠ ' ' := by
    rintro _ member rfl
    exact absurd (word _ member) (by decide)
  have single : text.Pairwise fun first second => first = ' ' → second ≠ ' ' :=
    List.pairwise_of_forall_mem_list fun first member _ _ space => absurd space (notSpace first member)
  exact
    { spaces := fun char member blank => absurd blank (by simp [word char member])
      single := single.isChain
      first := fun begins => notSpace _ (List.mem_of_head? begins) rfl
      last := fun ends => notSpace _ (List.mem_of_getLast? ends) rfl }

namespace Tight

variable {text : List Char}

/-- A part of a tight text that has no space at its ends is tight. -/
theorem part {part : List Char} (tight : Tight text) (within : part <:+: text)
    (first : part.head? ≠ some ' ') (last : part.getLast? ≠ some ' ') : Tight part where
  spaces char member := tight.spaces char (within.subset member)
  single := List.IsChain.infix tight.single within
  first := first
  last := last

theorem noFeed (tight : Tight text) : '\n' ∉ text := fun feed =>
  absurd (tight.spaces _ feed (by decide)) (by decide)

theorem intercalate_ne_nil {texts : List (List Char)} (nonempty : text ≠ []) :
    [' '].intercalate (text :: texts) ≠ [] := by
  cases texts with
  | nil => simpa using nonempty
  | cons second others => simp [nonempty]

theorem join {rest : List Char} (tight : Tight text) (tightRest : Tight rest) (nonempty : text ≠ [])
    (nonemptyRest : rest ≠ []) : Tight (text ++ [' '] ++ rest) where
  spaces char member := by
    simp only [List.mem_append, List.mem_singleton] at member
    obtain (inText | space) | inRest := member
    · exact tight.spaces char inText
    · exact fun _ => space
    · exact tightRest.spaces char inRest
  single := by
    rw [List.append_assoc, List.isChain_append, List.singleton_append, List.isChain_cons]
    refine ⟨tight.single, ⟨?_, tightRest.single⟩, ?_⟩
    · rintro _ begins _ rfl
      exact tightRest.first begins
    · rintro _ ends _ _ rfl
      exact absurd ends tight.last
  first := by
    rw [List.append_assoc, List.head?_append_of_ne_nil _ nonempty]
    exact tight.first
  last := by
    rw [List.getLast?_append_of_ne_nil _ nonemptyRest]
    exact tightRest.last

/-- Behind a space a tight text goes on. -/
theorem behind_space {rest : List Char} (tight : Tight (text ++ [' '] ++ rest)) :
    rest ≠ [] ∧ Tight rest := by
  have nonempty : rest ≠ [] := by
    rintro rfl
    exact tight.last (by rw [List.append_nil, List.getLast?_concat])
  refine ⟨nonempty, tight.part (List.suffix_append _ _).isInfix ?_ ?_⟩
  · intro begins
    obtain ⟨others, rfl⟩ := List.head?_eq_some_iff.mp begins
    have double : [' ', ' '] <:+: text ++ [' '] ++ ' ' :: others := ⟨text, others, by simp⟩
    have chain := List.IsChain.infix tight.single double
    exact (List.isChain_cons_cons.mp chain).1 rfl rfl
  · rw [← List.getLast?_append_of_ne_nil _ nonempty]
    exact tight.last

/-- Tight texts that are not empty make a tight text with single spaces between them. -/
theorem intercalate {texts : List (List Char)} (each : ∀ text ∈ texts, text ≠ [] ∧ Tight text) :
    Tight ([' '].intercalate texts) := by
  induction texts with
  | nil => exact tight_nil
  | cons first rest ih =>
      obtain ⟨⟨nonempty, tight⟩, eachRest⟩ := List.forall_mem_cons.mp each
      cases rest with
      | nil =>
          rw [List.intercalate_singleton]
          exact tight
      | cons second others =>
          have nonemptyRest : [' '].intercalate (second :: others) ≠ [] :=
            intercalate_ne_nil (eachRest second List.mem_cons_self).1
          rw [List.intercalate_cons_cons]
          exact tight.join (ih eachRest) nonempty nonemptyRest

end Tight

/-! ## Words -/

theorem mem_words {line word : List Char} (member : word ∈ words line) :
    word ≠ [] ∧ ∀ char ∈ word, isWhiteSpace char = false := by
  fun_induction words line with
  | case1 => cases member
  | case2 char rest blank ih => exact ih member
  | case3 char rest visible ih =>
      obtain rfl | later := List.mem_cons.mp member
      · refine ⟨List.cons_ne_nil _ _, List.forall_mem_cons.mpr ⟨by simpa using visible, ?_⟩⟩
        intro inside member
        simpa [inWord] using List.mem_takeWhile_imp member
      · exact ih later

theorem spaced_tight (line : List Char) : Tight (spaced line) :=
  Tight.intercalate fun _ member => ⟨(mem_words member).1, tight_of_noSpace (mem_words member).2⟩

/-- Spacing changes no text that is tight already. -/
theorem spaced_of_tight : ∀ {text : List Char}, Tight text → spaced text = text
  | [], _ => by simp [spaced, words]
  | char :: rest, tight => by
      have visible : isWhiteSpace char = false := by
        refine Bool.eq_false_iff.mpr fun blank => ?_
        obtain rfl := tight.spaces char List.mem_cons_self blank
        exact tight.first rfl
      have parts := List.takeWhile_append_dropWhile (p := inWord) (l := rest)
      have ends := List.head?_dropWhile_not inWord rest
      rw [spaced, words]
      simp only [visible, Bool.false_eq_true, if_false]
      generalize rest.takeWhile inWord = word at parts
      generalize rest.dropWhile inWord = behind at parts ends
      cases behind with
      | nil => rw [words, List.intercalate_singleton, ← parts, List.append_nil]
      | cons space later =>
          have whole : char :: rest = (char :: word) ++ [space] ++ later := by
            rw [← parts]
            simp
          have blank : isWhiteSpace space = true := by simpa [inWord] using ends
          obtain rfl := tight.spaces space (by simp [whole]) blank
          rw [whole] at tight
          obtain ⟨nonempty, tightLater⟩ := tight.behind_space
          have ih := spaced_of_tight tightLater
          have noWords : words later ≠ [] := by
            intro none
            rw [spaced, none, List.intercalate_nil] at ih
            exact nonempty ih.symm
          have skipped : words (' ' :: later) = words later := by
            rw [words]
            exact if_pos blank
          rw [skipped, List.intercalate_cons_of_ne_nil noWords, ← spaced, ih, whole]
termination_by text => text.length
decreasing_by
  have length := congrArg List.length whole
  simp only [List.length_append, List.length_cons] at length ⊢
  omega

end Source

end Lox
