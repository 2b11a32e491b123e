import Mathlib.Data.List.TakeWhile

/-!
# Texts in prefix form

A text that is made of atoms and of parts in parentheses, with single spaces
between the parts. Its shape can be read off the text, if no atom is empty or
has one of these characters in it.
-/

set_option autoImplicit false

namespace Lox

/-- An atom, or parts in parentheses. -/
inductive Node where
  | atom (text : List Char)
  | group (parts : List Node)

namespace Node

mutual

def text : Node → List Char
  | atom text => text
  | group [] => ['(', ')']
  | group (first :: rest) => '(' :: (first.text ++ trail rest ++ [')'])

/-- Parts with a space in front of each. -/
def trail : List Node → List Char
  | [] => []
  | part :: rest => ' ' :: (part.text ++ trail rest)

end

/-- The characters that end an atom. -/
def Delimits (char : Char) : Prop := char = ' ' ∨ char = '(' ∨ char = ')'

instance (char : Char) : Decidable (Delimits char) := inferInstanceAs (Decidable (_ ∨ _))

/-- Nodes whose atoms are not empty and hold no delimiter. -/
inductive Plain : Node → Prop where
  | atom {text} : text ≠ [] → (∀ char ∈ text, ¬Delimits char) → Plain (.atom text)
  | group {parts} : (∀ part ∈ parts, Plain part) → Plain (.group parts)

/-- The text is empty or goes on with a delimiter. -/
def EndsAtom (text : List Char) : Prop := ∀ char ∈ text.head?, Delimits char

theorem endsAtom_cons {char : Char} {rest : List Char} (delimits : Delimits char) :
    EndsAtom (char :: rest) := by
  simpa [EndsAtom] using delimits

/-- An atom ends at the first delimiter. -/
theorem takeWhile_atom {text behind : List Char} (plain : ∀ char ∈ text, ¬Delimits char)
    (ends : EndsAtom behind) : (text ++ behind).takeWhile (fun char => ¬Delimits char) = text := by
  rw [List.takeWhile_append_of_pos (by simpa using plain)]
  cases behind with
  | nil => simp
  | cons char rest => simp [ends char rfl]

theorem Plain.parts {parts : List Node} (plain : (Node.group parts).Plain) :
    ∀ part ∈ parts, part.Plain := by
  cases plain with
  | group each => exact each

/-- An atom begins with no delimiter, and a group with the opening one. -/
theorem Plain.begins {node : Node} (plain : node.Plain) :
    ∃ first rest, node.text = first :: rest ∧ first ≠ ')' ∧
      ((∃ parts, node = .group parts) ↔ first = '(') := by
  cases plain with
  | @atom text nonempty apart =>
      obtain ⟨first, rest, rfl⟩ := List.exists_cons_of_ne_nil nonempty
      have notDelimiter := apart first List.mem_cons_self
      refine ⟨first, rest, by rw [Node.text], ?_, ?_⟩
      · rintro rfl
        exact notDelimiter (by decide)
      · refine ⟨by simp, ?_⟩
        rintro rfl
        exact absurd (by decide) notDelimiter
  | @group parts _ =>
      cases parts with
      | nil => exact ⟨'(', _, rfl, by decide, by simp⟩
      | cons part rest => exact ⟨'(', _, rfl, by decide, by simp⟩

theorem endsAtom_trail (rest : List Node) (behind : List Char) :
    EndsAtom (trail rest ++ ')' :: behind) := by
  cases rest with
  | nil => exact endsAtom_cons (by decide)
  | cons part rest =>
      rw [trail]
      exact endsAtom_cons (by decide)

/-- The text of a group with a part, in front of a text. -/
theorem text_group_append (part : Node) (rest : List Node) (behind : List Char) :
    (group (part :: rest)).text ++ behind = '(' :: (part.text ++ (trail rest ++ ')' :: behind)) := by
  simp [text]

mutual

/-- A text begins with the text of one plain node only, if an atom ends there. -/
theorem text_inj : ∀ {left right : Node}, left.Plain → right.Plain →
    ∀ {behind behind' : List Char}, EndsAtom behind → EndsAtom behind' →
      left.text ++ behind = right.text ++ behind' → left = right ∧ behind = behind'
  | .atom text, .atom text', .atom _ apart, .atom _ apart', behind, behind', ends, ends', same => by
      rw [Node.text, Node.text] at same
      have sameText : text = text' := by
        rw [← takeWhile_atom apart ends, same, takeWhile_atom apart' ends']
      subst sameText
      exact ⟨rfl, List.append_cancel_left same⟩
  -- An atom and a group differ in their first character.
  | .atom text, .group parts, plain, plain', _, _, _, _, same => by
      obtain ⟨first, rest, begins, _, isGroup⟩ := plain.begins
      obtain ⟨first', rest', begins', _, isGroup'⟩ := plain'.begins
      rw [begins, begins'] at same
      obtain rfl : first = first' := (List.cons.inj same).1
      obtain ⟨_, impossible⟩ := isGroup.mpr (isGroup'.mp ⟨parts, rfl⟩)
      cases impossible
  | .group parts, .atom text, plain, plain', _, _, _, _, same => by
      obtain ⟨first, rest, begins, _, isGroup⟩ := plain.begins
      obtain ⟨first', rest', begins', _, isGroup'⟩ := plain'.begins
      rw [begins, begins'] at same
      obtain rfl : first = first' := (List.cons.inj same).1
      obtain ⟨_, impossible⟩ := isGroup'.mpr (isGroup.mp ⟨parts, rfl⟩)
      cases impossible
  | .group [], .group [], _, _, _, _, _, _, same => by
      simpa [text] using same
  -- No part begins like the end of an empty group.
  | .group [], .group (part :: rest), _, plain, _, _, _, _, same => by
      obtain ⟨first, later, begins, notClosing, _⟩ := (plain.parts part List.mem_cons_self).begins
      rw [text_group_append, begins] at same
      exact absurd (List.cons.inj (List.cons.inj same).2).1.symm notClosing
  | .group (part :: rest), .group [], plain, _, _, _, _, _, same => by
      obtain ⟨first, later, begins, notClosing, _⟩ := (plain.parts part List.mem_cons_self).begins
      rw [text_group_append, begins] at same
      exact absurd (List.cons.inj (List.cons.inj same).2).1 notClosing
  | .group (part :: rest), .group (part' :: rest'), plain, plain', _, _, _, _, same => by
      rw [text_group_append, text_group_append] at same
      obtain ⟨plainPart, plainRest⟩ := List.forall_mem_cons.mp plain.parts
      obtain ⟨plainPart', plainRest'⟩ := List.forall_mem_cons.mp plain'.parts
      obtain ⟨rfl, later⟩ := text_inj plainPart plainPart' (endsAtom_trail rest _)
        (endsAtom_trail rest' _) (List.cons.inj same).2
      obtain ⟨rfl, behind⟩ := trail_inj plainRest plainRest' later
      exact ⟨rfl, behind⟩

theorem trail_inj : ∀ {left right : List Node}, (∀ part ∈ left, part.Plain) →
    (∀ part ∈ right, part.Plain) → ∀ {behind behind' : List Char},
      trail left ++ ')' :: behind = trail right ++ ')' :: behind' → left = right ∧ behind = behind'
  | [], [], _, _, _, _, same => ⟨rfl, (List.cons.inj same).2⟩
  | [], part :: rest, _, _, _, _, same => by
      rw [trail, trail] at same
      exact absurd (List.cons.inj same).1 (by decide)
  | part :: rest, [], _, _, _, _, same => by
      rw [trail, trail] at same
      exact absurd (List.cons.inj same).1 (by decide)
  | part :: rest, part' :: rest', plain, plain', _, _, same => by
      rw [trail, trail, List.cons_append, List.cons_append, List.append_assoc,
        List.append_assoc] at same
      obtain ⟨plainPart, plainRest⟩ := List.forall_mem_cons.mp plain
      obtain ⟨plainPart', plainRest'⟩ := List.forall_mem_cons.mp plain'
      obtain ⟨rfl, later⟩ := text_inj plainPart plainPart' (endsAtom_trail rest _)
        (endsAtom_trail rest' _) (List.cons.inj same).2
      obtain ⟨rfl, behind⟩ := trail_inj plainRest plainRest' later
      exact ⟨rfl, behind⟩

end

/-- Plain nodes with one text are equal. -/
theorem eq_of_text {left right : Node} (plain : left.Plain) (plain' : right.Plain)
    (same : left.text = right.text) : left = right := by
  have ends : EndsAtom [] := by simp [EndsAtom]
  have whole : left.text ++ [] = right.text ++ [] := by rw [same]
  exact (text_inj plain plain' ends ends whole).1

end Node

end Lox
