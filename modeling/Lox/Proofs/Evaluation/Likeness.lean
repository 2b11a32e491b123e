import Lox.Evaluation.Evaluate
import Lox.Proofs.Syntax.Likeness

/-!
# Alike values

Values met in two evaluations are alike if they are equal, or functions made
at the same time from alike declarations in scopes that stand for each other.
Operators cannot tell alike values apart, nor can printing, if every scope
stands for at most one.
-/

set_option autoImplicit false

namespace Lox

section Definitions

variable (like : Token → Token → Prop) (stands : ScopeId → ScopeId → Prop)

structure Closure.Alike (left right : Closure) : Prop where
  identity : left.identity = right.identity
  scope : stands left.scope right.scope
  name : like left.name right.name
  parameters : List.Forall₂ like left.parameters right.parameters
  body : List.Forall₂ (Stmt.Alike like) left.body right.body

inductive Value.Alike : Value → Value → Prop where
  | nil : Alike .nil .nil
  | bool {value} : Alike (.bool value) (.bool value)
  | number {value} : Alike (.number value) (.number value)
  | string {text} : Alike (.string text) (.string text)
  | function {closure closure'} :
      Closure.Alike like stands closure closure' → Alike (.function closure) (.function closure')
  | builtin {function} : Alike (.builtin function) (.builtin function)

inductive Completion.Alike : Completion → Completion → Prop where
  | normal : Alike .normal .normal
  | returned {value value'} :
      Value.Alike like stands value value' → Alike (.returned value) (.returned value')

/-- The same names in the same order, with alike values. -/
def Bindings.Alike (left right : Bindings) : Prop :=
  List.Forall₂ (fun first second => first.1 = second.1 ∧ first.2.Alike like stands second.2)
    left right

inductive Fault.Alike : Fault → Fault → Prop where
  | runtime {fault token token'} :
      like token token' → Alike (.runtime ⟨fault, token⟩) (.runtime ⟨fault, token'⟩)
  | internal {fault} : Alike (.internal fault) (.internal fault)
  | outputFull : Alike .outputFull .outputFull
  | tooDeep : Alike .tooDeep .tooDeep

/-- Outcomes with values that are in some relation, or with alike faults. -/
inductive OutcomesAlike {α β : Type} (given : α → β → Prop) :
    Except Fault α → Except Fault β → Prop where
  | ok {value value'} : given value value' → OutcomesAlike given (.ok value) (.ok value')
  | error {fault fault'} :
      Fault.Alike like fault fault' → OutcomesAlike given (.error fault) (.error fault')

end Definitions

variable {like : Token → Token → Prop} {stands stands' : ScopeId → ScopeId → Prop}

/-! ## More scopes that stand for each other -/

section Monotonicity

variable (more : ∀ id id', stands id id' → stands' id id')

include more

theorem Value.Alike.mono {left right : Value} (alike : left.Alike like stands right) :
    left.Alike like stands' right := by
  cases alike with
  | nil => exact .nil
  | bool => exact .bool
  | number => exact .number
  | string => exact .string
  | function closures => exact .function { closures with scope := more _ _ closures.scope }
  | builtin => exact .builtin

theorem Value.Alike.mono_list {left right : List Value}
    (alike : List.Forall₂ (Value.Alike like stands) left right) :
    List.Forall₂ (Value.Alike like stands') left right :=
  alike.imp fun _ _ value => value.mono more

theorem Bindings.Alike.mono {left right : Bindings}
    (alike : Bindings.Alike like stands left right) :
    Bindings.Alike like stands' left right :=
  List.Forall₂.imp (fun _ _ ⟨name, value⟩ => ⟨name, value.mono more⟩) alike

end Monotonicity

/-! ## Values -/

theorem Value.Alike.ofLiteral (value : Literal) :
    (Value.ofLiteral value).Alike like stands (.ofLiteral value) := by
  cases value with
  | nil => exact .nil
  | bool => exact .bool
  | number => exact .number
  | string => exact .string

theorem Completion.Alike.value {left right : Completion} (alike : left.Alike like stands right) :
    left.value.Alike like stands right.value := by
  cases alike with
  | normal => exact .nil
  | returned value => exact value

section Written

variable (written : Token.WrittenAlike like)

include written

theorem Value.Alike.text {left right : Value} (alike : left.Alike like stands right) :
    left.text = right.text := by
  cases alike with
  | nil | bool | number | string | builtin => rfl
  | function closures =>
      have same := (written _ _ closures.name).2
      simp only [Value.text, same]

end Written

/-- Functions are equal when their counterparts are, as no two scopes have one place. -/
theorem Value.Alike.equals
    (matched : ∀ {id id' other other'}, stands id id' → stands other other' →
      (id = other ↔ id' = other'))
    {left left' right right' : Value} (alikeLeft : left.Alike like stands left')
    (alikeRight : right.Alike like stands right') : left.equals right = left'.equals right' := by
  cases alikeLeft with
  | nil | bool | number | string | builtin => cases alikeRight <;> rfl
  | function first =>
      cases alikeRight with
      | nil | bool | number | string | builtin => rfl
      | function second =>
          have scopes := matched first.scope second.scope
          simp only [Value.equals, first.identity, second.identity, Bool.beq_eq_decide_eq, scopes]

/-! ## Bindings -/

namespace Bindings

theorem Alike.find? {left right : Bindings} (alike : Bindings.Alike like stands left right)
    (name : String) :
    Option.Rel (Value.Alike like stands) (find? name left) (find? name right) := by
  induction alike with
  | nil => exact .none
  | @cons first second _ _ both _ ih =>
      obtain ⟨bound, value⟩ := first
      obtain ⟨bound', value'⟩ := second
      obtain ⟨rfl, alike⟩ := both
      simp only [Bindings.find?]
      split
      · exact .some alike
      · exact ih

theorem Alike.set {left right : Bindings} (alike : Bindings.Alike like stands left right)
    (name : String) {value value' : Value} (alikeValue : value.Alike like stands value') :
    Bindings.Alike like stands (set name value left) (set name value' right) := by
  induction alike with
  | nil => exact .cons ⟨rfl, alikeValue⟩ .nil
  | @cons first second _ _ both rest ih =>
      obtain ⟨bound, old⟩ := first
      obtain ⟨bound', old'⟩ := second
      obtain ⟨rfl, alike⟩ := both
      simp only [Bindings.set]
      split
      · exact .cons ⟨rfl, alikeValue⟩ rest
      · exact .cons ⟨rfl, alike⟩ ih

/-- Alike arguments are bound alike: the parameters have the same names. -/
theorem Alike.ofArguments (written : Token.WrittenAlike like) {parameters parameters' : List Token}
    {arguments arguments' : List Value} (likely : List.Forall₂ like parameters parameters')
    (alike : List.Forall₂ (Value.Alike like stands) arguments arguments') :
    Bindings.Alike like stands (ofArguments parameters arguments)
      (ofArguments parameters' arguments') := by
  suffices ∀ bindings bindings', Bindings.Alike like stands bindings bindings' →
      Bindings.Alike like stands
        ((parameters.zip arguments).foldl
          (fun bindings bound => Bindings.set bound.1.lexeme bound.2 bindings)
          bindings)
        ((parameters'.zip arguments').foldl
          (fun bindings bound => Bindings.set bound.1.lexeme bound.2 bindings)
          bindings') from
    this [] [] .nil
  induction likely generalizing arguments arguments' with
  | nil => exact fun _ _ before => before
  | cons parameter _ ih =>
      cases alike with
      | nil => exact fun _ _ before => before
      | cons argument others =>
          intro bindings bindings' before
          simp only [List.zip_cons_cons, List.foldl_cons]
          apply ih others
          rw [(written _ _ parameter).2]
          exact before.set _ argument

end Bindings

/-! ## Operators -/

namespace Operator

variable (written : Token.WrittenAlike like) {operator operator' : Token}
  (likely : like operator operator')

include likely

theorem at_alike {α β : Type} (given : α → β → Prop) (fault : RuntimeFault) :
    OutcomesAlike like given (Fault.at fault operator) (Fault.at fault operator') :=
  .error (.runtime likely)

section Operands

variable {left left' right right' : Value} (alikeLeft : left.Alike like stands left')
  (alikeRight : right.Alike like stands right')

include alikeLeft

theorem truth_alike : OutcomesAlike like Eq (truth operator left) (truth operator' left') := by
  cases alikeLeft with
  | bool => exact .ok rfl
  | nil | number | string | function | builtin => exact at_alike likely _ _

theorem condition_alike :
    OutcomesAlike like Eq (condition operator left) (condition operator' left') := by
  cases alikeLeft with
  | bool => exact .ok rfl
  | nil | number | string | function | builtin => exact at_alike likely _ _

theorem negate_alike :
    OutcomesAlike like (Value.Alike like stands) (negate operator left)
      (negate operator' left') := by
  cases alikeLeft with
  | number => exact .ok .number
  | nil | bool | string | function | builtin => exact at_alike likely _ _

include alikeRight

theorem numeric_alike {apply : Float → Float → Value}
    (same : ∀ first second, (apply first second).Alike like stands (apply first second)) :
    OutcomesAlike like (Value.Alike like stands)
      (numeric operator left right apply) (numeric operator' left' right' apply) := by
  cases alikeLeft with
  | number =>
      cases alikeRight with
      | number => exact .ok (same _ _)
      | nil | bool | string | function | builtin => exact at_alike likely _ _
  | nil | bool | string | function | builtin => exact at_alike likely _ _

theorem add_alike :
    OutcomesAlike like (Value.Alike like stands)
      (add operator left right) (add operator' left' right') := by
  cases alikeLeft with
  | number =>
      cases alikeRight with
      | number => exact .ok .number
      | nil | bool | string | function | builtin => exact at_alike likely _ _
  | string =>
      cases alikeRight with
      | string => exact .ok .string
      | nil | bool | number | function | builtin => exact at_alike likely _ _
  | nil | bool | function | builtin => exact at_alike likely _ _

include written in
theorem binary_alike
    (matched : ∀ {id id' other other'}, stands id id' → stands other other' →
      (id = other ↔ id' = other')) :
    OutcomesAlike like (Value.Alike like stands)
      (binary operator left right) (binary operator' left' right') := by
  obtain ⟨kind, lexeme⟩ := written _ _ likely
  have equal := alikeLeft.equals matched alikeRight
  simp only [binary, kind, lexeme, equal]
  split
  · exact numeric_alike likely alikeLeft alikeRight fun _ _ => .number
  · exact add_alike likely alikeLeft alikeRight
  · exact numeric_alike likely alikeLeft alikeRight fun _ _ => .number
  · exact numeric_alike likely alikeLeft alikeRight fun _ _ => .number
  · exact numeric_alike likely alikeLeft alikeRight fun _ _ => .bool
  · exact numeric_alike likely alikeLeft alikeRight fun _ _ => .bool
  · exact numeric_alike likely alikeLeft alikeRight fun _ _ => .bool
  · exact numeric_alike likely alikeLeft alikeRight fun _ _ => .bool
  · exact .ok .bool
  · exact .ok .bool
  · exact .error .internal

end Operands

include written in
theorem unary_alike {operand operand' : Value} (alike : operand.Alike like stands operand') :
    OutcomesAlike like (Value.Alike like stands)
      (unary operator operand) (unary operator' operand') := by
  obtain ⟨kind, lexeme⟩ := written _ _ likely
  simp only [unary, kind, lexeme]
  split
  · exact negate_alike likely alike
  · have same := truth_alike likely alike
    revert same
    generalize truth operator operand = outcome
    generalize truth operator' operand' = outcome'
    rintro (rfl | fault)
    · exact .ok .bool
    · exact .error fault
  · exact .error .internal

end Operator

end Lox
