import Lox.Evaluation.Value
import Lox.Proofs.Number.Double

/-!
# Equality of values

Values are equal only within one type. Undefined numbers set aside, equality is
an equivalence; the two zeros are different doubles that are equal.
-/

set_option autoImplicit false

namespace Lox

namespace Value

variable {left middle right : Value}

/-- The value is not the undefined number, which is not equal to itself. -/
def Comparable (value : Value) : Prop :=
  ∀ number, value = .number number → number.isNaN = false

theorem equals_self (comparable : left.Comparable) : left.equals left = true := by
  cases left with
  | nil => rfl
  | bool | string | function | builtin => simp [equals]
  | number number => exact Number.beq_self_of_isNaN_eq_false (comparable number rfl)

theorem equals_symm (equal : left.equals right = true) : right.equals left = true := by
  cases left <;> cases right <;> try cases equal
  case number.number => exact BEq.symm equal
  all_goals simp_all [equals]

theorem equals_trans (first : left.equals middle = true) (second : middle.equals right = true) :
    left.equals right = true := by
  cases left <;> cases middle <;> try cases first
  all_goals cases right <;> try cases second
  case number.number.number => exact BEq.trans first second
  all_goals simp_all [equals]

theorem type_eq_of_equals (equal : left.equals right = true) : left.type = right.type := by
  cases left <;> cases right <;> first | rfl | cases equal

end Value

end Lox
