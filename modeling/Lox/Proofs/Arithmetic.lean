import Lox.Evaluation.Evaluate
import Lox.Proofs.Grammar.Completeness

/-!
# Arithmetic

Numbers with the four operations between them, any number of each in any order.
Multiplying and dividing come first, from left to right, and then adding and
subtracting, from left to right as well. No law of the four operations is used: what
is parsed and evaluated is this very grouping.
-/

set_option autoImplicit false

namespace Lox

namespace Arithmetic

inductive Operation where
  | add | subtract | multiply | divide
  deriving DecidableEq, Repr

namespace Operation

def symbol : Operation → Symbol
  | add => .plus
  | subtract => .minus
  | multiply => .star
  | divide => .slash

def apply : Operation → Float → Float → Float
  | add, left, right => left + right
  | subtract, left, right => left - right
  | multiply, left, right => left * right
  | divide, left, right => left / right

/-- Whether an operation waits for products on both of its sides. -/
def joinsProducts : Operation → Bool
  | add | subtract => true
  | multiply | divide => false

end Operation

structure NumberToken where
  token : Token
  value : Float
  isNumber : token.kind = .number value

structure OperationToken where
  token : Token
  operation : Operation
  isOperation : token.kind = .symbol operation.symbol

/-- Numbers with an operation between any two. -/
structure Chain where
  first : NumberToken
  rest : List (OperationToken × NumberToken)

def Chain.tokens (chain : Chain) : List Token :=
  chain.first.token ::
    chain.rest.flatMap fun (operation, number) => [operation.token, number.token]

/-- The number in front of some links up to the first that adds or subtracts,
and behind it each link of this kind with the numbers up to the next one. -/
def productsFrom (first : NumberToken) :
    List (OperationToken × NumberToken) → Chain × List (OperationToken × Chain)
  | [] => (⟨first, []⟩, [])
  | (operation, number) :: rest =>
      let behind := productsFrom number rest
      if operation.operation.joinsProducts then
        (⟨first, []⟩, (operation, behind.1) :: behind.2)
      else (⟨first, (operation, number) :: behind.1.rest⟩, behind.2)

/-- A chain cut where it adds or subtracts. -/
def Chain.products (chain : Chain) : Chain × List (OperationToken × Chain) :=
  productsFrom chain.first chain.rest

/-- The value of a chain with its operations applied from left to right. -/
def Chain.inTurn (chain : Chain) : Float :=
  chain.rest.foldl (fun left (operation, number) => operation.operation.apply left number.value)
    chain.first.value

/-- The value of a chain with its products first: they are added and subtracted
from left to right, and each is multiplied and divided from left to right. -/
def Chain.value (chain : Chain) : Float :=
  chain.products.2.foldl
    (fun left (operation, product) => operation.operation.apply left product.inTurn)
    chain.products.1.inTurn

/-! ## Cutting a chain -/

theorem Chain.tokens_cons (first : NumberToken) (operation : OperationToken)
    (number : NumberToken) (rest : List (OperationToken × NumberToken)) :
    Chain.tokens ⟨first, (operation, number) :: rest⟩ =
      first.token :: operation.token :: Chain.tokens ⟨number, rest⟩ := by
  simp [tokens]

theorem first_productsFrom (first : NumberToken) (rest : List (OperationToken × NumberToken)) :
    (productsFrom first rest).1.first = first := by
  cases rest with
  | nil => rfl
  | cons link rest =>
      simp only [productsFrom]
      split <;> rfl

/-- Cutting loses no token. -/
theorem tokens_productsFrom (first : NumberToken) (rest : List (OperationToken × NumberToken)) :
    Chain.tokens ⟨first, rest⟩ =
      (productsFrom first rest).1.tokens ++ (productsFrom first rest).2.flatMap
        fun (operation, product) => operation.token :: product.tokens := by
  induction rest generalizing first with
  | nil => simp [productsFrom]
  | cons link rest ih =>
      obtain ⟨operation, number⟩ := link
      have behind := ih number
      have begins := first_productsFrom number rest
      simp only [productsFrom]
      generalize productsFrom number rest = products at behind begins
      obtain ⟨⟨_, factors⟩, others⟩ := products
      obtain rfl := begins
      rw [Chain.tokens_cons, behind]
      split
      · simp [Chain.tokens]
      · rw [Chain.tokens_cons, List.cons_append, List.cons_append]

/-- Within a product nothing is added or subtracted, and between products nothing else is done. -/
theorem operations_productsFrom (first : NumberToken)
    (rest : List (OperationToken × NumberToken)) :
    (∀ link ∈ (productsFrom first rest).1.rest, link.1.operation.joinsProducts = false) ∧
      ∀ link ∈ (productsFrom first rest).2, link.1.operation.joinsProducts = true ∧
        ∀ inner ∈ link.2.rest, inner.1.operation.joinsProducts = false := by
  induction rest generalizing first with
  | nil => simp [productsFrom]
  | cons link rest ih =>
      obtain ⟨operation, number⟩ := link
      obtain ⟨within, between⟩ := ih number
      simp only [productsFrom]
      split
      · next joins => exact ⟨by simp, List.forall_mem_cons.mpr ⟨⟨joins, within⟩, between⟩⟩
      · next multiplies =>
        exact ⟨List.forall_mem_cons.mpr ⟨by simpa using multiplies, within⟩, between⟩

/-! ## Computing -/

/-- The tokens are a phrase of the level, whatever follows them, and it
evaluates to the value on every machine and leaves that as it is. -/
def Computes (level : Level) (tokens : List Token) (value : Float) : Prop :=
  ∃ tree, (∀ rest, Grammar.Expression level tree (tokens ++ rest) rest) ∧
    ∀ depth machine, tokens.length ≤ depth →
      evaluate depth tree machine = .ok (.number value) machine

theorem Computes.tighter {level : Level} {tokens : List Token} {value : Float}
    (computes : Computes level.tighter tokens value) : Computes level tokens value := by
  obtain ⟨tree, derived, evaluated⟩ := computes
  exact ⟨tree, fun rest => .tighter (derived rest), evaluated⟩

theorem NumberToken.computes (number : NumberToken) :
    Computes .unary [number.token] number.value := by
  have denoted : number.token.literal? = some (.number number.value) := by
    rw [Token.literal?, number.isNumber, TokenKind.literal?]
  refine ⟨_, fun rest => .tighter (.tighter (.literal denoted)), fun depth machine enough => ?_⟩
  obtain ⟨depth, rfl⟩ : ∃ less, depth = less + 1 := ⟨depth - 1, by simp at enough; omega⟩
  rfl

theorem OperationToken.binary (operation : OperationToken) (left right : Float) :
    Operator.binary operation.token (.number left) (.number right) =
      .ok (.number (operation.operation.apply left right)) := by
  obtain ⟨token, operation, isOperation⟩ := operation
  cases operation <;> simp only [Operator.binary, isOperation, Operation.symbol] <;> rfl

/-- An operation of the level with an operand on each side. -/
theorem Computes.binary {level : Level} {tokens others : List Token} {left right : Float}
    (computesLeft : Computes level tokens left) {operation : OperationToken}
    (joins : operation.token.kind ∈ level.operators) (isBinary : level.node = .binary)
    (computesRight : Computes level.tighter others right) :
    Computes level (tokens ++ operation.token :: others)
      (operation.operation.apply left right) := by
  obtain ⟨tree, derived, evaluated⟩ := computesLeft
  obtain ⟨operand, derivedRight, evaluatedRight⟩ := computesRight
  refine ⟨.binary tree operation.token operand, fun rest => ?_, fun depth machine enough => ?_⟩
  · rw [List.append_assoc, List.cons_append, ← isBinary]
    exact .binary (derived _) joins (derivedRight rest)
  · simp only [List.length_append, List.length_cons] at enough
    obtain ⟨depth, rfl⟩ : ∃ less, depth = less + 1 := ⟨depth - 1, by omega⟩
    simp only [evaluate, bind, EStateM.bind, evaluated depth machine (by omega),
      evaluatedRight depth machine (by omega), operation.binary]
    rfl

/-- Operands with operations of the level between them are computed from the left. -/
theorem Computes.foldl {α : Type} {level : Level} (isBinary : level.node = .binary)
    {operation : α → OperationToken} {tokens : α → List Token} {value : α → Float}
    {links : List α} (joins : ∀ link ∈ links, (operation link).token.kind ∈ level.operators)
    (operands : ∀ link ∈ links, Computes level.tighter (tokens link) (value link)) :
    ∀ {before : List Token} {left : Float}, Computes level before left →
      Computes level (before ++ links.flatMap fun link => (operation link).token :: tokens link)
        (links.foldl (fun left link => (operation link).operation.apply left (value link))
          left) := by
  induction links with
  | nil =>
      intro before left computes
      simpa using computes
  | cons link rest ih =>
      intro before left computes
      obtain ⟨joinsFirst, joinsRest⟩ := List.forall_mem_cons.mp joins
      obtain ⟨operand, operandsRest⟩ := List.forall_mem_cons.mp operands
      have computesRest := ih joinsRest operandsRest (computes.binary joinsFirst isBinary operand)
      simpa using computesRest

theorem OperationToken.mem_operators (operation : OperationToken) :
    operation.token.kind ∈
      (if operation.operation.joinsProducts then Level.term else Level.factor).operators := by
  rw [operation.isOperation]
  cases operation.operation <;> decide

theorem Chain.computes_inTurn (chain : Chain)
    (factors : ∀ link ∈ chain.rest, link.1.operation.joinsProducts = false) :
    Computes .factor chain.tokens chain.inTurn := by
  have joins : ∀ link ∈ chain.rest, link.1.token.kind ∈ Level.factor.operators := by
    intro link member
    simpa [factors link member] using link.1.mem_operators
  have operands : ∀ link ∈ chain.rest, Computes Level.factor.tighter [link.2.token] link.2.value :=
    fun link _ => link.2.computes
  have first : Computes .factor [chain.first.token] chain.first.value :=
    .tighter chain.first.computes
  exact first.foldl rfl joins operands

theorem Chain.computes_value (chain : Chain) : Computes .term chain.tokens chain.value := by
  obtain ⟨within, between⟩ := operations_productsFrom chain.first chain.rest
  have joins : ∀ link ∈ chain.products.2, link.1.token.kind ∈ Level.term.operators := by
    intro link member
    simpa [(between link member).1] using link.1.mem_operators
  have operands : ∀ link ∈ chain.products.2,
      Computes Level.term.tighter link.2.tokens link.2.inTurn :=
    fun link member => link.2.computes_inTurn (between link member).2
  have first : Computes .term chain.products.1.tokens chain.products.1.inTurn :=
    .tighter (chain.products.1.computes_inTurn within)
  have tokens : chain.tokens = _ := tokens_productsFrom chain.first chain.rest
  rw [tokens]
  exact first.foldl rfl joins operands

end Arithmetic

/-- A chain of numbers with the four operations between them is parsed to its end
as an expression, and evaluating what was parsed gives the value of the chain, on
every machine, which is left as it is. -/
theorem arithmetic_follows_precedence (chain : Arithmetic.Chain) (bodies : Nat) :
    let reply := Parser.expression (.ofTokens chain.tokens bodies)
    ∃ tree, reply.outcome = .ok tree ∧ reply.cursor.rest = [] ∧
      ∀ depth machine, chain.tokens.length ≤ depth →
        evaluate depth tree machine = .ok (.number chain.value) machine := by
  intro reply
  obtain ⟨tree, derived, evaluated⟩ := chain.computes_value
  have term : Grammar.Expression .term tree chain.tokens [] := by
    simpa using derived []
  have whole : Grammar.Expression .assignment tree chain.tokens [] :=
    .tighter (.tighter (.tighter (.tighter (.tighter term))))
  obtain ⟨parsed, reached⟩ := Parser.expression_complete (.ofTokens chain.tokens bodies) whole
    (by simp [Parser.ExpressionEnds, Grammar.Stops])
  exact ⟨tree, parsed, congrArg Cursor.rest reached, evaluated⟩

/-- The chain `8 - 4 / 2 * 3 + 1`. -/
def Arithmetic.mixedChain : Chain where
  first := ⟨⟨.number 8, "8", 1, 1⟩, 8, rfl⟩
  rest := [
    (⟨⟨.symbol .minus, "-", 1, 3⟩, .subtract, rfl⟩, ⟨⟨.number 4, "4", 1, 5⟩, 4, rfl⟩),
    (⟨⟨.symbol .slash, "/", 1, 7⟩, .divide, rfl⟩, ⟨⟨.number 2, "2", 1, 9⟩, 2, rfl⟩),
    (⟨⟨.symbol .star, "*", 1, 11⟩, .multiply, rfl⟩, ⟨⟨.number 3, "3", 1, 13⟩, 3, rfl⟩),
    (⟨⟨.symbol .plus, "+", 1, 15⟩, .add, rfl⟩, ⟨⟨.number 1, "1", 1, 17⟩, 1, rfl⟩)]

theorem mixed_chain_is_computed :
    let reply := Parser.expression (.ofTokens Arithmetic.mixedChain.tokens 0)
    let machine := Machine.start (fun _ => 0) none
    Arithmetic.mixedChain.tokens.length ≤ 9 ∧ ∃ tree, reply.outcome = .ok tree ∧
      evaluate 9 tree machine = .ok (.number (8 - 4 / 2 * 3 + 1)) machine := by
  intro reply machine
  have few : Arithmetic.mixedChain.tokens.length ≤ 9 := by decide
  obtain ⟨tree, parsed, _, evaluated⟩ := arithmetic_follows_precedence Arithmetic.mixedChain 0
  exact ⟨few, tree, parsed, evaluated 9 machine few⟩

end Lox
