import Lox.Proofs.Number.Text
import Lox.Proofs.Syntax.Node
import Lox.Proofs.Syntax.Parsed
import Lox.Syntax.Printer

/-!
# Printed trees as nodes

A printed tree is the text of a node: a group of its head and its parts. If the
tree is made of tokens that are spelled as what they are, none of them a string or
an infinite number, then no atom in it could be taken for anything else.
-/

set_option autoImplicit false

namespace Lox

/-! ## Nodes of trees -/

/-- The heads that are no words or symbols of the language. -/
inductive Heading where
  | call | group | block

def Heading.spelling : Heading → List Char
  | call => ['c', 'a', 'l', 'l']
  | group => ['g', 'r', 'o', 'u', 'p']
  | block => ['b', 'l', 'o', 'c', 'k']

def Token.atom (token : Token) : Node := .atom token.lexeme.toList

mutual

def Expr.node : Expr → Node
  | .literal value => .atom value.text.toList
  | .variable name => name.atom
  | .assign (some name) value => .group [.atom Symbol.equal.spelling, name.atom, value.node]
  | .assign none value => value.node
  | .unary (some operator) operand => .group [operator.atom, operand.node]
  | .unary none operand => operand.node
  | .binary left operator right => .group [operator.atom, left.node, right.node]
  | .logical left operator right => .group [operator.atom, left.node, right.node]
  | .call callee _ arguments =>
      .group (.atom Heading.call.spelling :: callee.node :: Expr.nodes arguments)
  | .grouping inner => .group [.atom Heading.group.spelling, inner.node]

def Expr.nodes : List Expr → List Node
  | [] => []
  | expr :: rest => expr.node :: Expr.nodes rest

end

mutual

def Stmt.node : Stmt → Node
  | .expression value => .group [.atom Symbol.semicolon.spelling, value.node]
  | .print value => .group [.atom Keyword.printWord.spelling, value.node]
  | .variable name none => .group [.atom Keyword.varWord.spelling, name.atom]
  | .variable name (some value) =>
      .group [.atom Keyword.varWord.spelling, name.atom, value.node]
  | .block statements => .group (.atom Heading.block.spelling :: Stmt.nodes statements)
  | .branch _ condition thenBranch none =>
      .group [.atom Keyword.ifWord.spelling, condition.node, thenBranch.node]
  | .branch _ condition thenBranch (some elseBranch) =>
      .group [.atom Keyword.ifWord.spelling, condition.node, thenBranch.node, elseBranch.node]
  | .loop _ condition body =>
      .group [.atom Keyword.whileWord.spelling, condition.node, body.node]
  | .function name parameters body =>
      .group (.atom Keyword.funWord.spelling :: name.atom ::
        .group (parameters.map Token.atom) :: Stmt.nodes body)
  | .returning _ none => .group [.atom Keyword.returnWord.spelling]
  | .returning _ (some value) => .group [.atom Keyword.returnWord.spelling, value.node]

def Stmt.nodes : List Stmt → List Node
  | [] => []
  | stmt :: rest => stmt.node :: Stmt.nodes rest

end

/-! ## The text of the node -/

theorem intercalate_space (first : List Char) (rest : List (List Char)) :
    [' '].intercalate (first :: rest) = first ++ rest.flatMap (' ' :: ·) := by
  induction rest generalizing first with
  | nil => simp
  | cons second rest ih =>
      rw [List.intercalate_cons_cons, ih]
      simp

theorem Node.trail_eq_flatMap (parts : List Node) :
    Node.trail parts = (parts.map Node.text).flatMap (' ' :: ·) := by
  induction parts with
  | nil => rfl
  | cons part rest ih => rw [Node.trail, ih, List.map_cons, List.flatMap_cons, List.cons_append]

theorem Node.text_group (parts : List Node) :
    (Node.group parts).text = '(' :: ([' '].intercalate (parts.map Node.text) ++ [')']) := by
  cases parts with
  | nil => rfl
  | cons first rest =>
      rw [Node.text, List.map_cons, intercalate_space, Node.trail_eq_flatMap]

/-- A head, which may show some parts itself, and the other parts are shown as
the group of them all. -/
theorem parenthesized_eq_group {head : String} {first : List Char} {named : List Node}
    {parts : List String} {nodes : List Node} (heads : head.toList = first ++ Node.trail named)
    (same : parts.map String.toList = nodes.map Node.text) :
    (parenthesized head parts).toList = (Node.group (.atom first :: (named ++ nodes))).text := by
  have inside : [' '].intercalate (head.toList :: parts.map String.toList) =
      [' '].intercalate ((Node.atom first :: (named ++ nodes)).map Node.text) := by
    rw [intercalate_space, heads, same, List.map_cons, intercalate_space, Node.text, List.map_append,
      List.flatMap_append, Node.trail_eq_flatMap, List.append_assoc]
  rw [Node.text_group, ← inside]
  simp [parenthesized, String.toList_append, String.toList_intercalate]

/-- A head that shows no part itself. -/
theorem parenthesized_eq_node {head : String} {parts : List String} {nodes : List Node}
    (same : parts.map String.toList = nodes.map Node.text) :
    (parenthesized head parts).toList = (Node.group (.atom head.toList :: nodes)).text := by
  have heads : head.toList = head.toList ++ Node.trail [] := (List.append_nil _).symm
  exact parenthesized_eq_group heads same

/-- A word and a name. -/
theorem named_toList (word : String) (name : Token) :
    (word ++ " " ++ name.lexeme).toList = word.toList ++ Node.trail [name.atom] := by
  simp [Node.trail, Token.atom, Node.text]

/-- The word in front of a function, its name, and its parameters. -/
theorem declared_toList (name : Token) (parameters : List Token) :
    ("fun " ++ name.lexeme ++ " (" ++ " ".intercalate (parameters.map Token.lexeme) ++ ")").toList =
      Keyword.funWord.spelling ++ Node.trail [name.atom, .group (parameters.map Token.atom)] := by
  simp [Keyword.spelling, Node.trail, Node.text_group, Node.text, Token.atom, Function.comp_def,
    String.toList_intercalate]

mutual

theorem Expr.text_eq_node : ∀ expr : Expr, expr.text.toList = expr.node.text
  | .literal value => by rw [text, node, Node.text]
  | .variable name => by rw [text, node, Token.atom, Node.text]
  | .assign (some name) value => by
      rw [text, node]
      exact parenthesized_eq_group (named_toList "=" name) (by simp [text_eq_node value])
  | .assign none value => by rw [text, node, text_eq_node value]
  | .unary (some operator) operand => by
      rw [text, node, Token.atom]
      exact parenthesized_eq_node (by simp [text_eq_node operand])
  | .unary none operand => by rw [text, node, text_eq_node operand]
  | .binary left operator right => by
      rw [text, node, Token.atom]
      exact parenthesized_eq_node (by simp [text_eq_node left, text_eq_node right])
  | .logical left operator right => by
      rw [text, node, Token.atom]
      exact parenthesized_eq_node (by simp [text_eq_node left, text_eq_node right])
  | .call callee _ arguments => by
      rw [text, node]
      exact parenthesized_eq_node (by simp [text_eq_node callee, texts_eq_nodes arguments])
  | .grouping inner => by
      rw [text, node]
      exact parenthesized_eq_node (by simp [text_eq_node inner])

theorem Expr.texts_eq_nodes :
    ∀ exprs : List Expr, (texts exprs).map String.toList = (nodes exprs).map Node.text
  | [] => rfl
  | expr :: rest => by
      simp only [texts, nodes, List.map_cons, text_eq_node expr, texts_eq_nodes rest]

end

mutual

theorem Stmt.text_eq_node : ∀ stmt : Stmt, stmt.text.toList = stmt.node.text
  | .expression value => by
      rw [text, node]
      exact parenthesized_eq_node (by simp [value.text_eq_node])
  | .print value => by
      rw [text, node]
      exact parenthesized_eq_node (by simp [value.text_eq_node])
  | .variable name none => by
      rw [text, node]
      exact parenthesized_eq_group (named_toList "var" name) rfl
  | .variable name (some value) => by
      rw [text, node]
      exact parenthesized_eq_group (named_toList "var" name) (by simp [value.text_eq_node])
  | .block statements => by
      rw [text, node]
      exact parenthesized_eq_node (texts_eq_nodes statements)
  | .branch _ condition thenBranch none => by
      rw [text, node]
      exact parenthesized_eq_node (by simp [condition.text_eq_node, text_eq_node thenBranch])
  | .branch _ condition thenBranch (some elseBranch) => by
      rw [text, node]
      exact parenthesized_eq_node
        (by simp [condition.text_eq_node, text_eq_node thenBranch, text_eq_node elseBranch])
  | .loop _ condition body => by
      rw [text, node]
      exact parenthesized_eq_node (by simp [condition.text_eq_node, text_eq_node body])
  | .function name parameters body => by
      rw [text, node]
      exact parenthesized_eq_group (declared_toList name parameters) (texts_eq_nodes body)
  | .returning _ none => by
      rw [text, node]
      exact parenthesized_eq_node rfl
  | .returning _ (some value) => by
      rw [text, node]
      exact parenthesized_eq_node (by simp [value.text_eq_node])

theorem Stmt.texts_eq_nodes :
    ∀ stmts : List Stmt, (texts stmts).map String.toList = (nodes stmts).map Node.text
  | [] => rfl
  | stmt :: rest => by
      simp only [texts, nodes, List.map_cons, text_eq_node stmt, texts_eq_nodes rest]

end

/-! ## Plain atoms -/

/-- The lexeme tells what the token is, and the token is no infinite number. -/
structure Token.Printable (token : Token) : Prop where
  spells : token.kind.Spells token.lexeme.toList
  finite : ∀ value, token.kind = .number value → value.isInf = false

/-- A token's text delimits nothing, if the token is no parenthesis. -/
theorem TokenKind.Spells.plain {kind : TokenKind} {text : List Char} (spells : kind.Spells text)
    (notOpening : kind ≠ .symbol .leftParen) (notClosing : kind ≠ .symbol .rightParen) :
    (Node.atom text).Plain := by
  obtain ⟨first, more, rfl, -⟩ := spells.shape
  refine .atom (List.cons_ne_nil first more) fun char member delimits => ?_
  -- No other symbol has a delimiter in it, and words and numbers have none anyway.
  have apart : ∀ symbol, kind = .symbol symbol → char ∉ symbol.spelling := by
    rintro symbol rfl
    obtain rfl | rfl | rfl := delimits <;> cases symbol <;> first | decide | contradiction
  obtain rfl | rfl | rfl := delimits <;> exact spells.notMem (by decide) (by decide) apart member

/-- A literal is shown as a token that denotes it. -/
theorem Literal.Denoted.spelled {value : Literal} (denoted : value.Denoted Token.Printable) :
    ∃ kind : TokenKind, kind.Spells value.text.toList ∧ kind.literal? = some value := by
  obtain ⟨⟨kind, lexeme, line, column⟩, ⟨spells, finite⟩, denotes⟩ | rfl | rfl := denoted
  · simp only [Token.literal?] at spells finite denotes
    generalize lexeme.toList = written at spells
    have shown : kind.Spells value.text.toList := by
      cases spells with
      | whole digits =>
          obtain rfl := Option.some.inj denotes
          exact Number.text_spells (finite _ rfl)
      | decimal whole fraction =>
          obtain rfl := Option.some.inj denotes
          exact Number.text_spells (finite _ rfl)
      | keyword keyword =>
          cases keyword with
          | falseWord =>
              obtain rfl := Option.some.inj denotes
              exact .keyword .falseWord
          | nilWord =>
              obtain rfl := Option.some.inj denotes
              exact .keyword .nilWord
          | trueWord =>
              obtain rfl := Option.some.inj denotes
              exact .keyword .trueWord
          | _ => cases denotes
      | name | symbol => cases denotes
    exact ⟨kind, shown, denotes⟩
  · exact ⟨.keyword .nilWord, .keyword .nilWord, rfl⟩
  · exact ⟨.keyword .trueWord, .keyword .trueWord, rfl⟩

/-- A literal's text is no parenthesis. -/
theorem Literal.Denoted.plain {value : Literal} (denoted : value.Denoted Token.Printable) :
    (Node.atom value.text.toList).Plain := by
  obtain ⟨kind, spells, denotes⟩ := denoted.spelled
  refine spells.plain ?_ ?_ <;>
  · rintro rfl
    cases denotes

theorem Token.Printable.plain_name {name : Token} (printable : name.Printable)
    (kind : name.kind = .name) : name.atom.Plain :=
  printable.spells.plain (by simp [kind]) (by simp [kind])

theorem Token.Printable.plain_operator {operator : Token} (printable : operator.Printable)
    {operators : List TokenKind} (kind : operator.kind ∈ operators)
    (notOpening : .symbol .leftParen ∉ operators) (notClosing : .symbol .rightParen ∉ operators) :
    operator.atom.Plain :=
  printable.spells.plain (fun opening => notOpening (opening ▸ kind))
    fun closing => notClosing (closing ▸ kind)

theorem Expr.nodes_eq_map (exprs : List Expr) : nodes exprs = exprs.map node := by
  induction exprs with
  | nil => rfl
  | cons expr rest ih => rw [nodes, ih, List.map_cons]

theorem Stmt.nodes_eq_map (stmts : List Stmt) : nodes stmts = stmts.map node := by
  induction stmts with
  | nil => rfl
  | cons stmt rest ih => rw [nodes, ih, List.map_cons]

theorem Keyword.plain (keyword : Keyword) : (Node.atom keyword.spelling).Plain :=
  (TokenKind.Spells.keyword keyword).plain (by simp) (by simp)

theorem Symbol.plain {symbol : Symbol} (notOpening : symbol ≠ .leftParen)
    (notClosing : symbol ≠ .rightParen) : (Node.atom symbol.spelling).Plain :=
  (TokenKind.Spells.symbol symbol).plain (by simpa using notOpening) (by simpa using notClosing)

/-- A heading could be a name. -/
theorem Heading.spells (heading : Heading) : TokenKind.name.Spells heading.spelling :=
  TokenKind.ofSpelling?_eq_some_iff.mp (by cases heading <;> decide +kernel)

theorem Heading.plain (heading : Heading) : (Node.atom heading.spelling).Plain :=
  heading.spells.plain (by simp) (by simp)

theorem Expr.Parsed.plain {expr : Expr} (parsed : expr.Parsed Token.Printable) :
    expr.node.Plain := by
  induction parsed with
  | literal denoted => exact denoted.plain
  | «variable» printable kind => exact printable.plain_name kind
  | assign printable kind _ value =>
      have head : (Node.atom Symbol.equal.spelling).Plain := Symbol.plain (by decide) (by decide)
      exact .group (by simp [head, printable.plain_name kind, value])
  | unary kind printable _ operand =>
      exact .group (by simp [printable.plain_operator kind (by decide) (by decide), operand])
  | binary kind printable _ _ left right =>
      exact .group (by simp [printable.plain_operator kind (by decide) (by decide), left, right])
  | logical kind printable _ _ left right =>
      exact .group (by simp [printable.plain_operator kind (by decide) (by decide), left, right])
  | @call callee paren arguments _ _ _ callee arguments =>
      exact .group (by simpa [Expr.nodes_eq_map, Heading.plain, callee] using arguments)
  | grouping _ inner => exact .group (by simp [Heading.plain, inner])

theorem Stmt.Parsed.plain {inBody : Bool} {stmt : Stmt}
    (parsed : stmt.Parsed Token.Printable inBody) : stmt.node.Plain := by
  induction parsed with
  | expression value =>
      have head : (Node.atom Symbol.semicolon.spelling).Plain :=
        Symbol.plain (by decide) (by decide)
      exact .group (by simp [head, value.plain])
  | print value => exact .group (by simp [Keyword.plain, value.plain])
  | @«variable» _ _ initializer printable kind value =>
      cases initializer with
      | none => exact .group (by simp [Keyword.plain, printable.plain_name kind])
      | some initializer =>
          exact .group
            (by simp [Keyword.plain, printable.plain_name kind, (value initializer rfl).plain])
  | block _ statements =>
      exact .group (by simpa [Stmt.nodes_eq_map, Heading.plain] using statements)
  | @branch _ _ _ _ elseBranch _ condition _ _ thenBranch elsePlain =>
      cases elseBranch with
      | none => exact .group (by simp [Keyword.plain, condition.plain, thenBranch])
      | some elseBranch =>
          exact .group
            (by simp [Keyword.plain, condition.plain, thenBranch, elsePlain elseBranch rfl])
  | loop _ condition _ body => exact .group (by simp [Keyword.plain, condition.plain, body])
  | @function _ _ parameters _ printable kind names _ body =>
      have plainNames : (Node.group (parameters.map Token.atom)).Plain :=
        .group (List.forall_mem_map.mpr fun name member =>
          (names name member).1.plain_name (names name member).2)
      exact .group (by simpa [Stmt.nodes_eq_map, Keyword.plain, printable.plain_name kind,
        plainNames] using body)
  | @returning _ value result =>
      cases value with
      | none => exact .group (by simp [Keyword.plain])
      | some value => exact .group (by simp [Keyword.plain, (result value rfl).plain])

end Lox
