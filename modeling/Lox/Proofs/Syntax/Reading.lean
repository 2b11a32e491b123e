import Lox.Proofs.Syntax.Printer

/-!
# Printed trees are read back

A printed tree shows the tree except for the places of its tokens and for the
tokens that no text is made of. Whatever it shows can be read from its node: what
a head means is told by its spelling.
-/

set_option autoImplicit false

namespace Lox

/-! ## What is shown -/

/-- A token without its place. -/
def Token.shown (token : Token) : Token := { token with line := 0, column := 0 }

/-- Stands for a token that is not shown. -/
def Token.hidden : Token := .ending 0

mutual

/-- An expression without what its text leaves out. -/
def Expr.shown : Expr → Expr
  | .literal value => .literal value
  | .variable name => .variable name.shown
  | .assign (some name) value => .assign (some name.shown) value.shown
  | .assign none value => .assign none value.shown
  | .unary (some operator) operand => .unary (some operator.shown) operand.shown
  | .unary none operand => .unary none operand.shown
  | .binary left operator right => .binary left.shown operator.shown right.shown
  | .logical left operator right => .logical left.shown operator.shown right.shown
  | .call callee _ arguments => .call callee.shown .hidden (Expr.shownList arguments)
  | .grouping inner => .grouping inner.shown

def Expr.shownList : List Expr → List Expr
  | [] => []
  | expr :: rest => expr.shown :: Expr.shownList rest

end

mutual

/-- A statement without what its text leaves out. -/
def Stmt.shown : Stmt → Stmt
  | .expression value => .expression value.shown
  | .print value => .print value.shown
  | .variable name initializer => .variable name.shown (initializer.map Expr.shown)
  | .block statements => .block (Stmt.shownList statements)
  | .branch _ condition thenBranch elseBranch =>
      .branch .hidden condition.shown thenBranch.shown (Stmt.shownOption elseBranch)
  | .loop _ condition body => .loop .hidden condition.shown body.shown
  | .function name parameters body =>
      .function name.shown (parameters.map Token.shown) (Stmt.shownList body)
  | .returning _ value => .returning .hidden (value.map Expr.shown)

def Stmt.shownList : List Stmt → List Stmt
  | [] => []
  | stmt :: rest => stmt.shown :: Stmt.shownList rest

def Stmt.shownOption : Option Stmt → Option Stmt
  | none => none
  | some stmt => some stmt.shown

end

/-! ## Reading expressions -/

/-- The token that a text is by itself. -/
def Token.ofText? (text : List Char) : Option Token :=
  (TokenKind.ofSpelling? text).map (⟨·, String.ofList text, 0, 0⟩)

def Token.ofAtom? : Node → Option Token
  | .atom text => Token.ofText? text
  | .group _ => none

/-- The expression with a head and given parts. -/
def Expr.ofParts (head : Token) (parts : List Expr) : Option Expr :=
  match head.kind, parts with
  -- A head that could be a name is one of the two headings of expressions.
  | .name, callee :: arguments =>
      if head.lexeme.toList = Heading.call.spelling then some (.call callee .hidden arguments)
      else some (.grouping callee)
  | .symbol .equal, [.variable name, value] => some (.assign (some name) value)
  | .keyword _, [left, right] => some (.logical left head right)
  | _, [left, right] => some (.binary left head right)
  | _, [operand] => some (.unary (some head) operand)
  | _, _ => none

mutual

/-- What the node of an expression shows. -/
def Expr.ofNode : Node → Option Expr
  | .atom text => do
      let token ← Token.ofText? text
      if token.kind = .name then return .variable token else return .literal (← token.literal?)
  | .group (.atom head :: parts) => do
      Expr.ofParts (← Token.ofText? head) (← Expr.ofNodes parts)
  | _ => none

def Expr.ofNodes : List Node → Option (List Expr)
  | [] => some []
  | node :: rest => do return (← Expr.ofNode node) :: (← Expr.ofNodes rest)

end

mutual

/-- What the node of a statement shows. -/
def Stmt.ofNode : Node → Option Stmt
  | .group (.atom head :: parts) =>
      match TokenKind.ofSpelling? head, parts with
      | some (.symbol .semicolon), [value] => do return .expression (← Expr.ofNode value)
      | some (.keyword .printWord), [value] => do return .print (← Expr.ofNode value)
      | some (.keyword .varWord), [name] => do return .variable (← Token.ofAtom? name) none
      | some (.keyword .varWord), [name, value] => do
          return .variable (← Token.ofAtom? name) (some (← Expr.ofNode value))
      | some .name, statements => do return .block (← Stmt.ofNodes statements)
      | some (.keyword .ifWord), condition :: branches => do
          match ← Stmt.ofNodes branches with
          | [thenBranch] => return .branch .hidden (← Expr.ofNode condition) thenBranch none
          | [thenBranch, elseBranch] =>
              return .branch .hidden (← Expr.ofNode condition) thenBranch (some elseBranch)
          | _ => none
      | some (.keyword .whileWord), [condition, body] => do
          return .loop .hidden (← Expr.ofNode condition) (← Stmt.ofNode body)
      | some (.keyword .funWord), name :: .group parameters :: body => do
          let names ← parameters.mapM Token.ofAtom?
          return .function (← Token.ofAtom? name) names (← Stmt.ofNodes body)
      | some (.keyword .returnWord), [] => some (.returning .hidden none)
      | some (.keyword .returnWord), [value] => do
          return .returning .hidden (some (← Expr.ofNode value))
      | _, _ => none
  | _ => none

def Stmt.ofNodes : List Node → Option (List Stmt)
  | [] => some []
  | node :: rest => do return (← Stmt.ofNode node) :: (← Stmt.ofNodes rest)

end

theorem TokenKind.Spells.ofText? {kind : TokenKind} {text : List Char} (spells : kind.Spells text) :
    Token.ofText? text = some ⟨kind, String.ofList text, 0, 0⟩ := by
  rw [Token.ofText?, TokenKind.ofSpelling?_eq_some_iff.mpr spells, Option.map_some]

theorem Token.Printable.ofText? {token : Token} (printable : token.Printable) :
    Token.ofText? token.lexeme.toList = some token.shown := by
  rw [printable.spells.ofText?, String.ofList_toList, Token.shown]

theorem Expr.ofNode_group {head : List Char} {token : Token} {parts : List Node}
    {exprs : List Expr} (read : Token.ofText? head = some token)
    (readParts : ofNodes parts = some exprs) :
    ofNode (.group (.atom head :: parts)) = ofParts token exprs := by
  rw [ofNode, read, readParts]
  rfl

theorem Expr.ofNodes_cons {node : Node} {rest : List Node} {expr : Expr} {exprs : List Expr}
    (first : ofNode node = some expr) (others : ofNodes rest = some exprs) :
    ofNodes (node :: rest) = some (expr :: exprs) := by
  rw [ofNodes, first, others]
  rfl

theorem Expr.ofNodes_nodes {exprs : List Expr}
    (each : ∀ expr ∈ exprs, ofNode expr.node = some expr.shown) :
    ofNodes (nodes exprs) = some (shownList exprs) := by
  induction exprs with
  | nil => rfl
  | cons expr rest ih =>
      obtain ⟨first, others⟩ := List.forall_mem_cons.mp each
      exact ofNodes_cons first (ih others)

theorem Expr.ofParts_unary {operator : Token} (kind : operator.kind ∈ TokenKind.unaryOperators)
    (operand : Expr) : ofParts operator.shown [operand] = some (.unary (some operator.shown) operand) := by
  simp only [TokenKind.unaryOperators, List.mem_cons, List.not_mem_nil, or_false] at kind
  obtain kind | kind := kind <;> simp [ofParts, Token.shown, kind]

theorem Expr.ofParts_binary {operator : Token} (kind : operator.kind ∈ TokenKind.binaryOperators)
    (left right : Expr) :
    ofParts operator.shown [left, right] = some (.binary left operator.shown right) := by
  simp only [TokenKind.binaryOperators, List.mem_cons, List.not_mem_nil, or_false] at kind
  obtain kind | kind | kind | kind | kind | kind | kind | kind | kind | kind := kind <;>
    simp [ofParts, Token.shown, kind]

theorem Expr.ofParts_logical {operator : Token} (kind : operator.kind ∈ TokenKind.logicalOperators)
    (left right : Expr) :
    ofParts operator.shown [left, right] = some (.logical left operator.shown right) := by
  simp only [TokenKind.logicalOperators, List.mem_cons, List.not_mem_nil, or_false] at kind
  obtain kind | kind := kind <;> simp [ofParts, Token.shown, kind]

theorem Token.Printable.ofNode_name {name : Token} (printable : name.Printable)
    (kind : name.kind = .name) : Expr.ofNode name.atom = some (.variable name.shown) := by
  have shownKind : name.shown.kind = .name := kind
  rw [Token.atom, Expr.ofNode, printable.ofText?]
  simp [shownKind]

theorem Literal.Denoted.ofNode {value : Literal} (denoted : value.Denoted Token.Printable) :
    Expr.ofNode (.atom value.text.toList) = some (.literal value) := by
  obtain ⟨kind, spells, denotes⟩ := denoted.spelled
  have notName : kind ≠ .name := by
    rintro rfl
    cases denotes
  rw [Expr.ofNode, spells.ofText?]
  simp [notName, Token.literal?, denotes]

/-- What an expression shows is read from its node. -/
theorem Expr.Parsed.ofNode {expr : Expr} (parsed : expr.Parsed Token.Printable) :
    ofNode expr.node = some expr.shown := by
  induction parsed with
  | literal denoted => exact denoted.ofNode
  | «variable» printable kind => exact printable.ofNode_name kind
  | assign printable kind _ value =>
      rw [Expr.node, ofNode_group (TokenKind.Spells.symbol .equal).ofText?
        (ofNodes_cons (printable.ofNode_name kind) (ofNodes_cons value rfl))]
      rfl
  | unary kind printable _ operand =>
      rw [Expr.node, Token.atom, ofNode_group printable.ofText? (ofNodes_cons operand rfl)]
      exact ofParts_unary kind _
  | binary kind printable _ _ left right =>
      rw [Expr.node, Token.atom,
        ofNode_group printable.ofText? (ofNodes_cons left (ofNodes_cons right rfl))]
      exact ofParts_binary kind _ _
  | logical kind printable _ _ left right =>
      rw [Expr.node, Token.atom,
        ofNode_group printable.ofText? (ofNodes_cons left (ofNodes_cons right rfl))]
      exact ofParts_logical kind _ _
  | call _ _ _ callee arguments =>
      rw [Expr.node, ofNode_group Heading.call.spells.ofText?
        (ofNodes_cons callee (ofNodes_nodes arguments))]
      simp [ofParts, Expr.shown]
  | grouping _ inner =>
      rw [Expr.node, ofNode_group Heading.group.spells.ofText? (ofNodes_cons inner rfl)]
      simp [ofParts, Heading.spelling, Expr.shown]

/-! ## Reading statements -/

theorem Stmt.ofNodes_nodes {stmts : List Stmt}
    (each : ∀ stmt ∈ stmts, ofNode stmt.node = some stmt.shown) :
    ofNodes (nodes stmts) = some (shownList stmts) := by
  induction stmts with
  | nil => rfl
  | cons stmt rest ih =>
      obtain ⟨first, others⟩ := List.forall_mem_cons.mp each
      rw [nodes, ofNodes, first, ih others]
      rfl

theorem Token.mapM_ofAtom? {names : List Token} (printable : ∀ name ∈ names, name.Printable) :
    (names.map Token.atom).mapM Token.ofAtom? = some (names.map Token.shown) := by
  induction names with
  | nil => rfl
  | cons name rest ih =>
      obtain ⟨first, others⟩ := List.forall_mem_cons.mp printable
      have read : Token.ofAtom? name.atom = some name.shown := first.ofText?
      simp [read, ih others]

/-- What a statement shows is read from its node. -/
theorem Stmt.Parsed.ofNode {inBody : Bool} {stmt : Stmt}
    (parsed : stmt.Parsed Token.Printable inBody) : ofNode stmt.node = some stmt.shown := by
  have told (keyword : Keyword) : TokenKind.ofSpelling? keyword.spelling = some (.keyword keyword) :=
    TokenKind.ofSpelling?_eq_some_iff.mpr (.keyword keyword)
  induction parsed with
  | expression value =>
      have told : TokenKind.ofSpelling? Symbol.semicolon.spelling = some (.symbol .semicolon) :=
        TokenKind.ofSpelling?_eq_some_iff.mpr (.symbol .semicolon)
      simp [Stmt.node, Stmt.ofNode, told, value.ofNode, Stmt.shown]
  | print value => simp [Stmt.node, Stmt.ofNode, told, value.ofNode, Stmt.shown]
  | @«variable» _ name initializer printable kind value =>
      have read : Token.ofAtom? name.atom = some name.shown := printable.ofText?
      cases initializer with
      | none => simp [Stmt.node, Stmt.ofNode, told, read, Stmt.shown]
      | some initializer =>
          have readValue := (value initializer rfl).ofNode
          simp [Stmt.node, Stmt.ofNode, told, read, readValue, Stmt.shown]
  | block _ statements =>
      have told : TokenKind.ofSpelling? Heading.block.spelling = some .name :=
        TokenKind.ofSpelling?_eq_some_iff.mpr Heading.block.spells
      simp [Stmt.node, Stmt.ofNode, told, Stmt.ofNodes_nodes statements, Stmt.shown]
  | @branch _ _ _ _ elseBranch _ condition _ _ thenBranch readElse =>
      cases elseBranch with
      | none =>
          simp [Stmt.node, Stmt.ofNode, Stmt.ofNodes, told, condition.ofNode, thenBranch,
            Stmt.shown, Stmt.shownOption]
      | some elseBranch =>
          simp [Stmt.node, Stmt.ofNode, Stmt.ofNodes, told, condition.ofNode, thenBranch,
            readElse elseBranch rfl, Stmt.shown, Stmt.shownOption]
  | loop _ condition _ body =>
      simp [Stmt.node, Stmt.ofNode, told, condition.ofNode, body, Stmt.shown]
  | @function _ name parameters _ printable kind names _ body =>
      have read : Token.ofAtom? name.atom = some name.shown := printable.ofText?
      have readNames := Token.mapM_ofAtom? fun name member => (names name member).1
      simp [Stmt.node, Stmt.ofNode, told, read, readNames, Stmt.ofNodes_nodes body, Stmt.shown]
  | @returning _ value result =>
      cases value with
      | none => simp [Stmt.node, Stmt.ofNode, told, Stmt.shown]
      | some value => simp [Stmt.node, Stmt.ofNode, told, (result value rfl).ofNode, Stmt.shown]

/-! ## Texts tell what they show -/

mutual

/-- The text of an expression is that of what it shows. -/
theorem Expr.text_shown : ∀ expr : Expr, expr.shown.text = expr.text
  | .literal value => rfl
  | .variable name => rfl
  | .assign (some name) value => by simp [shown, text, text_shown value, Token.shown]
  | .assign none value => by simp [shown, text, text_shown value]
  | .unary (some operator) operand => by simp [shown, text, text_shown operand, Token.shown]
  | .unary none operand => by simp [shown, text, text_shown operand]
  | .binary left operator right => by
      simp [shown, text, text_shown left, text_shown right, Token.shown]
  | .logical left operator right => by
      simp [shown, text, text_shown left, text_shown right, Token.shown]
  | .call callee _ arguments => by
      simp [shown, text, text_shown callee, texts_shownList arguments]
  | .grouping inner => by simp [shown, text, text_shown inner]

theorem Expr.texts_shownList : ∀ exprs : List Expr, texts (shownList exprs) = texts exprs
  | [] => rfl
  | expr :: rest => by simp [shownList, texts, text_shown expr, texts_shownList rest]

end

mutual

/-- The text of a statement is that of what it shows. -/
theorem Stmt.text_shown : ∀ stmt : Stmt, stmt.shown.text = stmt.text
  | .expression value => by simp [shown, text, value.text_shown]
  | .print value => by simp [shown, text, value.text_shown]
  | .variable name none => by simp [shown, text, Token.shown]
  | .variable name (some value) => by simp [shown, text, value.text_shown, Token.shown]
  | .block statements => by simp [shown, text, texts_shownList statements]
  | .branch _ condition thenBranch none => by
      simp [shown, shownOption, text, condition.text_shown, text_shown thenBranch]
  | .branch _ condition thenBranch (some elseBranch) => by
      simp [shown, shownOption, text, condition.text_shown, text_shown thenBranch,
        text_shown elseBranch]
  | .loop _ condition body => by simp [shown, text, condition.text_shown, text_shown body]
  | .function name parameters body => by
      simp [shown, text, texts_shownList body, Token.shown, Function.comp_def]
  | .returning _ none => by simp [shown, text]
  | .returning _ (some value) => by simp [shown, text, value.text_shown]

theorem Stmt.texts_shownList : ∀ stmts : List Stmt, texts (shownList stmts) = texts stmts
  | [] => rfl
  | stmt :: rest => by simp [shownList, texts, text_shown stmt, texts_shownList rest]

end

/-- Statements with the same text show the same. -/
theorem Stmt.Parsed.text_eq_iff {inBody inBody' : Bool} {left right : Stmt}
    (parsed : left.Parsed Token.Printable inBody) (parsed' : right.Parsed Token.Printable inBody') :
    left.text = right.text ↔ left.shown = right.shown := by
  constructor
  · intro same
    have sameNode : left.node = right.node := by
      refine Node.eq_of_text parsed.plain parsed'.plain ?_
      rw [← left.text_eq_node, ← right.text_eq_node, same]
    have read := parsed.ofNode
    rw [sameNode, parsed'.ofNode] at read
    exact (Option.some.inj read).symm
  · intro same
    rw [← left.text_shown, ← right.text_shown, same]

theorem Stmt.texts_eq_iff {inBody inBody' : Bool} {left right : List Stmt}
    (parsed : ∀ stmt ∈ left, stmt.Parsed Token.Printable inBody)
    (parsed' : ∀ stmt ∈ right, stmt.Parsed Token.Printable inBody') :
    left.map text = right.map text ↔ left.map shown = right.map shown := by
  induction left generalizing right with
  | nil => simp
  | cons stmt rest ih =>
      cases right with
      | nil => simp
      | cons stmt' rest' =>
          obtain ⟨first, later⟩ := List.forall_mem_cons.mp parsed
          obtain ⟨first', later'⟩ := List.forall_mem_cons.mp parsed'
          simp only [List.map_cons, List.cons.injEq, first.text_eq_iff first', ih later later']

end Lox
