import Lox.Proofs.Evaluation.Following

/-!
# Alike programs end alike

Alike trees, evaluated on alike machines, end alike: so no evaluation can tell
where its tokens stand, nor which numbers its scopes have. A machine in a
pocket executes alike as well what declares nothing there.
-/

set_option autoImplicit false

namespace Lox

variable {like : Token → Token → Prop} {aligned : Prop} {settled : Bool} {start : Placement}

namespace Action

/-! ## Calls -/

section Calls

variable (written : Token.WrittenAlike like) {execute : Stmt → Action Completion}
  (follows : ∀ stmt stmt', stmt.Alike like stmt' → ∀ start,
    Follows like aligned true start (Placement.Completions like) (execute stmt) (execute stmt'))

include written follows

theorem follows_callClosure {closure closure' : Closure} {arguments arguments' : List Value}
    (closures : closure.Alike like start.stands closure')
    (alike : List.Forall₂ (Value.Alike like start.stands) arguments arguments') :
    Follows like aligned settled start (Placement.Values like)
      (callClosure execute closure arguments) (callClosure execute closure' arguments') := by
  apply follows_bind (follows_note _ _)
  intro placement extended _ _ _
  have bindings := Bindings.Alike.ofArguments written closures.parameters alike
  have body := follows_sequence closures.body follows placement
  apply follows_bind (follows_within (.inl (extended.stands _ _ closures.scope))
    (bindings.mono extended.stands) body)
  intro _ _ completion completion' completions
  exact follows_pure fun _ further => completions.value.mono further.stands

theorem follows_call {paren paren' : Token} (likely : like paren paren')
    {arguments arguments' : List Value} {callee callee' : Value}
    (alike : List.Forall₂ (Value.Alike like start.stands) arguments arguments')
    (callees : callee.Alike like start.stands callee') :
    Follows like aligned settled start (Placement.Values like)
      (call execute paren arguments callee) (call execute paren' arguments' callee') := by
  have failing : ∀ fault, Follows like aligned settled start (Placement.Values like)
      (Action.fault fault paren) (Action.fault fault paren') :=
    fun fault => follows_throw (.runtime likely)
  cases callees with
  | nil | bool | number | string => exact failing .notCallable
  | function closures =>
      simp only [call, ← alike.length_eq, ← closures.parameters.length_eq]
      split
      · exact follows_callClosure written follows closures alike
      · exact failing _
  | @builtin function =>
      simp only [call, ← alike.length_eq]
      split
      · cases function with
        | clock => exact follows_readClock
      · exact failing _

end Calls

/-! ## Evaluation -/

section Evaluation

variable (written : Token.WrittenAlike like) {depth : Nat}
  (expressions : ∀ settled {expr expr' : Expr}, expr.Alike like expr' → ∀ start,
    Follows like aligned settled start (Placement.Values like) (evaluate depth expr)
      (evaluate depth expr'))
  (statements : ∀ settled {stmt stmt' : Stmt}, stmt.Alike like stmt' →
    (settled = false → stmt.DeclaresNothing) → ∀ start,
      Follows like aligned settled start (Placement.Completions like) (execute depth stmt)
        (execute depth stmt'))

include expressions

theorem follows_condition {keyword keyword' : Token} {condition condition' : Expr}
    (likely : like keyword keyword') (alike : condition.Alike like condition') (start : Placement) :
    Follows like aligned settled start (fun _ => Eq)
      (do ofExcept (Operator.condition keyword (← evaluate depth condition)))
      (do ofExcept (Operator.condition keyword' (← evaluate depth condition'))) := by
  apply follows_bind (expressions settled alike start)
  intro placement _ value value' values
  exact follows_truth (Operator.condition_alike likely values)

include written statements

theorem follows_expression {expr expr' : Expr} (alike : expr.Alike like expr')
    (start : Placement) :
    Follows like aligned settled start (Placement.Values like) (evaluate (depth + 1) expr)
      (evaluate (depth + 1) expr') := by
  cases alike with
  | literal => exact follows_pure fun _ _ => .ofLiteral _
  | «variable» likely => exact follows_read written likely
  | grouping alike => exact expressions settled alike start
  | assign likely alike =>
      apply follows_bind (expressions settled alike start)
      intro placement _ value value' values
      cases likely with
      | none => exact follows_pure fun _ further => values.mono further.stands
      | some likely =>
          apply follows_bind (follows_assign written likely values)
          intro later extended _ _ _
          exact follows_pure fun _ further => values.mono (extended.trans further).stands
  | unary likely alike =>
      apply follows_bind (expressions settled alike start)
      intro placement _ value value' values
      cases likely with
      | none => exact follows_pure fun _ further => values.mono further.stands
      | some likely =>
          exact follows_value (Operator.unary_alike written likely values)
  | binary alikeLeft likely alikeRight =>
      apply follows_bind (expressions settled alikeLeft start)
      intro placement _ left left' lefts
      apply follows_bind (expressions settled alikeRight placement)
      -- Whether functions are equal depends on the machines: in these no two scopes have one place.
      intro later extended right right' rights last further machine machine' machines
      have outcomes := Operator.binary_alike written likely
        (lefts.mono (extended.trans further).stands) (rights.mono further.stands)
        machines.heap.matched
      exact follows_value outcomes last (.refl last) machine machine' machines
  | @logical _ _ operator operator' _ _ alikeLeft likely alikeRight =>
      apply follows_bind (expressions settled alikeLeft start)
      intro placement _ left left' lefts
      apply follows_bind (follows_truth (Operator.truth_alike likely lefts))
      rintro later extended truth _ rfl
      simp only [(written _ _ likely).1, (written _ _ likely).2]
      split
      · exact follows_throw .internal
      · split
        · exact follows_pure fun _ _ => .bool
        · apply follows_bind (expressions settled alikeRight later)
          intro last further right right' rights
          apply follows_bind (follows_truth (Operator.truth_alike likely rights))
          rintro _ _ truth _ rfl
          exact follows_pure fun _ _ => .bool
  | call alikeCallee likely alikeArguments =>
      apply follows_bind (expressions settled alikeCallee start)
      intro placement _ callee callee' callees
      apply follows_bind
        (follows_mapM alikeArguments (fun _ _ alike => expressions settled alike) placement)
      intro later extended arguments arguments' alike
      exact follows_call written (fun _ _ alike => statements true alike (by simp)) likely alike
        (callees.mono extended.stands)

theorem follows_statement {stmt stmt' : Stmt} (alike : stmt.Alike like stmt')
    (declares : settled = false → stmt.DeclaresNothing) (start : Placement) :
    Follows like aligned settled start (Placement.Completions like) (execute (depth + 1) stmt)
      (execute (depth + 1) stmt') := by
  cases alike with
  | expression alike =>
      apply follows_bind (expressions settled alike start)
      intro _ _ _ _ _
      exact follows_pure fun _ _ => .normal
  | print alike =>
      apply follows_bind (expressions settled alike start)
      intro placement _ value value' values
      rw [values.text written]
      apply follows_bind (follows_writeLine _)
      intro _ _ _ _ _
      exact follows_pure fun _ _ => .normal
  | «variable» likely alike =>
      obtain rfl : settled = true := Bool.of_not_eq_false fun pocket => nomatch declares pocket
      have defined : ∀ placement value value', Value.Alike like placement.stands value value' →
          Follows like aligned true placement (Placement.Completions like)
            (do define _ value; return .normal) (do define _ value'; return .normal) :=
        fun placement value value' values =>
          follows_bind (follows_define written likely values) fun _ _ _ _ _ =>
            follows_pure fun _ _ => .normal
      cases alike with
      | none => exact defined start .nil .nil .nil
      | some alike =>
          exact follows_bind (expressions true alike start) fun placement _ => defined placement
  | block alike =>
      intro placement extended machine machine' machines
      have inner := follows_sequence alike (fun _ _ alike => statements true alike (by simp))
        placement
      exact follows_within machines.current .nil inner placement (.refl placement) machine machine'
        machines
  | branch likely alikeCondition alikeThen alikeElse =>
      have declaresThen : settled = false → Stmt.DeclaresNothing _ := fun pocket => by
        cases declares pocket with
        | branch thenBranch _ => exact thenBranch
      have declaresElse : settled = false → ∀ stmt ∈ _, Stmt.DeclaresNothing stmt :=
        fun pocket => by
          cases declares pocket with
          | branch _ elseBranch => exact elseBranch
      apply follows_bind (expressions settled alikeCondition start)
      intro placement _ value value' values
      apply follows_bind (follows_truth (Operator.condition_alike likely values))
      rintro later _ holds _ rfl
      cases holds with
      | true => exact statements settled alikeThen declaresThen later
      | false =>
          cases alikeElse with
          | none => exact follows_pure fun _ _ => .normal
          | some alikeElse =>
              exact statements settled alikeElse (fun pocket => declaresElse pocket _ rfl) later
  | loop likely alikeCondition alikeBody =>
      have declaresBody : settled = false → Stmt.DeclaresNothing _ := fun pocket => by
        cases declares pocket with
        | loop body => exact body
      exact follows_loop (follows_condition expressions likely alikeCondition)
        (statements settled alikeBody declaresBody) depth start
  | function likely alikeParameters alikeBody =>
      obtain rfl : settled = true := Bool.of_not_eq_false fun pocket => nomatch declares pocket
      apply follows_bind (follows_makeFunction likely alikeParameters alikeBody)
      intro placement _ function function' functions
      apply follows_bind (follows_define written likely functions)
      intro _ _ _ _ _
      exact follows_pure fun _ _ => .normal
  | returning likely alike =>
      cases alike with
      | none => exact follows_pure fun _ _ => .returned .nil
      | some alike =>
          apply follows_bind (expressions settled alike start)
          intro placement _ value value' values
          exact follows_pure fun _ further => .returned (values.mono further.stands)

end Evaluation

end Action

open Lox.Action

/-- Alike expressions and statements end alike on alike machines. -/
theorem evaluation_follows (written : Token.WrittenAlike like) (depth : Nat) :
    (∀ settled {expr expr' : Expr}, expr.Alike like expr' → ∀ start,
      Follows like aligned settled start (Placement.Values like) (evaluate depth expr)
        (evaluate depth expr')) ∧
      ∀ settled {stmt stmt' : Stmt}, stmt.Alike like stmt' →
        (settled = false → stmt.DeclaresNothing) → ∀ start,
          Follows like aligned settled start (Placement.Completions like) (execute depth stmt)
            (execute depth stmt') := by
  induction depth with
  | zero =>
      exact ⟨fun _ _ _ _ _ => follows_throw .tooDeep, fun _ _ _ _ _ _ => follows_throw .tooDeep⟩
  | succ depth ih =>
      exact ⟨fun _ _ _ => follows_expression written ih.1 ih.2,
        fun _ _ _ => follows_statement written ih.1 ih.2⟩

/-- Alike programs end with alike faults or with none, on machines that are alike again. -/
theorem executeProgram_follows (written : Token.WrittenAlike like) (depth : Nat)
    {statements statements' : List Stmt}
    (alike : List.Forall₂ (Stmt.Alike like) statements statements') :
    ∀ {placement : Placement} {machine machine' : Machine},
      Machine.Alike like aligned true placement machine machine' →
        ∃ later, placement.Extends later ∧
          Option.Rel (Fault.Alike like) (executeProgram depth statements machine).1
            (executeProgram depth statements' machine').1 ∧
          Machine.Alike like aligned true later (executeProgram depth statements machine).2
            (executeProgram depth statements' machine').2 := by
  induction alike with
  | nil => exact fun machines => ⟨_, .refl _, .none, machines⟩
  | cons first _ ih =>
      intro placement machine machine' machines
      have ends := (evaluation_follows written depth).2 true first (by simp) placement placement
        (.refl placement) machine machine' machines
      simp only [executeProgram]
      revert ends
      generalize execute depth _ machine = ending
      generalize execute depth _ machine' = ending'
      rintro (⟨extended, _ | value, machines⟩ | ⟨extended, fault, machines⟩)
      · obtain ⟨later, further, faults, machines⟩ := ih machines
        exact ⟨later, extended.trans further, faults, machines⟩
      · exact ⟨_, extended, .some .internal, machines⟩
      · exact ⟨_, extended, .some fault, { machines with }⟩

end Lox
