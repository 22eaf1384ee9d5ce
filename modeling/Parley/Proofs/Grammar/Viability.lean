import Parley.Proofs.Grammar.Completeness
import Parley.Proofs.Grammar.Soundness

/-! Whatever was read can be completed. Wherever the reader is, closing the open constructs one after
another leads to a place where the text may end. So a terminal is taken exactly where some sentence goes
on with it. -/

namespace Parley.Grammar

/-- The text may end here. -/
def Accepts : StartRule → State → Prop
  | .program, s => ∃ body, s.program? = some body
  | .expression, s => ∃ tree, s.expression? = some tree

/-- A text of each class of tokens. The name is no keyword. -/
def Kind.sample : Kind → String
  | .integer => "0"
  | .string => "\"\""
  | .symbol => "#a"
  | .slot => "@a"
  | .name => "a"
  | .operator => "+"
  | .equals => "="
  | .walrus => ":="
  | .colon => ":"
  | .comma => ","
  | .semicolon => ";"
  | .openParen => "("
  | .closeParen => ")"
  | .openBracket => "["
  | .closeBracket => "]"
  | .openBrace => "\x7b"
  | .closeBrace => "\x7d"
  | .bar => "|"

/-- A terminal of a class. -/
def Kind.terminal (kind : Kind) : Terminal := ⟨⟨kind, kind.sample, ⟨.first, .first⟩⟩, false⟩

theorem Kind.is_terminal (kind : Kind) : kind.terminal.Is kind := ⟨rfl, rfl⟩

/-- Terminals of some classes lead to where the text may end. -/
def Viable (root : StartRule) (s : State) : Prop :=
  ∃ (kinds : List Kind) (s' : State),
    s.takes (kinds.map Kind.terminal) = some s' ∧ Accepts root s'

section Viability

variable {root : StartRule} {s s' : State} {stack : List Open} {body : OpenBody} {x : Terminal}
  {xs : List Terminal}

theorem Viable.of_accepts (h : Accepts root s) : Viable root s := ⟨[], s, rfl, h⟩

theorem Viable.of_take {kind : Kind} (hx : s.take kind.terminal = some s') (h : Viable root s') :
    Viable root s := by
  obtain ⟨kinds, s'', hs, haccepts⟩ := h
  exact ⟨kind :: kinds, s'', (State.takes_cons_of hx).trans hs, haccepts⟩

/-- By induction on the stack: what waits for the expression is closed, and the rest is below it. -/
theorem Opened.viable (h : Opened root stack xs) (p : Part) : Viable root ⟨.completed p, stack⟩ := by
  induction stack generalizing xs p with
  | nil =>
      cases h with
      | root hroot =>
          subst hroot
          exact .of_accepts ⟨p.tree, rfl⟩
  | cons frame rest ih =>
      cases h with
      | frame hrest hframe =>
          obtain ⟨kind, q, hx⟩ : ∃ (kind : Kind) (q : Part),
              State.take ⟨.completed p, frame :: rest⟩ kind.terminal = some ⟨.completed q, rest⟩ := by
            cases hframe with
            | paren => exact ⟨.closeParen, _, rfl⟩
            | bracket | items | operand | argument => exact ⟨.closeBracket, _, rfl⟩
          exact .of_take hx (ih hrest q)
      | @statement body lead _ _ _ hinside hlead =>
          have hawaits : Awaits body rest (lead.finish p)
            ⟨.completed p, .statement body lead :: rest⟩ := .value rfl
          cases hinside with
          | program hroot hhead _ =>
              subst hroot
              exact .of_accepts ⟨_, (Ends.ended hhead rfl hawaits).program?⟩
          | block hrest hhead _ _ =>
              have hbrace := hawaits.take_closeBrace Kind.closeBrace.is_terminal hhead
              exact .of_take hbrace (ih hrest _)

/-- A body can end wherever a statement may begin or has ended. -/
theorem Inside.viable {b : Body} (h : Inside root body stack xs) (hends : Ends body.head stack b s) :
    Viable root s := by
  cases h with
  | program hroot hhead _ =>
      subst hroot
      rw [hhead] at hends
      exact .of_accepts ⟨_, hends.program?⟩
  | block hstack hhead _ _ =>
      rw [hhead] at hends
      exact .of_take (hends.take_closeBrace Kind.closeBrace.is_terminal) (hstack.viable _)

theorem Described.viable_expression (h : Described root ⟨.expression, stack⟩ xs) :
    Viable root ⟨.expression, stack⟩ := by
  cases h with
  | expression hstack =>
      exact .of_take (take_atom Kind.integer.is_terminal (by decide)) (hstack.viable _)

theorem Described.viable_statement (h : Described root ⟨.statement body, stack⟩ xs) :
    Viable root ⟨.statement body, stack⟩ := by
  cases h with
  | statement hinside => exact hinside.viable (.closed rfl rfl)

/-- Wherever the reader is, the text can be completed. -/
theorem Described.viable (h : Described root s xs) : Viable root s := by
  have hstep : ∀ {s s' xs} (kind : Kind), Described root s xs → s.take kind.terminal = some s' →
      (∀ ys, Described root s' ys → Viable root s') → Viable root s :=
    fun kind h hx hnext => .of_take hx (hnext _ (h.take hx))
  cases h with
  | expression hstack => exact (Described.expression hstack).viable_expression
  | completed hstack _ => exact hstack.viable _
  | statement hinside => exact (Described.statement hinside).viable_statement
  | lead hinside _ => exact hinside.viable (.ended rfl rfl (.lead rfl))
  | target hinside hl =>
      refine hstep .name (.target hinside hl) rfl fun _ h => ?_
      exact hstep .equals h rfl fun _ h => h.viable_expression
  | definition hinside hl hname =>
      refine hstep .equals (.definition hinside hl hname) rfl fun _ h => ?_
      exact h.viable_expression
  | assignment hinside hl hslot =>
      refine hstep .equals (.assignment hinside hl hslot) rfl fun _ h => ?_
      exact h.viable_expression
  | message hstack ho hreceiver hname =>
      refine hstep .colon (.message hstack ho hreceiver hname) rfl fun _ h => ?_
      exact h.viable_expression
  | keyword hstack haddressed hsupplied hc =>
      refine hstep .name (.keyword hstack haddressed hsupplied hc) rfl fun _ h => ?_
      exact hstep .colon h rfl fun _ h => h.viable_expression
  | colon hstack haddressed hkeyed =>
      refine hstep .colon (.colon hstack haddressed hkeyed) rfl fun _ h => ?_
      exact h.viable_expression
  | params hstack hb hnames =>
      refine hstep .bar (.params hstack hb hnames) rfl fun _ h => ?_
      exact hstep .openBrace h rfl fun _ h => h.viable_statement
  | paramMark hstack hb hnames hname =>
      refine hstep .bar (.paramMark hstack hb hnames hname) rfl fun _ h => ?_
      exact hstep .openBrace h rfl fun _ h => h.viable_statement
  | brace hstack hb hnames hb' =>
      refine hstep .openBrace (.brace hstack hb hnames hb') rfl fun _ h => ?_
      exact h.viable_statement

end Viability

end Parley.Grammar
