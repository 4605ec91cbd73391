import Stencil.Proofs.Grammar.Run
import Stencil.Proofs.Source.Spelling
/-!
# Steps — where one token leads

A token that is shifted leads to a place of the mode in which scanning goes on after it, and a token at which reading
fails is where the error is found, unless it tells of too many open constructs (`Progress.step_accords`).
-/
namespace Stencil

def Place.mode : Place → Mode
  | .body | .firstCase _ _ => .outside
  | .comment _ | .commentEnd _ _ => .comment
  | .tag _ | .expr _ _ | .elseEnd _ _ | .statementEnd _ | .firstCaseTag _ _ _ => .tag

/-- The error is found at the token, or it tells of too many open constructs. -/
def ParseError.IsAt (e : ParseError) (t : Lexeme) : Prop := e.cause = .tooDeep ∨ e.pos = t.pos

theorem Lexeme.isAt_unexpected (t : Lexeme) (what : Expectation) : (t.unexpected what).IsAt t := by
  unfold unexpected
  split <;> exact .inr rfl

theorem TokenKind.after_of_eq {k l : TokenKind} {m : Mode} (h : k = l) (hl : l.after = m) : k.after = m := h ▸ hl

/-! ## Expressions -/

/-- What a step of an expression has to do with its token: scanning goes on inside the tag, or an error is found there. -/
def Reading.Step.AccordsWith (t : Lexeme) : Reading.Step → Prop
  | .shift _ => t.kind.after = .tag
  | .accept _ => True
  | .fail e _ _ => e.IsAt t

namespace Reading

open TokenKind (after_of_eq)

variable {base : Nat} {frames : List Frame} {t : Lexeme}

theorem enter_accords {pos : Position} {r : Reading} (ht : t.kind.after = .tag) : (enter base pos r).AccordsWith t := by
  unfold enter
  split
  · exact .inl rfl
  · exact ht

theorem stepOperand_accords {level : Level} : (stepOperand base level frames t).AccordsWith t := by
  unfold stepOperand
  split
  · rename_i ht
    exact enter_accords (after_of_eq ht rfl)
  · rename_i ht
    exact enter_accords (after_of_eq ht rfl)
  case h_7 => exact t.isAt_unexpected _
  all_goals
    rename_i ht
    exact after_of_eq ht rfl

theorem stepEnd_accords {e : Expr} : (stepEnd base frames e t).AccordsWith t := by
  unfold stepEnd
  split
  case h_1 => trivial
  case h_5 => exact t.isAt_unexpected _
  all_goals
    rename_i ht
    exact after_of_eq ht rfl

theorem stepComplete_accords {pending : Option (Expr × BinOp)} {e : Expr} :
    (stepComplete base pending frames e t).AccordsWith t := by
  unfold stepComplete
  split
  · rename_i ht
    exact after_of_eq ht rfl
  · split
    · rename_i hop
      exact (TokenKind.isInside_of_binOp? hop).2
    · exact stepEnd_accords

theorem step_accords (r : Reading) (base : Nat) (t : Lexeme) : (r.step base t).AccordsWith t := by
  obtain ⟨phase, level, frames⟩ := r
  cases phase with
  | operand => exact stepOperand_accords
  | complete e => exact stepComplete_accords
  | firstArg =>
    simp only [step, stepFirstArg]
    split
    · rename_i ht
      exact after_of_eq ht rfl
    · exact stepOperand_accords
  | named x =>
    simp only [step, stepNamed]
    split
    · rename_i ht
      exact enter_accords (after_of_eq ht rfl)
    · exact stepComplete_accords
  | function e =>
    simp only [step, stepFunction]
    split
    · rename_i ht
      exact after_of_eq ht rfl
    · exact t.isAt_unexpected _

end Reading

/-! ## Templates -/

/-- What a step has to do with its token: it leads to a place of the mode after the token, or an error is found there. -/
def Progress.Step.AccordsWith (t : Lexeme) : Progress.Step → Prop
  | .shift p => t.kind.after = p.place.mode
  | .accept _ => True
  | .fail e _ _ => e.IsAt t

namespace Progress

open TokenKind (after_of_eq)

variable {base : Nat} {p q : Progress} {t : Lexeme}

theorem expect_accords {k : TokenKind} (hk : k.after = q.place.mode) : (expect base p t k q).AccordsWith t := by
  unfold expect
  split
  · rename_i ht
    exact after_of_eq ht hk
  · exact t.isAt_unexpected _

theorem stepBody_accords : (stepBody base p t).AccordsWith t := by
  unfold stepBody
  split
  case h_5 =>
    split
    · trivial
    · exact .inr rfl
  case h_6 => exact t.isAt_unexpected _
  all_goals
    rename_i ht
    exact after_of_eq ht rfl

theorem stepOpening_accords {o : Opening} {before : List Block} {outer : List (Opening × List Block)} {opener : Lexeme} :
    (stepOpening base p o before outer opener t).AccordsWith t := by
  unfold stepOpening
  split
  case h_5 => exact .inr rfl
  case h_6 => exact .inr rfl
  case h_9 => exact t.isAt_unexpected _
  case h_10 => exact .inr rfl
  all_goals
    rename_i ht
    exact after_of_eq ht rfl

theorem openStatement_accords {opener : Lexeme} : (openStatement base p opener t).AccordsWith t := by
  unfold openStatement
  split
  · exact .inl rfl
  · split
    case h_3 => exact t.isAt_unexpected _
    all_goals
      rename_i ht
      exact after_of_eq ht rfl

theorem stepTag_accords {opener : Lexeme} : (stepTag base p opener t).AccordsWith t := by
  unfold stepTag
  split
  · split
    · exact .inr rfl
    · exact stepOpening_accords
  · exact openStatement_accords

theorem stepUse_accords {use : Use} {e : Expr} : (stepUse base p use e t).AccordsWith t := by
  cases use with
  | render | cond | switch => exact expect_accords rfl
  | pattern =>
    simp only [stepUse]
    split
    · rename_i ht
      exact after_of_eq ht rfl
    · exact expect_accords rfl

theorem stepExpr_accords {use : Use} {r : Reading} {bs : List Block} {outer : List (Opening × List Block)} :
    (Progress.step base ⟨.expr use r, bs, outer⟩ t).AccordsWith t := by
  have hr := r.step_accords (around base outer use) t
  rw [step_expr]
  split
  · rename_i heq
    rw [heq] at hr
    exact hr
  · exact stepUse_accords
  · rename_i heq
    rw [heq] at hr
    exact hr

theorem stepFirstCase_accords {pos : Position} {v : Expr} (hp : p.place = .firstCase pos v) :
    (stepFirstCase base p pos v t).AccordsWith t := by
  unfold stepFirstCase
  split
  · rename_i ht
    exact after_of_eq ht rfl
  · exact .inr rfl
  · rename_i ht
    split
    · exact after_of_eq ht (by rw [hp]; rfl)
    · exact t.isAt_unexpected _
  · exact t.isAt_unexpected _

theorem stepFirstCaseTag_accords {pos : Position} {v : Expr} {opener : Lexeme} :
    (stepFirstCaseTag base p pos v opener t).AccordsWith t := by
  unfold stepFirstCaseTag
  split
  case h_3 => exact t.isAt_unexpected _
  all_goals
    rename_i ht
    exact after_of_eq ht rfl

theorem stepComment_accords {pos : Position} : (stepComment base p pos t).AccordsWith t := by
  unfold stepComment
  split
  · rename_i ht
    exact after_of_eq ht rfl
  · exact expect_accords rfl

/-- **Where one token leads**: to a place of the mode after it, or to an error that is found at it. -/
theorem step_accords (base : Nat) (p : Progress) (t : Lexeme) : (p.step base t).AccordsWith t := by
  obtain ⟨place, blocks, outer⟩ := p
  cases place with
  | body => exact stepBody_accords
  | tag => exact stepTag_accords
  | expr => exact stepExpr_accords
  | comment => exact stepComment_accords
  | commentEnd | elseEnd | statementEnd => exact expect_accords rfl
  | firstCase => exact stepFirstCase_accords rfl
  | firstCaseTag => exact stepFirstCaseTag_accords

/-- **The place after tokens is of the mode after them.** -/
theorem mode_after {us : List Lexeme} : ∀ {p p' : Progress}, p.after? base us = some p' →
    p.place.mode.afterAll (us.map Lexeme.kind) = p'.place.mode := by
  induction us with
  | nil =>
    intro p p' h
    cases h
    rfl
  | cons t us ih =>
    intro p p' h
    rw [after?_cons, Option.bind_eq_some_iff] at h
    obtain ⟨q, hq, h⟩ := h
    have hmode := step_accords base p t
    rw [shift?_eq_some.1 hq] at hmode
    rw [List.map_cons, Mode.afterAll_cons, show t.kind.after = q.place.mode from hmode]
    exact ih h

end Progress
end Stencil
