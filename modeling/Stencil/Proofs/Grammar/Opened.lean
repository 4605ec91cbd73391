import Stencil.Proofs.Grammar.Run
/-!
# Opened — the constructs that are open while tokens are read

Parentheses, calls, `!`s and statements are open from the token that begins them to the one that ends them.  `opened`
lists where those stand that a reading has not closed yet, the innermost first, as many as `depth` counts.  One token
opens one construct at most and closes none but the innermost ones (`Reading.step_keeps`, `Progress.step_keeps`), so a
construct is closed only if it was opened before, and what was open before a reading began stays open.
-/
namespace Stencil

/-- Only innermost constructs were closed, or one more was opened inside them. -/
def Nests (before after : List Position) : Prop := after <:+ before ∨ ∃ pos, after = pos :: before

theorem Nests.append {ps qs rs : List Position} (h : Nests ps qs) : Nests (ps ++ rs) (qs ++ rs) := by
  obtain ⟨us, rfl⟩ | ⟨pos, rfl⟩ := h
  · exact .inl ⟨us, (List.append_assoc ..).symm⟩
  · exact .inr ⟨pos, rfl⟩

/-- Where a parser may stand after an error at a token that comes after `opener?`, the opener of a tag: not behind the end
of the tokens. -/
def Standing.Fits (opener? : Option Lexeme) (t : Lexeme) : Standing → Prop
  | .behind => t.kind ≠ .eof
  | .inFront => True
  | .atTag opener => opener? = some opener

/-! ## Expressions -/

namespace Reading

/-- Where the open frames and the `!`s around them stand, the innermost first. -/
def framesOpened : List Frame → List Position
  | [] => []
  | .paren pos outer :: frames => pos :: (outer.nots ++ framesOpened frames)
  | .call func _ outer :: frames => func.pos :: (outer.nots ++ framesOpened frames)

def opened (r : Reading) : List Position := r.level.nots ++ framesOpened r.frames

theorem framesOpened_suffix (frame : Frame) (frames : List Frame) :
    framesOpened frames <:+ framesOpened (frame :: frames) := by
  cases frame <;> exact (List.suffix_append _ _).trans (List.suffix_cons _ _)

theorem length_framesOpened : ∀ frames : List Frame, (framesOpened frames).length = framesDepth frames
  | [] => rfl
  | .paren _ outer :: frames | .call _ _ outer :: frames => by
    rw [framesOpened, framesDepth, List.length_cons, List.length_append, length_framesOpened frames]
    omega

theorem length_opened (r : Reading) : r.opened.length = r.depth := by
  rw [opened, depth, List.length_append, length_framesOpened]

/-- What a step has to do with its token, where the constructs at `opened` are open: the end of the tokens is not shifted,
and one construct is opened at most; and an error counts all constructs around the expression. -/
def Step.Keeps (base : Nat) (opened : List Position) (t : Lexeme) : Step → Prop
  | .shift r => t.kind ≠ .eof ∧ Nests opened r.opened
  | .accept _ => True
  | .fail _ depth standing => base ≤ depth ∧ standing.Fits none t

variable {base : Nat} {frames : List Frame} {level : Level} {t : Lexeme} {ps : List Position}

theorem keeps_shift {r : Reading} {k : TokenKind} (ht : t.kind = k) (hk : k ≠ .eof) (h : r.opened <:+ ps) :
    (Step.shift r).Keeps base ps t := ⟨ht ▸ hk, .inl h⟩

theorem keeps_fail {e : ParseError} {n : Nat} : (Step.fail e (base + n) .inFront).Keeps base ps t :=
  ⟨Nat.le_add_right _ _, trivial⟩

theorem enter_keeps {pos : Position} {r : Reading} (ht : t.kind ≠ .eof) (h : Nests ps r.opened) :
    (enter base pos r).Keeps base ps t := by
  unfold enter
  split
  · exact ⟨Nat.le_add_right _ _, ht⟩
  · exact ⟨ht, h⟩

theorem stepOperand_keeps (hps : ps = level.nots ++ framesOpened frames) :
    (stepOperand base level frames t).Keeps base ps t := by
  subst hps
  unfold stepOperand
  split
  · rename_i ht
    exact enter_keeps (by rw [ht]; decide) (.inr ⟨t.pos, rfl⟩)
  · rename_i ht
    exact enter_keeps (by rw [ht]; decide) (.inr ⟨t.pos, rfl⟩)
  · rename_i ht
    exact keeps_shift ht (by decide) (List.suffix_refl _)
  case h_7 =>
    rw [Nat.add_assoc]
    exact keeps_fail
  all_goals
    rename_i ht
    exact keeps_shift ht (by decide) (List.suffix_append _ _)

theorem stepEnd_keeps {e : Expr} (hps : framesOpened frames <:+ ps) : (stepEnd base frames e t).Keeps base ps t := by
  unfold stepEnd
  split
  · trivial
  · rename_i hc
    exact keeps_shift hc (by decide) ((framesOpened_suffix _ _).trans hps)
  · rename_i hc
    exact keeps_shift hc (by decide) ((framesOpened_suffix _ _).trans hps)
  · rename_i hc
    exact keeps_shift hc (by decide) hps
  · exact keeps_fail

theorem stepComplete_keeps {pending : Option (Expr × BinOp)} {e : Expr} (hps : framesOpened frames <:+ ps) :
    (stepComplete base pending frames e t).Keeps base ps t := by
  unfold stepComplete
  split
  · rename_i ht
    exact keeps_shift ht (by decide) hps
  · split
    · rename_i op hop
      refine ⟨fun ht => ?_, .inl hps⟩
      rw [ht] at hop
      cases hop
    · exact stepEnd_keeps hps

/-- **What one token does to the constructs that are open in an expression.** -/
theorem step_keeps (r : Reading) (base : Nat) (t : Lexeme) : (r.step base t).Keeps base r.opened t := by
  obtain ⟨phase, level, frames⟩ := r
  cases phase with
  | operand => exact stepOperand_keeps rfl
  | complete e => exact stepComplete_keeps (List.suffix_append _ _)
  | firstArg =>
    simp only [step, stepFirstArg]
    split
    · rename_i hc
      exact keeps_shift hc (by decide) ((framesOpened_suffix _ _).trans (List.suffix_append _ _))
    · exact stepOperand_keeps rfl
  | named x =>
    simp only [step, stepNamed]
    split
    · rename_i ht
      exact enter_keeps (by rw [ht]; decide) (.inr ⟨x.pos, rfl⟩)
    · exact stepComplete_keeps (List.suffix_append _ _)
  | function e =>
    simp only [step, stepFunction]
    split
    · rename_i ht
      exact keeps_shift ht (by decide) (List.suffix_refl _)
    · rw [Nat.add_assoc]
      exact keeps_fail

end Reading

/-! ## Templates -/

def Block.pos : Block → Position
  | .text _ p => p
  | .comment _ p => p
  | .render e => e.pos
  | .cond _ _ p => p
  | .switch _ _ p => p

def Opening.pos : Opening → Position
  | .branch p _ _ => p
  | .otherwise p _ => p
  | .case p _ _ _ => p

def Use.opened : Use → List Position
  | .render => []
  | .cond p _ => [p]
  | .switch p => [p]
  | .pattern p _ _ _ => [p]

def Place.opened : Place → List Position
  | .body => []
  | .tag _ => []
  | .expr use r => r.opened ++ use.opened
  | .comment _ => []
  | .commentEnd _ _ => []
  | .elseEnd p _ => [p]
  | .statementEnd b => [b.pos]
  | .firstCase p _ => [p]
  | .firstCaseTag p _ _ => [p]

def Place.opener? : Place → Option Lexeme
  | .tag o => some o
  | .firstCaseTag _ _ o => some o
  | _ => none

namespace Progress

def opened (p : Progress) : List Position := p.place.opened ++ p.outer.map (·.1.pos)

theorem length_opened (p : Progress) : p.opened.length = p.depth := by
  obtain ⟨place, blocks, outer⟩ := p
  have hplace : place.opened.length = place.depth := by
    cases place with
    | expr use r => cases use <;> simp [Place.opened, Place.depth, Use.opened, Reading.length_opened, Nat.add_comm]
    | _ => rfl
  rw [opened, depth, List.length_append, List.length_map, hplace, Nat.add_comm]

/-- What a step has to do with its token: the end of the tokens is not shifted, one construct is opened at most, and the
token may be the opener of a tag; an error counts all constructs around the template. -/
def Step.Keeps (base : Nat) (p : Progress) (t : Lexeme) : Step → Prop
  | .shift q => t.kind ≠ .eof ∧ Nests p.opened q.opened ∧ (q.place.opener? = none ∨ q.place.opener? = some t)
  | .accept _ => True
  | .fail _ depth standing => base ≤ depth ∧ standing.Fits p.place.opener? t

variable {base : Nat} {p q : Progress} {t : Lexeme}

theorem keeps_shift {k : TokenKind} (ht : t.kind = k) (hk : k ≠ .eof) (h : q.opened <:+ p.opened)
    (ho : q.place.opener? = none) : (Step.shift q).Keeps base p t :=
  ⟨ht ▸ hk, .inl h, .inl ho⟩

theorem keeps_fail {e : ParseError} {n : Nat} : (Step.fail e (base + n) .inFront).Keeps base p t :=
  ⟨Nat.le_add_right _ _, trivial⟩

theorem expect_keeps {p' : Progress} {k : TokenKind} (hk : k ≠ .eof) (h : q.opened <:+ p.opened)
    (ho : q.place.opener? = none) : (expect base p' t k q).Keeps base p t := by
  unfold expect
  split
  · rename_i ht
    exact keeps_shift ht hk h ho
  · exact keeps_fail

theorem stepBody_keeps {blocks : List Block} {outer : List (Opening × List Block)} :
    (stepBody base ⟨.body, blocks, outer⟩ t).Keeps base ⟨.body, blocks, outer⟩ t := by
  unfold stepBody
  split
  case h_3 =>
    rename_i ht
    exact ⟨by rw [ht]; decide, .inl (List.suffix_refl _), .inr rfl⟩
  case h_5 =>
    split
    · trivial
    · exact keeps_fail
  case h_6 => exact keeps_fail
  all_goals
    rename_i ht
    exact keeps_shift ht (by decide) (List.suffix_refl _) rfl

theorem openStatement_keeps {opener : Lexeme} {blocks : List Block} {outer : List (Opening × List Block)} :
    (openStatement base ⟨.tag opener, blocks, outer⟩ opener t).Keeps base ⟨.tag opener, blocks, outer⟩ t := by
  unfold openStatement
  split
  · exact ⟨by omega, trivial⟩
  · split
    case h_3 => exact ⟨by omega, trivial⟩
    all_goals
      rename_i ht
      exact ⟨by rw [ht]; decide, .inr ⟨opener.pos, rfl⟩, .inl rfl⟩

theorem stepOpening_keeps {o : Opening} {before blocks : List Block} {outer : List (Opening × List Block)}
    {opener : Lexeme} (ht : isInner t.kind = true) :
    (stepOpening base ⟨.tag opener, blocks, (o, before) :: outer⟩ o before outer opener t).Keeps base
      ⟨.tag opener, blocks, (o, before) :: outer⟩ t := by
  have heof : t.kind ≠ .eof := fun h => by
    rw [h] at ht
    cases ht
  unfold stepOpening
  split
  case h_5 => exact ⟨Nat.le_add_right _ _, heof⟩
  case h_6 => exact ⟨Nat.le_add_right _ _, heof⟩
  case h_9 => exact ⟨Nat.le_add_right _ _, rfl⟩
  case h_10 => exact ⟨Nat.le_add_right _ _, heof⟩
  all_goals exact ⟨heof, .inl (List.suffix_refl _), .inl rfl⟩

theorem stepTag_keeps {opener : Lexeme} {blocks : List Block} {outer : List (Opening × List Block)} :
    (stepTag base ⟨.tag opener, blocks, outer⟩ opener t).Keeps base ⟨.tag opener, blocks, outer⟩ t := by
  unfold stepTag
  split
  · rename_i ht
    split
    · exact ⟨Nat.le_add_right _ _, rfl⟩
    · rename_i hout
      cases hout
      exact stepOpening_keeps ht
  · exact openStatement_keeps

theorem stepUse_keeps {use : Use} {e : Expr} {r : Reading} {blocks : List Block} {outer : List (Opening × List Block)} :
    (stepUse base ⟨.expr use .start, blocks, outer⟩ use e t).Keeps base ⟨.expr use r, blocks, outer⟩ t := by
  have hsuffix : (use.opened ++ outer.map (·.1.pos)) <:+ (⟨.expr use r, blocks, outer⟩ : Progress).opened := by
    rw [opened, Place.opened, List.append_assoc]
    exact List.suffix_append _ _
  cases use with
  | render => exact expect_keeps (by decide) hsuffix rfl
  | cond | switch => exact expect_keeps (by decide) hsuffix rfl
  | pattern =>
    simp only [stepUse]
    split
    · rename_i ht
      exact keeps_shift ht (by decide) hsuffix rfl
    · exact expect_keeps (by decide) hsuffix rfl

theorem stepExpr_keeps {use : Use} {r : Reading} {blocks : List Block} {outer : List (Opening × List Block)} :
    (Progress.step base ⟨.expr use r, blocks, outer⟩ t).Keeps base ⟨.expr use r, blocks, outer⟩ t := by
  have hr := r.step_keeps (around base outer use) t
  rw [step_expr]
  split
  · rename_i heq
    rw [heq] at hr
    obtain ⟨heof, hnests⟩ := hr
    refine ⟨heof, ?_, .inl rfl⟩
    rw [opened, opened, Place.opened, Place.opened, List.append_assoc, List.append_assoc]
    exact hnests.append
  · exact stepUse_keeps
  · rename_i heq
    rw [heq] at hr
    obtain ⟨hd, hfits⟩ := hr
    refine ⟨?_, hfits⟩
    rw [around] at hd
    omega

theorem stepFirstCase_keeps {pos : Position} {v : Expr} {blocks : List Block} {outer : List (Opening × List Block)} :
    (stepFirstCase base ⟨.firstCase pos v, blocks, outer⟩ pos v t).Keeps base ⟨.firstCase pos v, blocks, outer⟩ t := by
  unfold stepFirstCase
  split
  · rename_i ht
    exact ⟨by rw [ht]; decide, .inl (List.suffix_refl _), .inr rfl⟩
  · exact keeps_fail
  · rename_i ht
    split
    · exact keeps_shift ht (by decide) (List.suffix_refl _) rfl
    · exact keeps_fail
  · exact keeps_fail

theorem stepFirstCaseTag_keeps {pos : Position} {v : Expr} {opener : Lexeme} {blocks : List Block}
    {outer : List (Opening × List Block)} :
    (stepFirstCaseTag base ⟨.firstCaseTag pos v opener, blocks, outer⟩ pos v opener t).Keeps base
      ⟨.firstCaseTag pos v opener, blocks, outer⟩ t := by
  unfold stepFirstCaseTag
  split
  case h_3 => exact ⟨Nat.le_add_right _ _, rfl⟩
  all_goals
    rename_i ht
    exact keeps_shift ht (by decide) (List.suffix_refl _) rfl

theorem stepComment_keeps {pos : Position} {blocks : List Block} {outer : List (Opening × List Block)} :
    (stepComment base ⟨.comment pos, blocks, outer⟩ pos t).Keeps base ⟨.comment pos, blocks, outer⟩ t := by
  unfold stepComment
  split
  · rename_i ht
    exact keeps_shift ht (by decide) (List.suffix_refl _) rfl
  · exact expect_keeps (by decide) (List.suffix_refl _) rfl

/-- **What one token does to the constructs that are open in a template.** -/
theorem step_keeps (base : Nat) (p : Progress) (t : Lexeme) : (p.step base t).Keeps base p t := by
  obtain ⟨place, blocks, outer⟩ := p
  cases place with
  | body => exact stepBody_keeps
  | tag => exact stepTag_keeps
  | expr => exact stepExpr_keeps
  | comment => exact stepComment_keeps
  | commentEnd | elseEnd => exact expect_keeps (by decide) (List.suffix_refl _) rfl
  | statementEnd => exact expect_keeps (by decide) (List.suffix_cons _ _) rfl
  | firstCase => exact stepFirstCase_keeps
  | firstCaseTag => exact stepFirstCaseTag_keeps

end Progress
end Stencil
