import Stencil.Proofs.Grammar.Parse
import Stencil.Proofs.Grammar.Steps
import Stencil.Proofs.Source.Prefix
import Stencil.Proofs.Source.Printed
/-!
# Closing — every template that is being read can be completed

However far reading has come, some bytes complete the template (`Progress.closing`): an operand where one is due, a
parenthesis for each that is open, the end of the tag, and an end for each statement.  None of them opens anything that
would nest more deeply, so the tokens that led there, followed by those of the completion, spell a template that fits
the limit (`Progress.spells_closing`).
-/
namespace Stencil

open Grammar

def ends : Nat → Bytes
  | 0 => []
  | n + 1 => utf8 "\x7b% end %\x7d" ++ ends n

/-- An operand if one is due, and a parenthesis for each that is open. -/
def Reading.closing (r : Reading) : Bytes :=
  match r.phase with
  | .operand | .firstArg | .function _ => utf8 "a" ++ List.replicate r.frames.length Byte.rparen
  | .named _ | .complete _ => List.replicate r.frames.length Byte.rparen

def Use.closer : Use → Bytes
  | .render => utf8 "\x7d\x7d"
  | .cond .. | .switch .. | .pattern .. => utf8 "%\x7d"

/-- Bytes that complete a template from a place on, in front of which `outer` statements are open. -/
def Progress.closing (p : Progress) : Bytes :=
  match p.place, p.outer with
  | .body, outer => Byte.newline :: ends outer.length
  | .tag _, [] => utf8 " if a %\x7d" ++ ends 1
  | .tag _, _ :: outer => utf8 " end %\x7d" ++ ends outer.length
  | .expr use r, outer => Byte.space :: (r.closing ++ Byte.space :: (use.closer ++ ends (outer.length + use.depth)))
  | .comment _, outer | .commentEnd _ _, outer => utf8 "#\x7d" ++ ends outer.length
  | .elseEnd _ _, outer => utf8 " %\x7d" ++ ends (outer.length + 1)
  | .statementEnd _, outer => utf8 " %\x7d" ++ ends outer.length
  | .firstCase _ _, outer => Byte.newline :: ends (outer.length + 1)
  | .firstCaseTag _ _ _, outer => utf8 " end %\x7d" ++ ends outer.length

def Closes (p : Progress) (c : Bytes) : Prop :=
  ∀ cs : List Lexeme, cs.map Lexeme.erase = p.place.mode.words c → ∃ blocks, p.after? 0 cs = some ⟨.body, blocks, []⟩

namespace Closes

variable {p q : Progress} {blocks : List Block} {outer : List (Opening × List Block)} {rest : Bytes}

theorem done : Closes ⟨.body, blocks, []⟩ [] := fun cs hcs => by
  rw [Mode.words_nil, List.map_eq_nil_iff] at hcs
  subst hcs
  exact ⟨blocks, rfl⟩

theorem space (hp : p.place.mode = .tag) (h : Closes p rest) : Closes p (Byte.space :: rest) := fun cs hcs => by
  rw [hp, Mode.words_space, ← hp] at hcs
  exact h cs hcs

theorem token {u : Lexeme} (hu : u.Spelled) (hr : u.StopsAt rest) (hp : u.kind.before = p.place.mode)
    (h : ∀ t : Lexeme, t.kind = u.kind → t.text = u.text → ∃ q, p.step 0 t = .shift q ∧ Closes q rest) :
    Closes p (u.text ++ rest) := fun cs hcs => by
  rw [← hp, Mode.words_append hu hr] at hcs
  cases cs with
  | nil => cases hcs
  | cons t cs =>
    rw [List.map_cons, List.cons.injEq, Lexeme.erase, Lexeme.erase, Lexeme.mk.injEq] at hcs
    obtain ⟨⟨hk, ht, -⟩, hcs⟩ := hcs
    obtain ⟨q, hs, hq⟩ := h t hk ht
    have hmode := Progress.step_accords 0 p t
    rw [hs] at hmode
    rw [← hk, show t.kind.after = q.place.mode from hmode] at hcs
    rw [after?_shift hs]
    exact hq cs hcs

theorem fixed (k : TokenKind) (w : Bytes) (hw : k.spelling? = some w) (hr : Lexeme.StopsAt ⟨k, w, .zero⟩ rest)
    (hp : k.before = p.place.mode) (h : ∀ t : Lexeme, t.kind = k → ∃ q, p.step 0 t = .shift q ∧ Closes q rest) :
    Closes p (w ++ rest) := by
  have hu : Lexeme.Spelled ⟨k, w, .zero⟩ := by cases k <;> first | exact hw | cases hw
  exact token hu hr hp fun t hk _ => h t hk

theorem closeTag (hp : p.place.mode = .tag)
    (h : ∀ t : Lexeme, t.kind = .rBracePercent → ∃ q, p.step 0 t = .shift q ∧ Closes q rest) :
    Closes p (utf8 " %\x7d" ++ rest) :=
  space hp (fixed .rBracePercent [Byte.percent, Byte.rbrace] rfl trivial hp.symm h)

theorem endWord (hp : p.place.mode = .tag)
    (h : ∀ t : Lexeme, t.kind = .end → ∃ b, p.step 0 t = .shift ⟨.statementEnd b, blocks, outer⟩)
    (hrest : ∀ b, Closes ⟨.body, b :: blocks, outer⟩ rest) : Closes p (utf8 " end %\x7d" ++ rest) := by
  refine space hp (fixed .end (utf8 "end") rfl rfl hp.symm fun t ht => ?_)
  obtain ⟨b, hs⟩ := h t ht
  exact ⟨_, hs, closeTag rfl fun t ht => ⟨_, expect_of_eq ht, hrest b⟩⟩

theorem step_end {o : Opening} {before : List Block} {opener t : Lexeme} (ht : t.kind = .end) :
    ∃ b, Progress.step 0 ⟨.tag opener, blocks, (o, before) :: outer⟩ t = .shift ⟨.statementEnd b, before, outer⟩ := by
  cases o <;>
  · simp only [Progress.step, Progress.stepTag, Progress.isInner, Progress.stepOpening, ht, ↓reduceIte]
    exact ⟨_, rfl⟩

theorem endTag (hp : p.place.mode = .outside)
    (h : ∀ o : Lexeme, o.kind = .lBracePercent → ∃ q, p.step 0 o = .shift q ∧ q.place.mode = .tag ∧
      ∀ t : Lexeme, t.kind = .end → ∃ b, q.step 0 t = .shift ⟨.statementEnd b, blocks, outer⟩)
    (hrest : ∀ b, Closes ⟨.body, b :: blocks, outer⟩ rest) : Closes p (utf8 "\x7b% end %\x7d" ++ rest) := by
  refine fixed .lBracePercent [Byte.lbrace, Byte.percent] rfl trivial hp.symm fun o ho => ?_
  obtain ⟨q, hs, hq, hend⟩ := h o ho
  exact ⟨q, hs, endWord hq hend hrest⟩

theorem ends : ∀ (blocks : List Block) (outer : List (Opening × List Block)),
    Closes ⟨.body, blocks, outer⟩ (ends outer.length)
  | _, [] => done
  | _, (_, before) :: outer =>
    endTag rfl (fun _ ht => ⟨_, step_tag ht, rfl, fun _ => step_end⟩) fun b => ends (b :: before) outer

theorem step_firstCaseTag {pos : Position} {v : Expr} {opener t : Lexeme} (ht : t.kind = .end) :
    ∃ b, Progress.step 0 ⟨.firstCaseTag pos v opener, blocks, outer⟩ t = .shift ⟨.statementEnd b, blocks, outer⟩ := by
  simp only [Progress.step, Progress.stepFirstCaseTag, ht]
  exact ⟨_, rfl⟩

theorem firstCase {pos : Position} {v : Expr} :
    Closes ⟨.firstCase pos v, blocks, outer⟩ (Stencil.ends (outer.length + 1)) := by
  refine endTag rfl (fun o ho => ⟨⟨.firstCaseTag pos v o, blocks, outer⟩, ?_, rfl, fun _ => step_firstCaseTag⟩)
    fun b => ends (b :: blocks) outer
  simp only [Progress.step, Progress.stepFirstCase, ho]

end Closes

/-! ## Expressions -/

def Reading.HasOperand (r : Reading) : Prop :=
  ∃ pending e, ∀ base t, t.kind ≠ .lParen → r.step base t = Reading.stepComplete base pending r.frames e t

namespace Reading

variable {base : Nat} {level : Level} {frames : List Frame} {r : Reading} {t : Lexeme}

theorem hasOperand_complete {e : Expr} : HasOperand ⟨.complete e, level, frames⟩ := ⟨level.pending, e, fun _ _ _ => rfl⟩

theorem hasOperand_named {x : Ident} : HasOperand ⟨.named x, level, frames⟩ :=
  ⟨level.pending, (Expr.var x).negated level.nots, fun _ _ ht => by simp only [step, stepNamed, if_neg ht]⟩

theorem HasOperand.rParen {f : Frame} (h : r.HasOperand) (hf : r.frames = f :: frames) (ht : t.kind = .rParen) :
    ∃ r', r.step base t = .shift r' ∧ r'.HasOperand ∧ r'.frames = frames := by
  obtain ⟨pending, e, h⟩ := h
  rw [h base t (by rw [ht]; decide), hf]
  cases f <;>
  · simp only [stepComplete, stepEnd, ht, reduceCtorEq, ↓reduceIte, TokenKind.binOp?]
    exact ⟨_, rfl, hasOperand_complete, rfl⟩

theorem HasOperand.accept (h : r.HasOperand) (hf : r.frames = []) (ht : EndsExpr t.kind) :
    ∃ e, r.step base t = .accept e := by
  obtain ⟨pending, e, h⟩ := h
  obtain ⟨h₁, h₂, h₃⟩ := ht
  rw [h base t h₁, hf, stepComplete, if_neg h₂, h₃]
  exact ⟨_, rfl⟩

end Reading

namespace Closes

variable {use : Use} {blocks : List Block} {outer : List (Opening × List Block)} {rest : Bytes}

theorem endsWord_replicate (n : Nat) (rest : Bytes) :
    Mode.endsWord (List.replicate n Byte.rparen ++ Byte.space :: rest) = true := by cases n <;> rfl

theorem parens (h : ∀ r : Reading, r.HasOperand → r.frames = [] → Closes ⟨.expr use r, blocks, outer⟩ rest) :
    ∀ (frames : List Frame) (r : Reading), r.HasOperand → r.frames = frames →
      Closes ⟨.expr use r, blocks, outer⟩ (List.replicate frames.length Byte.rparen ++ rest)
  | [], r, hr, hf => h r hr hf
  | _ :: frames, r, hr, hf => by
    refine fixed .rParen [Byte.rparen] rfl trivial rfl fun t ht => ?_
    obtain ⟨r', hs, hr', hf'⟩ := hr.rParen hf ht
    exact ⟨_, by rw [Progress.step_expr, hs], parens h frames r' hr' hf'⟩

theorem operand {r : Reading} (hstep : ∀ (base : Nat) (t : Lexeme), t.kind = .identifier →
      ∃ r', r.step base t = .shift r' ∧ r'.HasOperand ∧ r'.frames = r.frames)
    (h : ∀ r : Reading, r.HasOperand → r.frames = [] → Closes ⟨.expr use r, blocks, outer⟩ (Byte.space :: rest)) :
    Closes ⟨.expr use r, blocks, outer⟩
      (utf8 "a" ++ List.replicate r.frames.length Byte.rparen ++ Byte.space :: rest) := by
  have hname : Lexeme.Spelled ⟨.identifier, utf8 "a", .zero⟩ := ⟨rfl, rfl⟩
  rw [List.append_assoc]
  refine token hname (endsWord_replicate _ _) rfl fun t ht _ => ?_
  obtain ⟨r', hs, hr', hf'⟩ := hstep _ t ht
  exact ⟨_, by rw [Progress.step_expr, hs], parens h r.frames r' hr' hf'⟩

theorem reading (r : Reading)
    (h : ∀ r : Reading, r.HasOperand → r.frames = [] → Closes ⟨.expr use r, blocks, outer⟩ (Byte.space :: rest)) :
    Closes ⟨.expr use r, blocks, outer⟩ (r.closing ++ Byte.space :: rest) := by
  obtain ⟨phase, level, frames⟩ := r
  cases phase with
  | named x => exact parens h frames _ Reading.hasOperand_named rfl
  | complete e => exact parens h frames _ Reading.hasOperand_complete rfl
  | operand =>
    refine operand (fun base t ht => ⟨⟨.named t.ident, level, frames⟩, ?_, Reading.hasOperand_named, rfl⟩) h
    simp only [Reading.step, Reading.stepOperand, ht]
  | firstArg =>
    refine operand (fun base t ht => ⟨⟨.named t.ident, level, frames⟩, ?_, Reading.hasOperand_named, rfl⟩) h
    simp only [Reading.step, Reading.stepFirstArg, Reading.stepOperand, ht]
  | function e =>
    refine operand (fun base t ht => ⟨⟨.complete (.pipe e t.ident), level, frames⟩, ?_,
      Reading.hasOperand_complete, rfl⟩) h
    simp only [Reading.step, Reading.stepFunction, ht, ↓reduceIte]

theorem exprEnd {r : Reading} (hr : r.HasOperand) (hf : r.frames = []) :
    Closes ⟨.expr use r, blocks, outer⟩ (Byte.space :: (use.closer ++ Stencil.ends (outer.length + use.depth))) := by
  have haccept : ∀ {t : Lexeme}, EndsExpr t.kind → ∃ e, Progress.step 0 ⟨.expr use r, blocks, outer⟩ t =
      Progress.stepUse 0 ⟨.expr use .start, blocks, outer⟩ use e t := fun ht => by
    obtain ⟨e, he⟩ := hr.accept hf ht
    exact ⟨e, by rw [Progress.step_expr, he]⟩
  have hclose : ∀ {t : Lexeme}, t.kind = .rBracePercent → EndsExpr t.kind := fun ht => by
    rw [ht]
    exact ⟨by decide, by decide, rfl⟩
  cases use with
  | render =>
    refine space rfl (fixed .rDoubleBrace [Byte.rbrace, Byte.rbrace] rfl trivial rfl fun t ht => ?_)
    obtain ⟨e, he⟩ := haccept (by rw [ht]; exact ⟨by decide, by decide, rfl⟩)
    exact ⟨_, he.trans (expect_of_eq ht), ends _ outer⟩
  | cond pos before =>
    refine closeTag rfl fun t ht => ?_
    obtain ⟨e, he⟩ := haccept (hclose ht)
    exact ⟨_, he.trans (expect_of_eq ht), ends [] ((.branch pos before e, blocks) :: outer)⟩
  | pattern pos v cs ps =>
    refine closeTag rfl fun t ht => ?_
    obtain ⟨e, he⟩ := haccept (hclose ht)
    have hcomma : t.kind ≠ .comma := by rw [ht]; decide
    refine ⟨_, he.trans ((if_neg hcomma).trans (expect_of_eq ht)), ?_⟩
    exact ends [] ((.case pos v cs (e :: ps).reverse, blocks) :: outer)
  | switch pos =>
    refine closeTag rfl fun t ht => ?_
    obtain ⟨e, he⟩ := haccept (hclose ht)
    exact ⟨_, he.trans (expect_of_eq ht), firstCase⟩

end Closes

/-! ## Templates -/

namespace Progress

theorem closes_newline {p : Progress} {rest : Bytes} (hp : p.place.mode = .outside)
    (hr : rest = [] ∨ Mode.opensTag rest = true)
    (h : ∀ t : Lexeme, t.kind = .text → t.text = [Byte.newline] → ∃ q, p.step 0 t = .shift q ∧ Closes q rest) :
    Closes p (Byte.newline :: rest) := by
  have hu : Lexeme.Spelled ⟨.text, [Byte.newline], .zero⟩ := by
    refine ⟨List.cons_ne_nil _ _, List.not_mem_nil, ?_, trivial⟩
    exact Mode.opensTag_singleton _
  have hstop : Lexeme.StopsAt ⟨.text, [Byte.newline], .zero⟩ rest := by
    rcases hr with hr | hr
    · exact .inl hr
    · exact .inr (.inr ⟨hr, by decide⟩)
  exact Closes.token hu hstop hp.symm h

theorem opensTag_ends : ∀ n, ends n = [] ∨ Mode.opensTag (ends n) = true
  | 0 => .inl rfl
  | _ + 1 => .inr rfl

theorem closes_expr (use : Use) (r : Reading) (blocks : List Block) (outer : List (Opening × List Block)) :
    Closes ⟨.expr use r, blocks, outer⟩ (closing ⟨.expr use r, blocks, outer⟩) :=
  Closes.space rfl (Closes.reading r fun _ => Closes.exprEnd)

/-- **The completion of a template completes it.** -/
theorem closes_closing (p : Progress) : Closes p p.closing := by
  obtain ⟨place, blocks, outer⟩ := p
  have hend : ∀ b, Closes ⟨.body, b :: blocks, outer⟩ (ends outer.length) := fun b => Closes.ends (b :: blocks) outer
  cases place with
  | body =>
    refine closes_newline rfl (opensTag_ends _) fun t ht _ => ?_
    exact ⟨⟨.body, .text t.text t.pos :: blocks, outer⟩, by simp only [step, stepBody, ht]; rfl, hend _⟩
  | tag opener =>
    cases outer with
    | nil =>
      -- nothing is open, so a condition fits the limit
      refine Closes.space rfl (Closes.fixed .if (utf8 "if") rfl rfl rfl fun t ht => ⟨_, step_if (by decide) ht, ?_⟩)
      exact closes_expr (.cond opener.pos []) .start blocks []
    | cons o outer => exact Closes.endWord rfl (fun _ => Closes.step_end) fun b => Closes.ends (b :: o.2) outer
  | expr use r => exact closes_expr use r blocks outer
  | comment pos =>
    refine Closes.fixed .rBracePound [Byte.pound, Byte.rbrace] rfl trivial rfl fun t ht => ⟨_, ?_, hend (.comment [] pos)⟩
    have hne : t.kind ≠ .comment := by rw [ht]; decide
    exact (if_neg hne).trans (expect_of_eq ht)
  | commentEnd pos c =>
    exact Closes.fixed .rBracePound [Byte.pound, Byte.rbrace] rfl trivial rfl fun t ht =>
      ⟨_, expect_of_eq ht, hend (.comment c pos)⟩
  | elseEnd pos bs =>
    exact Closes.closeTag rfl fun t ht => ⟨_, expect_of_eq ht, Closes.ends [] ((.otherwise pos bs, blocks) :: outer)⟩
  | statementEnd b => exact Closes.closeTag rfl fun t ht => ⟨_, expect_of_eq ht, hend b⟩
  | firstCase pos v =>
    refine closes_newline rfl (opensTag_ends _) fun t ht htext => ⟨⟨.firstCase pos v, blocks, outer⟩, ?_, Closes.firstCase⟩
    have hblank : t.text.all Byte.isSpace = true := by rw [htext]; rfl
    simp only [step, stepFirstCase, ht, hblank, ↓reduceIte]
  | firstCaseTag pos v opener => exact Closes.endWord rfl (fun _ => Closes.step_firstCaseTag) hend

theorem resumes_closing (p : Progress) : p.place.mode.Resumes p.closing := by
  obtain ⟨place, blocks, outer⟩ := p
  cases place with
  | tag opener => cases outer <;> rfl
  | comment | commentEnd => exact ⟨rfl, rfl⟩
  | expr use r => rfl
  | _ => rfl

/-- **Whatever has been read can be completed**: with the tokens of the completion, the tokens that led to a progress
spell a template that fits the limit. -/
theorem spells_closing {p : Progress} {us cs : List Lexeme} (h : start.after? 0 us = some p)
    (hcs : cs.map Lexeme.erase = p.place.mode.words p.closing) :
    ∃ t : Template, SpellsBlocks (us ++ cs) t ∧ t.nesting ≤ maxDepth := by
  obtain ⟨blocks, hread⟩ := p.closes_closing cs hcs
  have hrun : start.after? 0 (us ++ cs) = some ⟨.body, blocks, []⟩ := by
    rw [after?_append, h]
    exact hread
  have hstep : step 0 ⟨.body, blocks, []⟩ ⟨.eof, [], .zero⟩ = .accept blocks.reverse := rfl
  obtain ⟨hb, hd⟩ := ((SpellsProgress.start (Nat.zero_le maxDepth)).after hrun).accept hstep
  rw [Nat.zero_add] at hd
  exact ⟨_, hb, hd⟩

theorem proper_of_after {p : Progress} {us : List Lexeme} (h : start.after? 0 us = some p) : proper us = true := by
  have herase : ∀ s : Bytes, ∀ m : Mode, (m.words s).map Lexeme.erase = m.words s := fun s m => by
    rw [Mode.words, List.map_map]
    rfl
  obtain ⟨t, hb, -⟩ := spells_closing h (herase p.closing p.place.mode)
  have hp := hb.proper
  rw [proper_append, Bool.and_eq_true] at hp
  exact hp.1

theorem isProper_of_shift {p q : Progress} {us : List Lexeme} {t : Lexeme} (h : start.after? 0 us = some p)
    (hs : p.step 0 t = .shift q) : t.kind.isProper = true := by
  have hrun : start.after? 0 (us ++ [t]) = some q := by
    rw [after?_append, h]
    exact after?_shift hs []
  have hp := proper_of_after hrun
  rw [proper_append, proper_cons, proper_nil, Bool.and_true, Bool.and_eq_true] at hp
  exact hp.2

end Progress
end Stencil
