import Stencil.Template.Parser
/-!
# Run — reading many tokens

`Reading.after?` and `Progress.after?` shift a list of tokens one by one.  A run inside an expression is a run of its
tag (`after?_expr`), and what the parser returns is settled by the first token that is not shifted (`runTemplate_ok`).
-/
namespace Stencil

namespace Reading

def shift? (base : Nat) (r : Reading) (t : Lexeme) : Option Reading :=
  match r.step base t with
  | .shift r => some r
  | _ => none

def after? (base : Nat) (r : Reading) (ts : List Lexeme) : Option Reading := ts.foldlM (shift? base) r

theorem shift?_eq_some {base : Nat} {r r' : Reading} {t : Lexeme} :
    r.shift? base t = some r' ↔ r.step base t = .shift r' := by
  unfold shift?
  split <;> simp_all

@[simp] theorem after?_nil (base : Nat) (r : Reading) : r.after? base [] = some r := rfl

@[simp] theorem after?_cons (base : Nat) (r : Reading) (t : Lexeme) (ts : List Lexeme) :
    r.after? base (t :: ts) = (r.shift? base t).bind (·.after? base ts) := rfl

theorem after?_append (base : Nat) (r : Reading) (ts us : List Lexeme) :
    r.after? base (ts ++ us) = (r.after? base ts).bind (·.after? base us) := List.foldlM_append

theorem enter_ne_accept {base : Nat} {pos : Position} {r : Reading} {e : Expr} : enter base pos r ≠ .accept e := by
  unfold enter
  split <;> exact Step.noConfusion

theorem stepOperand_ne_accept {base : Nat} {level : Level} {frames : List Frame} {t : Lexeme} {e : Expr} :
    stepOperand base level frames t ≠ .accept e := by
  unfold stepOperand
  split
  · exact enter_ne_accept
  · exact enter_ne_accept
  all_goals exact Step.noConfusion

theorem stepComplete_eq_accept {base : Nat} {pending : Option (Expr × BinOp)} {frames : List Frame} {t : Lexeme}
    {a e : Expr} (h : stepComplete base pending frames a t = .accept e) :
    frames = [] ∧ t.kind ≠ .pipe ∧ t.kind.binOp? = none ∧ e = a.joined pending := by
  unfold stepComplete at h
  split at h
  · cases h
  · rename_i hpipe
    split at h
    · cases h
    · rename_i hop
      unfold stepEnd at h
      split at h <;> cases h
      exact ⟨rfl, hpipe, hop, rfl⟩

/-- The operand that has been read of a level, with the `!`s in front of it applied. -/
def operand? (r : Reading) : Option Expr :=
  match r.phase with
  | .named x => some ((Expr.var x).negated r.level.nots)
  | .complete a => some a
  | _ => none

/-- **An expression is accepted where no parenthesis and no call is open**, behind an operand and in front of a token that
is no pipe and no operator. -/
theorem step_eq_accept {base : Nat} {r : Reading} {t : Lexeme} {e : Expr} (h : r.step base t = .accept e) :
    r.frames = [] ∧ t.kind ≠ .pipe ∧ t.kind.binOp? = none ∧
      ∃ a, r.operand? = some a ∧ e = a.joined r.level.pending := by
  obtain ⟨phase, level, frames⟩ := r
  cases phase with
  | operand => exact absurd h stepOperand_ne_accept
  | firstArg =>
    simp only [step, stepFirstArg] at h
    split at h
    · cases h
    · exact absurd h stepOperand_ne_accept
  | named x =>
    simp only [step, stepNamed] at h
    split at h
    · exact absurd h enter_ne_accept
    · obtain ⟨hframes, hpipe, hop, he⟩ := stepComplete_eq_accept h
      exact ⟨hframes, hpipe, hop, _, rfl, he⟩
  | complete a =>
    obtain ⟨hframes, hpipe, hop, he⟩ := stepComplete_eq_accept h
    exact ⟨hframes, hpipe, hop, a, rfl, he⟩
  | function a =>
    simp only [step, stepFunction] at h
    split at h <;> cases h

end Reading

/-- The number of statements that are open around the expression of a tag, apart from the bodies around the tag. -/
def Use.depth : Use → Nat
  | .render => 0
  | .cond .. | .switch .. | .pattern .. => 1

namespace Progress

def shift? (base : Nat) (p : Progress) (t : Lexeme) : Option Progress :=
  match p.step base t with
  | .shift p => some p
  | _ => none

def after? (base : Nat) (p : Progress) (ts : List Lexeme) : Option Progress := ts.foldlM (shift? base) p

theorem shift?_eq_some {base : Nat} {p p' : Progress} {t : Lexeme} :
    p.shift? base t = some p' ↔ p.step base t = .shift p' := by
  unfold shift?
  split <;> simp_all

@[simp] theorem after?_nil (base : Nat) (p : Progress) : p.after? base [] = some p := rfl

@[simp] theorem after?_cons (base : Nat) (p : Progress) (t : Lexeme) (ts : List Lexeme) :
    p.after? base (t :: ts) = (p.shift? base t).bind (·.after? base ts) := rfl

theorem after?_append (base : Nat) (p : Progress) (ts us : List Lexeme) :
    p.after? base (ts ++ us) = (p.after? base ts).bind (·.after? base us) := List.foldlM_append

/-- The number of constructs that are open around an expression that is read for `use` inside `outer`. -/
def around (base : Nat) (outer : List (Opening × List Block)) (use : Use) : Nat := base + outer.length + use.depth

theorem step_expr {base : Nat} {use : Use} {bs : List Block} {outer : List (Opening × List Block)} {r : Reading}
    {t : Lexeme} : Progress.step base ⟨.expr use r, bs, outer⟩ t =
      match r.step (around base outer use) t with
      | .shift r => .shift ⟨.expr use r, bs, outer⟩
      | .accept e => stepUse base ⟨.expr use .start, bs, outer⟩ use e t
      | .fail e depth standing => .fail e depth standing := by
  cases use <;> rfl

theorem shift?_expr {base : Nat} {use : Use} {bs : List Block} {outer : List (Opening × List Block)} {r r' : Reading}
    {t : Lexeme} (h : r.shift? (around base outer use) t = some r') :
    Progress.shift? base ⟨.expr use r, bs, outer⟩ t = some ⟨.expr use r', bs, outer⟩ := by
  rw [shift?_eq_some, step_expr, Reading.shift?_eq_some.1 h]

theorem after?_expr {base : Nat} {use : Use} {bs : List Block} {outer : List (Opening × List Block)} {r' : Reading} :
    ∀ {ts : List Lexeme} {r : Reading}, r.after? (around base outer use) ts = some r' →
      Progress.after? base ⟨.expr use r, bs, outer⟩ ts = some ⟨.expr use r', bs, outer⟩
  | [], r, h => by
    cases h
    rfl
  | t :: ts, r, h => by
    rw [Reading.after?_cons, Option.bind_eq_some_iff] at h
    obtain ⟨r₁, hr, h⟩ := h
    rw [after?_cons, shift?_expr hr]
    exact after?_expr h

end Progress

namespace Parser

theorem runTemplate_append {eof : Lexeme} {base : Nat} {us : List Lexeme} {p' : Progress} :
    ∀ {ts : List Lexeme} {p : Progress}, p.after? base ts = some p' →
      runTemplate eof base p (ts ++ us) = runTemplate eof base p' us
  | [], p, h => by
    cases h
    rfl
  | t :: ts, p, h => by
    rw [Progress.after?_cons, Option.bind_eq_some_iff] at h
    obtain ⟨p₁, hp, h⟩ := h
    rw [List.cons_append, runTemplate, Progress.shift?_eq_some.1 hp]
    exact runTemplate_append h

/-- **What a template read in full says about the run**: some of the tokens were shifted, and the next one was
accepted. -/
theorem runTemplate_ok {eof : Lexeme} {base : Nat} {tpl : Template} {q : Parser} :
    ∀ {ts : List Lexeme} {p : Progress}, runTemplate eof base p ts = (.ok tpl, q) →
      ∃ us vs p', ts = us ++ vs ∧ p.after? base us = some p' ∧ p'.step base (vs.headD eof) = .accept tpl
  | [], p, h => by
    rw [runTemplate] at h
    split at h
    · rename_i t' ht
      simp only [Prod.mk.injEq, Except.ok.injEq] at h
      exact ⟨[], [], p, rfl, rfl, by rw [← h.1]; exact ht⟩
    · cases h
    · cases h
  | t :: ts, p, h => by
    rw [runTemplate] at h
    split at h
    · rename_i p₁ hp
      obtain ⟨us, vs, p', rfl, hrun, hacc⟩ := runTemplate_ok h
      refine ⟨t :: us, vs, p', rfl, ?_, hacc⟩
      rw [Progress.after?_cons, Progress.shift?_eq_some.2 hp]
      exact hrun
    · rename_i t' ht
      simp only [Prod.mk.injEq, Except.ok.injEq] at h
      exact ⟨[], t :: ts, p, rfl, rfl, by rw [← h.1]; exact ht⟩
    · cases h

/-- **What an error says about the run**: some of the tokens were shifted, and reading failed at the next one.  Or the end
was shifted, which no reading from the start does. -/
theorem runTemplate_error {eof : Lexeme} {base : Nat} {e : ParseError} {q : Parser} :
    ∀ {ts : List Lexeme} {p : Progress}, runTemplate eof base p ts = (.error e, q) →
      ∃ us vs p', ts = us ++ vs ∧ p.after? base us = some p' ∧
        ((∃ depth standing, p'.step base (vs.headD eof) = .fail e depth standing) ∨ ∃ p'', p'.step base eof = .shift p'')
  | [], p, h => by
    refine ⟨[], [], p, rfl, rfl, ?_⟩
    rw [runTemplate] at h
    split at h
    · cases h
    · rename_i e' depth standing hf
      simp only [Prod.mk.injEq, Except.error.injEq] at h
      exact .inl ⟨depth, standing, h.1 ▸ hf⟩
    · rename_i p'' hp
      exact .inr ⟨p'', hp⟩
  | t :: ts, p, h => by
    rw [runTemplate] at h
    split at h
    · rename_i p₁ hp
      obtain ⟨us, vs, p', rfl, hrun, hfail⟩ := runTemplate_error h
      refine ⟨t :: us, vs, p', rfl, ?_, hfail⟩
      rw [Progress.after?_cons, Progress.shift?_eq_some.2 hp]
      exact hrun
    · cases h
    · rename_i e' depth standing hf
      simp only [Prod.mk.injEq, Except.error.injEq] at h
      exact ⟨[], t :: ts, p, rfl, rfl, .inl ⟨depth, standing, h.1 ▸ hf⟩⟩

end Parser
end Stencil
