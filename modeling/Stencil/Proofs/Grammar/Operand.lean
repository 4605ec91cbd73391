import Stencil.Proofs.Grammar.Operators
import Stencil.Proofs.Grammar.Run
/-!
# Operand — every expression of the grammar is read

The tokens of an expression are shifted one by one, and lead to where its last operand has been read
(`SpellsExpr.read`).  A level reads an operation operand by operand, so what a derivation gives as one operand is in the
machine a waiting tree and a last operand; `Expr.joined` is what the two have in common.
-/
namespace Stencil
namespace Grammar

open Reading (framesDepth)

/-- The last operand `e` of a level has been read; a bare name may still turn out to be called. -/
inductive ReadOperand (pending : Option (Expr × BinOp)) (frames : List Frame) : Expr → Reading → Prop
  | complete {e : Expr} : ReadOperand pending frames e ⟨.complete e, ⟨pending, []⟩, frames⟩
  | named {x : Ident} {nots : List Position} :
      ReadOperand pending frames ((Expr.var x).negated nots) ⟨.named x, ⟨pending, nots⟩, frames⟩

theorem ReadOperand.step {base : Nat} {pending : Option (Expr × BinOp)} {frames : List Frame} {e : Expr} {r : Reading}
    {t : Lexeme} (h : ReadOperand pending frames e r) (ht : t.kind ≠ .lParen) :
    r.step base t = Reading.stepComplete base pending frames e t := by
  cases h with
  | complete => rfl
  | named => simp only [Reading.step, Reading.stepNamed, if_neg ht]

theorem ReadOperand.shift_paren {base : Nat} {pending : Option (Expr × BinOp)} {pos : Position} {outer : Level}
    {frames : List Frame} {e : Expr} {r : Reading} {c : Lexeme}
    (h : ReadOperand pending (.paren pos outer :: frames) e r) (hc : c.kind = .rParen) :
    r.shift? base c = some (Reading.operandRead outer frames (.paren (e.joined pending) pos)) := by
  rw [Reading.shift?_eq_some, h.step (by rw [hc]; decide)]
  simp only [Reading.stepComplete, Reading.stepEnd, hc, reduceCtorEq, ↓reduceIte, TokenKind.binOp?]

theorem ReadOperand.shift_call {base : Nat} {pending : Option (Expr × BinOp)} {func : Ident} {args : List Expr}
    {outer : Level} {frames : List Frame} {e : Expr} {r : Reading} {c : Lexeme}
    (h : ReadOperand pending (.call func args outer :: frames) e r) (hc : c.kind = .rParen) :
    r.shift? base c = some (Reading.operandRead outer frames (.call func (e.joined pending :: args).reverse)) := by
  rw [Reading.shift?_eq_some, h.step (by rw [hc]; decide)]
  simp only [Reading.stepComplete, Reading.stepEnd, hc, reduceCtorEq, ↓reduceIte, TokenKind.binOp?]

theorem ReadOperand.shift_comma {base : Nat} {pending : Option (Expr × BinOp)} {func : Ident} {args : List Expr}
    {outer : Level} {frames : List Frame} {e : Expr} {r : Reading} {c : Lexeme}
    (h : ReadOperand pending (.call func args outer :: frames) e r) (hc : c.kind = .comma) :
    r.shift? base c = some ⟨.operand, .start, .call func (e.joined pending :: args) outer :: frames⟩ := by
  rw [Reading.shift?_eq_some, h.step (by rw [hc]; decide)]
  simp only [Reading.stepComplete, Reading.stepEnd, hc, reduceCtorEq, ↓reduceIte, TokenKind.binOp?]

theorem ReadOperand.shift_pipe {base : Nat} {pending : Option (Expr × BinOp)} {frames : List Frame} {e : Expr}
    {r : Reading} {b : Lexeme} (h : ReadOperand pending frames e r) (hb : b.kind = .pipe) :
    r.shift? base b = some ⟨.function e, ⟨pending, []⟩, frames⟩ := by
  rw [Reading.shift?_eq_some, h.step (by rw [hb]; decide), Reading.stepComplete, if_pos hb]

theorem ReadOperand.shift_op {base : Nat} {pending : Option (Expr × BinOp)} {frames : List Frame} {e : Expr}
    {r : Reading} {t : Lexeme} {op : BinOp} (h : ReadOperand pending frames e r) (ht : t.kind.binOp? = some op) :
    r.shift? base t = some ⟨.operand, ⟨some (e.joined pending, op), []⟩, frames⟩ := by
  have h₁ : t.kind ≠ .lParen := fun hk => by rw [hk] at ht; cases ht
  have h₂ : t.kind ≠ .pipe := fun hk => by rw [hk] at ht; cases ht
  rw [Reading.shift?_eq_some, h.step h₁, Reading.stepComplete, if_neg h₂, ht]

/-- A token that can neither go on with an expression nor turn its last name into a call. -/
def EndsExpr (k : TokenKind) : Prop := k ≠ .lParen ∧ k ≠ .pipe ∧ k.binOp? = none

theorem ReadOperand.accept {base : Nat} {pending : Option (Expr × BinOp)} {e : Expr} {r : Reading} {t : Lexeme}
    (h : ReadOperand pending [] e r) (ht : EndsExpr t.kind) : r.step base t = .accept (e.joined pending) := by
  obtain ⟨h₁, h₂, h₃⟩ := ht
  rw [h.step h₁, Reading.stepComplete, if_neg h₂, h₃]
  rfl

section

variable {base : Nat} {level : Level} {frames : List Frame} {t : Lexeme}

theorem enter_of_le {pos : Position} {r : Reading} (h : base + r.depth ≤ maxDepth) :
    Reading.enter base pos r = .shift r := if_neg (Nat.not_lt.2 h)

theorem shift?_bang (ht : t.kind = .bang) (hd : base + level.nots.length + framesDepth frames + 1 ≤ maxDepth) :
    Reading.shift? base ⟨.operand, level, frames⟩ t =
      some ⟨.operand, ⟨level.pending, t.pos :: level.nots⟩, frames⟩ := by
  rw [Reading.shift?_eq_some]
  simp only [Reading.step, Reading.stepOperand, ht]
  refine enter_of_le ?_
  simp only [Reading.depth, List.length_cons]
  omega

theorem shift?_lParen (ht : t.kind = .lParen) (hd : base + level.nots.length + framesDepth frames + 1 ≤ maxDepth) :
    Reading.shift? base ⟨.operand, level, frames⟩ t = some ⟨.operand, .start, .paren t.pos level :: frames⟩ := by
  rw [Reading.shift?_eq_some]
  simp only [Reading.step, Reading.stepOperand, ht]
  refine enter_of_le ?_
  simp only [Reading.depth, Level.start, List.length_nil, framesDepth]
  omega

theorem shift?_name (ht : t.kind = .identifier) :
    Reading.shift? base ⟨.operand, level, frames⟩ t = some ⟨.named t.ident, level, frames⟩ := by
  rw [Reading.shift?_eq_some]
  simp only [Reading.step, Reading.stepOperand, ht]

theorem shift?_call {x : Ident} (ht : t.kind = .lParen)
    (hd : base + level.nots.length + framesDepth frames + 1 ≤ maxDepth) :
    Reading.shift? base ⟨.named x, level, frames⟩ t = some ⟨.firstArg, .start, .call x [] level :: frames⟩ := by
  rw [Reading.shift?_eq_some]
  simp only [Reading.step, Reading.stepNamed, ht, ↓reduceIte]
  refine enter_of_le ?_
  simp only [Reading.depth, Level.start, List.length_nil, framesDepth]
  omega

theorem shift?_firstArg {r : Reading} (h : Reading.shift? base ⟨.operand, level, frames⟩ t = some r) :
    Reading.shift? base ⟨.firstArg, level, frames⟩ t = some r := by
  rw [Reading.shift?_eq_some] at h ⊢
  have hr : t.kind ≠ .rParen := fun hk => by simp [Reading.step, Reading.stepOperand, hk] at h
  simp only [Reading.step, Reading.stepFirstArg]
  split
  · rename_i hk
    exact absurd hk hr
  · exact h

theorem after?_firstArg {r : Reading} {ts : List Lexeme} {c : Lexeme}
    (h : Reading.after? base ⟨.operand, level, frames⟩ (ts ++ [c]) = some r) :
    Reading.after? base ⟨.firstArg, level, frames⟩ (ts ++ [c]) = some r := by
  cases ts with
  | nil | cons =>
    simp only [List.nil_append, List.cons_append, Reading.after?_cons, Option.bind_eq_some_iff] at h ⊢
    obtain ⟨r', hr', h⟩ := h
    exact ⟨r', shift?_firstArg hr', h⟩

end

/-- A stratum fits a level: the operator that waits binds less tightly, and only an operand may follow `!`. -/
structure Fits (p : Stratum) (level : Level) : Prop where
  nots : level.nots = [] ∨ Stratum.unary.rank ≤ p.rank
  pending : ∀ e op, level.pending = some (e, op) → op.precedence < p.rank

theorem Fits.start : Fits .or .start := ⟨.inl rfl, fun _ _ h => by cases h⟩

theorem Fits.tighter {p q : Stratum} {level : Level} (h : Fits p level) (hq : p.tighter? = some q) : Fits q level := by
  have hr := Stratum.rank_tighter hq
  refine ⟨h.nots.imp id (fun hn => by omega), fun e op hp => ?_⟩
  have := h.pending e op hp
  omega

/-- An operation that fits is joined to what waits as a whole or operand by operand. -/
theorem joined_binary {p : Stratum} {level : Level} {op : BinOp} {l r : Expr} (h : Fits p level) (hp : op.stratum = p)
    (hl : l.Tight p.rank) :
    r.joined (some (l.joined level.pending, op)) = (Expr.binary op l r).joined level.pending := by
  rw [← hp, op.rank_stratum] at hl
  cases hpd : level.pending with
  | none => exact Expr.extend_of_tight r hl
  | some w =>
    have ho := h.pending w.1 w.2 hpd
    rw [← hp, op.rank_stratum] at ho
    exact Expr.extend_extend ho hl r w.1

mutual

/-- **The tokens of an expression are shifted**, up to where its last operand has been read. -/
theorem SpellsExpr.read (base : Nat) : ∀ {p : Stratum} {ts : List Lexeme} {e : Expr}, SpellsExpr p ts e →
    ∀ (level : Level) (frames : List Frame), Fits p level →
      base + level.nots.length + framesDepth frames + e.nesting ≤ maxDepth →
      ∃ r pending e', Reading.after? base ⟨.operand, level, frames⟩ ts = some r ∧ ReadOperand pending frames e' r ∧
        e'.joined pending = (e.negated level.nots).joined level.pending ∧
        (Stratum.pipe.rank ≤ p.rank → pending = level.pending ∧ e' = e.negated level.nots)
  | _, _, _, .var ht, level, frames, _, _ =>
    ⟨_, level.pending, _, by rw [Reading.after?_cons, shift?_name ht]; rfl, .named, rfl, fun _ => ⟨rfl, rfl⟩⟩
  | _, _, _, .string ht, level, frames, _, _ => by
    refine ⟨_, level.pending, _, ?_, .complete, rfl, fun _ => ⟨rfl, rfl⟩⟩
    simp [Reading.shift?, Reading.step, Reading.stepOperand, ht, Reading.operandRead]
  | _, _, _, .true ht, level, frames, _, _ => by
    refine ⟨_, level.pending, _, ?_, .complete, rfl, fun _ => ⟨rfl, rfl⟩⟩
    simp [Reading.shift?, Reading.step, Reading.stepOperand, ht, Reading.operandRead]
  | _, _, _, .false ht, level, frames, _, _ => by
    refine ⟨_, level.pending, _, ?_, .complete, rfl, fun _ => ⟨rfl, rfl⟩⟩
    simp [Reading.shift?, Reading.step, Reading.stepOperand, ht, Reading.operandRead]
  | _, _, _, @SpellsExpr.paren o c ts e ho he hc, level, frames, _, hd => by
    simp only [Expr.nesting] at hd
    have hd' : base + framesDepth (.paren o.pos level :: frames) + e.nesting ≤ maxDepth := by
      simp only [framesDepth]
      omega
    obtain ⟨r, pending, e', hrun, hread, hj, -⟩ := he.read base .start (.paren o.pos level :: frames) .start hd'
    refine ⟨_, level.pending, _, ?_, .complete, rfl, fun _ => ⟨rfl, rfl⟩⟩
    rw [Reading.after?_cons, shift?_lParen ho (by omega), Option.bind_some, Reading.after?_append, hrun, Option.bind_some,
      Reading.after?_cons, hread.shift_paren hc, hj]
    rfl
  | _, _, _, .emptyCall hf ho hc, level, frames, _, hd => by
    simp only [Expr.nesting, Expr.nestingList] at hd
    refine ⟨_, level.pending, _, ?_, .complete, rfl, fun _ => ⟨rfl, rfl⟩⟩
    rw [Reading.after?_cons, shift?_name hf, Option.bind_some, Reading.after?_cons, shift?_call ho (by omega)]
    simp [Reading.shift?, Reading.step, Reading.stepFirstArg, hc, Reading.operandRead]
  | _, _, _, @SpellsExpr.call f o c ts es hf ho hes hc, level, frames, _, hd => by
    simp only [Expr.nesting] at hd
    have hrun := hes.read base f.ident [] level frames hc (by simp only [framesDepth]; omega)
    refine ⟨_, level.pending, _, ?_, .complete, rfl, fun _ => ⟨rfl, rfl⟩⟩
    rw [Reading.after?_cons, shift?_name hf, Option.bind_some, Reading.after?_cons, shift?_call ho (by omega)]
    exact after?_firstArg hrun
  | _, _, _, @SpellsExpr.not t ts e ht he, level, frames, _, hd => by
    simp only [Expr.nesting] at hd
    have hfit : Fits .unary ⟨level.pending, t.pos :: level.nots⟩ :=
      ⟨.inr (Nat.le_refl _), fun _ op _ => Nat.lt_trans op.precedence_lt (by decide)⟩
    obtain ⟨r, pending, e', hrun, hread, hj, hp⟩ := he.read base ⟨level.pending, t.pos :: level.nots⟩ frames hfit
      (by simp only [List.length_cons]; omega)
    refine ⟨r, pending, e', ?_, hread, hj, hp⟩
    rw [Reading.after?_cons, shift?_bang ht (by omega)]
    exact hrun
  | _, _, _, @SpellsExpr.pipe b f ts e he hb hf, level, frames, hfit, hd => by
    obtain ⟨r, pending, e', hrun, hread, -, hp⟩ := he.read base level frames hfit hd
    obtain ⟨rfl, rfl⟩ := hp (Nat.le_refl _)
    have hn : level.nots = [] := hfit.nots.resolve_right (by decide)
    rw [hn] at hread ⊢
    refine ⟨_, level.pending, _, ?_, .complete, rfl, fun _ => ⟨rfl, rfl⟩⟩
    rw [Reading.after?_append, hrun, Option.bind_some, Reading.after?_cons, hread.shift_pipe hb]
    simp [Reading.shift?, Reading.step, Reading.stepFunction, hf, Expr.negated]
  | p, _, _, @SpellsExpr.binary _ _ o op ts us l r hp hq hl ho hr, level, frames, hfit, hd => by
    simp only [Expr.nesting] at hd
    have hpr : p.rank = op.precedence := by rw [← hp, op.rank_stratum]
    have hop := op.precedence_lt
    have hun : Stratum.pipe.rank < Stratum.unary.rank := by decide
    have hn : level.nots = [] := hfit.nots.resolve_right (by omega)
    obtain ⟨r₁, pending₁, e₁, hrun₁, hread₁, hj₁, -⟩ := hl.read base level frames hfit (by omega)
    rw [hn] at hj₁ ⊢
    -- the left operand, joined to what waits, is what waits for the right one
    have hfit' : Fits _ ⟨some (l.joined level.pending, op), []⟩ :=
      ⟨.inl rfl, fun _ _ h => by cases h; rw [Stratum.rank_tighter hq]; omega⟩
    obtain ⟨r₂, pending₂, e₂, hrun₂, hread₂, hj₂, -⟩ :=
      hr.read base ⟨some (l.joined level.pending, op), []⟩ frames hfit' (by simp only [List.length_nil]; omega)
    refine ⟨r₂, pending₂, e₂, ?_, hread₂, ?_, fun h => ?_⟩
    · rw [Reading.after?_append, hrun₁, Option.bind_some, Reading.after?_cons, hread₁.shift_op ho, hj₁]
      exact hrun₂
    · rw [hj₂]
      exact joined_binary hfit hp hl.tight
    · omega
  | p, _, _, .tighter hq he, level, frames, hfit, hd => by
    obtain ⟨r, pending, e', hrun, hread, hj, hp⟩ := he.read base level frames (hfit.tighter hq) hd
    exact ⟨r, pending, e', hrun, hread, hj, fun h => hp (by rw [Stratum.rank_tighter hq]; omega)⟩

theorem SpellsExprs.read (base : Nat) : ∀ {ts : List Lexeme} {es : List Expr}, SpellsExprs ts es →
    ∀ (func : Ident) (args : List Expr) (outer : Level) (frames : List Frame) {c : Lexeme}, c.kind = .rParen →
      base + framesDepth (.call func args outer :: frames) + Expr.nestingList es ≤ maxDepth →
      Reading.after? base ⟨.operand, .start, .call func args outer :: frames⟩ (ts ++ [c]) =
        some (Reading.operandRead outer frames (.call func (args.reverse ++ es)))
  | _, _, .one he, func, args, outer, frames, c, hc, hd => by
    simp only [Expr.nestingList] at hd
    obtain ⟨r, pending, e', hrun, hread, hj, -⟩ := he.read base .start (.call func args outer :: frames) .start
      (by simp only [Level.start, List.length_nil]; omega)
    rw [Reading.after?_append, hrun, Option.bind_some, Reading.after?_cons, hread.shift_call hc, hj, List.reverse_cons]
    rfl
  | _, _, .cons he hk hes, func, args, outer, frames, c, hc, hd => by
    simp only [Expr.nestingList] at hd
    obtain ⟨r, pending, e', hrun, hread, hj, -⟩ := he.read base .start (.call func args outer :: frames) .start
      (by simp only [Level.start, List.length_nil]; omega)
    rw [List.append_assoc, Reading.after?_append, hrun, Option.bind_some, List.cons_append, Reading.after?_cons,
      hread.shift_comma hk, Option.bind_some,
      hes.read base func _ outer frames hc (by simp only [framesDepth] at hd ⊢; omega), hj, List.reverse_cons,
      List.append_assoc]
    rfl

end

/-- **An expression of the grammar is read in full**: its tokens are shifted, and it is accepted in front of every
token that ends it. -/
theorem SpellsExpr.read_all {base : Nat} {ts : List Lexeme} {e : Expr} (h : SpellsExpr .or ts e)
    (hd : base + e.nesting ≤ maxDepth) : ∃ r, Reading.start.after? base ts = some r ∧
      ∀ t : Lexeme, EndsExpr t.kind → r.step base t = .accept e := by
  obtain ⟨r, pending, e', hrun, hread, hj, -⟩ := h.read base .start [] .start hd
  refine ⟨r, hrun, fun t ht => ?_⟩
  rw [hread.accept ht, hj]
  rfl

end Grammar
end Stencil
