import Stencil.Template.Reading
/-!
# Grammar — which tokens spell which template

The grammar of templates, as relations between tokens and the trees they spell.  Expressions are stratified: a
`Stratum` for each strength of binding, and an operator's left operand is of its own stratum, the right one of the next
tighter stratum, so that every operator binds to the left.  Repetitions are lists.  The relations know nothing of how
tokens are read.

How deeply constructs nest is counted on the tree (`Expr.nesting`, `Block.nesting`): parentheses, `!`, calls and
statements count, along the deepest path.
-/
namespace Stencil

/-- The strata of expressions, the loosest first. -/
inductive Stratum
  | or | and | equality | concat | pipe | unary | primary
deriving DecidableEq, Repr

namespace Stratum

def tighter? : Stratum → Option Stratum
  | .or => some .and
  | .and => some .equality
  | .equality => some .concat
  | .concat => some .pipe
  | .pipe => some .unary
  | .unary => some .primary
  | .primary => none

def rank : Stratum → Nat
  | .or => 1
  | .and => 2
  | .equality => 3
  | .concat => 4
  | .pipe => 5
  | .unary => 6
  | .primary => 7

theorem rank_tighter {p q : Stratum} (h : p.tighter? = some q) : q.rank = p.rank + 1 := by
  cases p <;> cases h <;> rfl

theorem rank_inj {p q : Stratum} (h : p.rank = q.rank) : p = q := by
  cases p <;> cases q <;> first | rfl | cases h

theorem exists_tighter {p q : Stratum} (h : p.rank < q.rank) : ∃ p', p.tighter? = some p' := by
  cases p with
  | primary => cases q <;> simp [rank] at h
  | _ => exact ⟨_, rfl⟩

end Stratum

def BinOp.stratum : BinOp → Stratum
  | .or => .or
  | .and => .and
  | .eq => .equality
  | .ne => .equality
  | .concat => .concat

theorem BinOp.rank_stratum (op : BinOp) : op.stratum.rank = op.precedence := by cases op <;> rfl

theorem BinOp.stratum_eq {op : BinOp} {p : Stratum} (h : op.precedence = p.rank) : op.stratum = p :=
  Stratum.rank_inj (op.rank_stratum.trans h)

theorem BinOp.le_precedence (op : BinOp) : Stratum.or.rank ≤ op.precedence := by cases op <;> decide

theorem BinOp.precedence_lt (op : BinOp) : op.precedence < Stratum.pipe.rank := by cases op <;> decide

namespace Grammar

mutual

/-- The tokens of an expression of a stratum. -/
inductive SpellsExpr : Stratum → List Lexeme → Expr → Prop
  | var {t : Lexeme} (ht : t.kind = .identifier) : SpellsExpr .primary [t] (.var t.ident)
  | string {t : Lexeme} (ht : t.kind = .stringLiteral) : SpellsExpr .primary [t] (.lit (.string t.body) t.pos)
  | true {t : Lexeme} (ht : t.kind = .true) : SpellsExpr .primary [t] (.lit (.bool true) t.pos)
  | false {t : Lexeme} (ht : t.kind = .false) : SpellsExpr .primary [t] (.lit (.bool false) t.pos)
  | paren {o c : Lexeme} {ts : List Lexeme} {e : Expr} (ho : o.kind = .lParen) (he : SpellsExpr .or ts e)
      (hc : c.kind = .rParen) : SpellsExpr .primary (o :: (ts ++ [c])) (.paren e o.pos)
  | emptyCall {f o c : Lexeme} (hf : f.kind = .identifier) (ho : o.kind = .lParen) (hc : c.kind = .rParen) :
      SpellsExpr .primary [f, o, c] (.call f.ident [])
  | call {f o c : Lexeme} {ts : List Lexeme} {es : List Expr} (hf : f.kind = .identifier) (ho : o.kind = .lParen)
      (hes : SpellsExprs ts es) (hc : c.kind = .rParen) : SpellsExpr .primary (f :: o :: (ts ++ [c])) (.call f.ident es)
  | not {t : Lexeme} {ts : List Lexeme} {e : Expr} (ht : t.kind = .bang) (he : SpellsExpr .unary ts e) :
      SpellsExpr .unary (t :: ts) (.not e t.pos)
  | pipe {b f : Lexeme} {ts : List Lexeme} {e : Expr} (he : SpellsExpr .pipe ts e) (hb : b.kind = .pipe)
      (hf : f.kind = .identifier) : SpellsExpr .pipe (ts ++ [b, f]) (.pipe e f.ident)
  | binary {p q : Stratum} {o : Lexeme} {op : BinOp} {ts us : List Lexeme} {l r : Expr} (hp : op.stratum = p)
      (hq : p.tighter? = some q) (hl : SpellsExpr p ts l) (ho : o.kind.binOp? = some op) (hr : SpellsExpr q us r) :
      SpellsExpr p (ts ++ o :: us) (.binary op l r)
  | tighter {p q : Stratum} {ts : List Lexeme} {e : Expr} (hq : p.tighter? = some q) (he : SpellsExpr q ts e) :
      SpellsExpr p ts e

inductive SpellsExprs : List Lexeme → List Expr → Prop
  | one {ts : List Lexeme} {e : Expr} (he : SpellsExpr .or ts e) : SpellsExprs ts [e]
  | cons {c : Lexeme} {ts us : List Lexeme} {e : Expr} {es : List Expr} (he : SpellsExpr .or ts e)
      (hc : c.kind = .comma) (hes : SpellsExprs us es) : SpellsExprs (ts ++ c :: us) (e :: es)

end

inductive SpellsEnd : List Lexeme → Prop
  | mk {o w c : Lexeme} (ho : o.kind = .lBracePercent) (hw : w.kind = .end) (hc : c.kind = .rBracePercent) :
      SpellsEnd [o, w, c]

/-- Text that is nothing but white space. -/
def IsBlank (t : Lexeme) : Prop := t.kind = .text ∧ t.text.all Byte.isSpace = true

mutual

inductive SpellsBlock : List Lexeme → Block → Prop
  | text {t : Lexeme} (ht : t.kind = .text) : SpellsBlock [t] (.text t.text t.pos)
  | comment {o t c : Lexeme} (ho : o.kind = .lBracePound) (ht : t.kind = .comment) (hc : c.kind = .rBracePound) :
      SpellsBlock [o, t, c] (.comment t.text o.pos)
  | emptyComment {o c : Lexeme} (ho : o.kind = .lBracePound) (hc : c.kind = .rBracePound) :
      SpellsBlock [o, c] (.comment [] o.pos)
  | render {o c : Lexeme} {ts : List Lexeme} {e : Expr} (ho : o.kind = .lDoubleBrace) (he : SpellsExpr .or ts e)
      (hc : c.kind = .rDoubleBrace) : SpellsBlock (o :: (ts ++ [c])) (.render e)
  | cond {o : Lexeme} {ts us vs : List Lexeme} {b : Expr × List Block} {bs : List (Expr × List Block)}
      (ho : o.kind = .lBracePercent) (hb : SpellsBranch .if ts b) (hbs : SpellsElseifs us bs) (he : SpellsEnd vs) :
      SpellsBlock (o :: (ts ++ (us ++ vs))) (.cond (b :: bs) none o.pos)
  | condElse {o p w c : Lexeme} {ts us vs xs : List Lexeme} {b : Expr × List Block} {bs : List (Expr × List Block)}
      {body : List Block} (ho : o.kind = .lBracePercent) (hb : SpellsBranch .if ts b) (hbs : SpellsElseifs us bs)
      (hp : p.kind = .lBracePercent) (hw : w.kind = .else) (hc : c.kind = .rBracePercent) (hbody : SpellsBlocks xs body)
      (he : SpellsEnd vs) :
      SpellsBlock (o :: (ts ++ (us ++ p :: w :: c :: (xs ++ vs)))) (.cond (b :: bs) (some body) o.pos)
  | switch {o w c : Lexeme} {ts ws us vs : List Lexeme} {v : Expr} {cs : List (List Expr × List Block)}
      (ho : o.kind = .lBracePercent) (hw : w.kind = .switch) (hv : SpellsExpr .or ts v) (hc : c.kind = .rBracePercent)
      (hws : ∀ t ∈ ws, IsBlank t) (hcs : SpellsCases us cs) (he : SpellsEnd vs) :
      SpellsBlock (o :: w :: (ts ++ c :: (ws ++ (us ++ vs)))) (.switch v cs o.pos)

inductive SpellsBlocks : List Lexeme → List Block → Prop
  | nil : SpellsBlocks [] []
  | cons {ts us : List Lexeme} {b : Block} {bs : List Block} (hb : SpellsBlock ts b) (hbs : SpellsBlocks us bs) :
      SpellsBlocks (ts ++ us) (b :: bs)

/-- The tokens of a branch from its word on: the word, the condition, the end of the tag, the body. -/
inductive SpellsBranch : TokenKind → List Lexeme → Expr × List Block → Prop
  | mk {word : TokenKind} {w c : Lexeme} {ts us : List Lexeme} {e : Expr} {body : List Block} (hw : w.kind = word)
      (he : SpellsExpr .or ts e) (hc : c.kind = .rBracePercent) (hbody : SpellsBlocks us body) :
      SpellsBranch word (w :: (ts ++ c :: us)) (e, body)

inductive SpellsElseifs : List Lexeme → List (Expr × List Block) → Prop
  | nil : SpellsElseifs [] []
  | cons {o : Lexeme} {ts us : List Lexeme} {b : Expr × List Block} {bs : List (Expr × List Block)}
      (ho : o.kind = .lBracePercent) (hb : SpellsBranch .elseif ts b) (hbs : SpellsElseifs us bs) :
      SpellsElseifs (o :: (ts ++ us)) (b :: bs)

inductive SpellsCases : List Lexeme → List (List Expr × List Block) → Prop
  | nil : SpellsCases [] []
  | cons {o w c : Lexeme} {ts us vs : List Lexeme} {ps : List Expr} {body : List Block}
      {cs : List (List Expr × List Block)} (ho : o.kind = .lBracePercent) (hw : w.kind = .case)
      (hps : SpellsExprs ts ps) (hc : c.kind = .rBracePercent) (hbody : SpellsBlocks us body) (hcs : SpellsCases vs cs) :
      SpellsCases (o :: w :: (ts ++ c :: (us ++ vs))) ((ps, body) :: cs)

end

variable {us : List Lexeme}

theorem SpellsExprs.ne_nil {ts : List Lexeme} {es : List Expr} (h : SpellsExprs ts es) : es ≠ [] := by
  cases h <;> exact List.cons_ne_nil _ _

theorem SpellsExprs.snoc {c : Lexeme} {e : Expr} (hc : c.kind = .comma) (he : SpellsExpr .or us e) :
    ∀ {ts : List Lexeme} {es : List Expr}, SpellsExprs ts es → SpellsExprs (ts ++ c :: us) (es ++ [e])
  | _, _, .one h => .cons h hc (.one he)
  | _, _, .cons h hd hes => by
    simpa only [List.append_assoc, List.cons_append] using SpellsExprs.cons h hd (hes.snoc hc he)

theorem SpellsBlocks.snoc {b : Block} (hb : SpellsBlock us b) :
    ∀ {ts : List Lexeme} {bs : List Block}, SpellsBlocks ts bs → SpellsBlocks (ts ++ us) (bs ++ [b])
  | _, _, .nil => by simpa only [List.append_nil, List.nil_append] using SpellsBlocks.cons hb .nil
  | _, _, .cons h hbs => by
    simpa only [List.append_assoc, List.cons_append] using SpellsBlocks.cons h (hbs.snoc hb)

theorem SpellsElseifs.snoc {o : Lexeme} {b : Expr × List Block} (ho : o.kind = .lBracePercent)
    (hb : SpellsBranch .elseif us b) : ∀ {ts : List Lexeme} {bs : List (Expr × List Block)},
      SpellsElseifs ts bs → SpellsElseifs (ts ++ o :: us) (bs ++ [b])
  | _, _, .nil => by simpa only [List.append_nil, List.nil_append] using SpellsElseifs.cons ho hb .nil
  | _, _, .cons hd h hbs => by
    simpa only [List.append_assoc, List.cons_append] using SpellsElseifs.cons hd h (hbs.snoc ho hb)

theorem SpellsCases.snoc {o w c : Lexeme} {vs : List Lexeme} {ps : List Expr} {body : List Block}
    (ho : o.kind = .lBracePercent) (hw : w.kind = .case) (hps : SpellsExprs us ps) (hc : c.kind = .rBracePercent)
    (hbody : SpellsBlocks vs body) : ∀ {ts : List Lexeme} {cs : List (List Expr × List Block)},
      SpellsCases ts cs → SpellsCases (ts ++ o :: w :: (us ++ c :: vs)) (cs ++ [(ps, body)])
  | _, _, .nil => by simpa only [List.append_nil, List.nil_append] using SpellsCases.cons ho hw hps hc hbody .nil
  | _, _, .cons hd hv h hd' hb hcs => by
    simpa only [List.append_assoc, List.cons_append] using
      SpellsCases.cons hd hv h hd' hb (hcs.snoc ho hw hps hc hbody)

end Grammar

/-! ## Nesting -/

mutual

/-- How deeply parentheses, `!` and calls nest in an expression. -/
def Expr.nesting : Expr → Nat
  | .lit _ _ => 0
  | .var _ => 0
  | .not e _ => e.nesting + 1
  | .binary _ l r => max l.nesting r.nesting
  | .paren e _ => e.nesting + 1
  | .call _ args => Expr.nestingList args + 1
  | .pipe a _ => a.nesting

def Expr.nestingList : List Expr → Nat
  | [] => 0
  | e :: es => max e.nesting (Expr.nestingList es)

end

mutual

def Block.nesting : Block → Nat
  | .text _ _ => 0
  | .comment _ _ => 0
  | .render e => e.nesting
  | .cond branches none _ => Block.nestingBranches branches + 1
  | .cond branches (some body) _ => max (Block.nestingBranches branches) (Block.nestingList body) + 1
  | .switch v cases _ => max v.nesting (Block.nestingCases cases) + 1
termination_by structural b => b

def Block.nestingList : List Block → Nat
  | [] => 0
  | b :: bs => max b.nesting (Block.nestingList bs)
termination_by structural bs => bs

def Block.nestingBranches : List (Expr × List Block) → Nat
  | [] => 0
  | (c, body) :: rest => max c.nesting (max (Block.nestingList body) (Block.nestingBranches rest))
termination_by structural bs => bs

def Block.nestingCases : List (List Expr × List Block) → Nat
  | [] => 0
  | (ps, body) :: rest => max (Expr.nestingList ps) (max (Block.nestingList body) (Block.nestingCases rest))
termination_by structural cs => cs

end

def Template.nesting (t : Template) : Nat := Block.nestingList t

end Stencil
