import Stencil.Proofs.Height
import Stencil.Proofs.RoundTrip
/-!
# Anchors — the tokens at which nodes stand

Every position in a tree is that of a token: a name, a literal and a text stand at themselves, `!` and a parenthesis at
their marks, comments and statements at their openers.  `anchors` lists these tokens as the tree tells them, in the order
in which they are printed.  Nothing else in a tree is a position (`Template.mapPos_congr`), and the anchors of a tree
that was read are tokens of its source, in their order (`SpellsBlocks.anchors_sublist`).

An expression stands at the first of its tokens, whatever form it has (`SpellsExpr.pos_eq`).
-/
namespace Stencil

def Literal.kind : Literal → TokenKind
  | .bool true => .true
  | .bool false => .false
  | .string _ => .stringLiteral

def Ident.token (x : Ident) : Lexeme := ⟨.identifier, x.name, x.pos⟩

mutual

/-- The tokens at which the nodes of an expression stand, in the order in which they are printed. -/
def Expr.anchors : Expr → List Lexeme
  | .lit v p => [⟨v.kind, v.source, p⟩]
  | .var x => [x.token]
  | .not e p => ⟨.bang, [Byte.bang], p⟩ :: e.anchors
  | .binary _ l r => l.anchors ++ r.anchors
  | .paren e p => ⟨.lParen, [Byte.lparen], p⟩ :: e.anchors
  | .call f args => f.token :: Expr.anchorsList args
  | .pipe a f => a.anchors ++ [f.token]

def Expr.anchorsList : List Expr → List Lexeme
  | [] => []
  | e :: es => e.anchors ++ Expr.anchorsList es

end

mutual

def Block.anchors : Block → List Lexeme
  | .text c p => [⟨.text, c, p⟩]
  | .comment _ p => [⟨.lBracePound, [Byte.lbrace, Byte.pound], p⟩]
  | .render e => e.anchors
  | .cond branches none p => ⟨.lBracePercent, [Byte.lbrace, Byte.percent], p⟩ :: Block.anchorsBranches branches
  | .cond branches (some body) p =>
    ⟨.lBracePercent, [Byte.lbrace, Byte.percent], p⟩ :: (Block.anchorsBranches branches ++ Block.anchorsList body)
  | .switch v cases p =>
    ⟨.lBracePercent, [Byte.lbrace, Byte.percent], p⟩ :: (v.anchors ++ Block.anchorsCases cases)
termination_by structural b => b

def Block.anchorsList : List Block → List Lexeme
  | [] => []
  | b :: bs => b.anchors ++ Block.anchorsList bs
termination_by structural bs => bs

def Block.anchorsBranches : List (Expr × List Block) → List Lexeme
  | [] => []
  | (c, body) :: rest => c.anchors ++ (Block.anchorsList body ++ Block.anchorsBranches rest)
termination_by structural bs => bs

def Block.anchorsCases : List (List Expr × List Block) → List Lexeme
  | [] => []
  | (ps, body) :: rest => Expr.anchorsList ps ++ (Block.anchorsList body ++ Block.anchorsCases rest)
termination_by structural cs => cs

end

def Template.anchors (t : Template) : List Lexeme := Block.anchorsList t

/-! ## The positions of a tree -/

section

variable {f g : Position → Position}

abbrev Lexeme.AgreeOn (f g : Position → Position) (as : List Lexeme) : Prop := ∀ a ∈ as, f a.pos = g a.pos

theorem Ident.mapPos_congr {x : Ident} (h : f x.pos = g x.pos) : x.mapPos f = x.mapPos g :=
  congrArg (Ident.mk x.name) h

mutual

theorem Expr.mapPos_congr : ∀ {e : Expr}, Lexeme.AgreeOn f g e.anchors → e.mapPos f = e.mapPos g
  | .lit v p, h => congrArg (Expr.lit v) (h _ List.mem_cons_self)
  | .var x, h => congrArg Expr.var (Ident.mapPos_congr (h _ List.mem_cons_self))
  | .not e p, h => by
    obtain ⟨hp, he⟩ := List.forall_mem_cons.1 h
    rw [Expr.mapPos, mapPos_congr he, show f p = g p from hp, ← Expr.mapPos]
  | .binary op l r, h => by
    obtain ⟨hl, hr⟩ := List.forall_mem_append.1 h
    rw [Expr.mapPos, mapPos_congr hl, mapPos_congr hr, ← Expr.mapPos]
  | .paren e p, h => by
    obtain ⟨hp, he⟩ := List.forall_mem_cons.1 h
    rw [Expr.mapPos, mapPos_congr he, show f p = g p from hp, ← Expr.mapPos]
  | .call x args, h => by
    obtain ⟨hx, hargs⟩ := List.forall_mem_cons.1 h
    rw [Expr.mapPos, Ident.mapPos_congr hx, mapPosList_congr hargs, ← Expr.mapPos]
  | .pipe a x, h => by
    obtain ⟨ha, hx⟩ := List.forall_mem_append.1 h
    rw [Expr.mapPos, mapPos_congr ha, Ident.mapPos_congr (hx _ List.mem_cons_self), ← Expr.mapPos]

theorem Expr.mapPosList_congr : ∀ {es : List Expr}, Lexeme.AgreeOn f g (Expr.anchorsList es) →
    Expr.mapPosList f es = Expr.mapPosList g es
  | [], _ => rfl
  | e :: es, h => by
    obtain ⟨he, hes⟩ := List.forall_mem_append.1 h
    rw [Expr.mapPosList, Expr.mapPos_congr he, mapPosList_congr hes, ← Expr.mapPosList]

end

mutual

theorem Block.mapPos_congr : ∀ {b : Block}, Lexeme.AgreeOn f g b.anchors → b.mapPos f = b.mapPos g
  | .text c p, h => congrArg (Block.text c) (h _ List.mem_cons_self)
  | .comment c p, h => congrArg (Block.comment c) (h _ List.mem_cons_self)
  | .render e, h => congrArg Block.render (Expr.mapPos_congr h)
  | .cond branches none p, h => by
    obtain ⟨hp, hbs⟩ := List.forall_mem_cons.1 h
    rw [Block.mapPos, mapPosBranches_congr hbs, show f p = g p from hp, ← Block.mapPos]
  | .cond branches (some body) p, h => by
    obtain ⟨hp, h⟩ := List.forall_mem_cons.1 h
    obtain ⟨hbs, hbody⟩ := List.forall_mem_append.1 h
    rw [Block.mapPos, mapPosBranches_congr hbs, mapPosList_congr hbody, show f p = g p from hp, ← Block.mapPos]
  | .switch v cases p, h => by
    obtain ⟨hp, h⟩ := List.forall_mem_cons.1 h
    obtain ⟨hv, hcs⟩ := List.forall_mem_append.1 h
    rw [Block.mapPos, Expr.mapPos_congr hv, mapPosCases_congr hcs, show f p = g p from hp, ← Block.mapPos]

theorem Block.mapPosList_congr : ∀ {bs : List Block}, Lexeme.AgreeOn f g (Block.anchorsList bs) →
    Block.mapPosList f bs = Block.mapPosList g bs
  | [], _ => rfl
  | b :: bs, h => by
    obtain ⟨hb, hbs⟩ := List.forall_mem_append.1 h
    rw [Block.mapPosList, Block.mapPos_congr hb, mapPosList_congr hbs, ← Block.mapPosList]

theorem Block.mapPosBranches_congr : ∀ {bs : List (Expr × List Block)}, Lexeme.AgreeOn f g (Block.anchorsBranches bs) →
    Block.mapPosBranches f bs = Block.mapPosBranches g bs
  | [], _ => rfl
  | (c, body) :: bs, h => by
    obtain ⟨hc, h⟩ := List.forall_mem_append.1 h
    obtain ⟨hbody, hbs⟩ := List.forall_mem_append.1 h
    rw [Block.mapPosBranches, Expr.mapPos_congr hc, mapPosList_congr hbody, mapPosBranches_congr hbs,
      ← Block.mapPosBranches]

theorem Block.mapPosCases_congr : ∀ {cs : List (List Expr × List Block)}, Lexeme.AgreeOn f g (Block.anchorsCases cs) →
    Block.mapPosCases f cs = Block.mapPosCases g cs
  | [], _ => rfl
  | (ps, body) :: cs, h => by
    obtain ⟨hps, h⟩ := List.forall_mem_append.1 h
    obtain ⟨hbody, hcs⟩ := List.forall_mem_append.1 h
    rw [Block.mapPosCases, Expr.mapPosList_congr hps, mapPosList_congr hbody, mapPosCases_congr hcs,
      ← Block.mapPosCases]

end

/-- **The anchors of a template carry all its positions**: maps that agree on them move it to the same place. -/
theorem Template.mapPos_congr {t : Template} (h : Lexeme.AgreeOn f g t.anchors) : t.mapPos f = t.mapPos g :=
  Block.mapPosList_congr h

end

/-! ## The tokens of a source -/

namespace Lexeme

variable {t : Lexeme} {k : TokenKind}

theorem mk_of_kind (hk : t.kind = k) : (⟨k, t.text, t.pos⟩ : Lexeme) = t := by
  subst hk
  rfl

theorem mk_of_spelling {w : Bytes} (ht : t.Spelled) (hk : t.kind = k) (hw : k.spelling? = some w) :
    (⟨k, w, t.pos⟩ : Lexeme) = t := by
  rw [← ht.text_eq hk hw]
  exact mk_of_kind hk

theorem token_ident (hk : t.kind = .identifier) : t.ident.token = t := mk_of_kind hk

theorem mk_of_bool {b : Bool} (ht : t.Spelled) (hk : t.kind = (Literal.bool b).kind) :
    (⟨(Literal.bool b).kind, (Literal.bool b).source, t.pos⟩ : Lexeme) = t :=
  mk_of_spelling ht hk (by cases b <;> rfl)

theorem mk_of_string (ht : t.Spelled) (hk : t.kind = .stringLiteral) :
    (⟨.stringLiteral, (Literal.string t.body).source, t.pos⟩ : Lexeme) = t := by
  have htext : (Literal.string t.body).source = t.text := by
    simp only [Spelled, hk] at ht
    obtain ⟨body, hbody, -⟩ := ht
    simp [Literal.source, Lexeme.body, hbody]
  rw [htext]
  exact mk_of_kind hk

end Lexeme

namespace Grammar

open Lexeme (Written mk_of_kind mk_of_spelling mk_of_bool mk_of_string token_ident)

mutual

/-- **The nodes of an expression stand at tokens of it**, in the order of the tokens. -/
theorem SpellsExpr.anchors_sublist : ∀ {p : Stratum} {ts : List Lexeme} {e : Expr}, SpellsExpr p ts e → Written ts →
    e.anchors.Sublist ts
  | _, _, _, .var ht, _ => by
    rw [Expr.anchors, token_ident ht]
  | _, _, _, .string ht, h => by
    rw [Expr.anchors, Literal.kind, mk_of_string h.head ht]
  | _, _, _, .true ht, h => by
    rw [Expr.anchors, mk_of_bool (b := true) h.head ht]
  | _, _, _, .false ht, h => by
    rw [Expr.anchors, mk_of_bool (b := false) h.head ht]
  | _, _, _, .paren ho he _, h => by
    rw [Expr.anchors, mk_of_spelling h.head ho rfl]
    exact ((he.anchors_sublist h.tail.left).trans (List.sublist_append_left _ _)).cons_cons _
  | _, _, _, .emptyCall hf _ _, h => by
    rw [Expr.anchors, Expr.anchorsList, token_ident hf]
    exact (List.nil_sublist _).cons_cons _
  | _, _, _, .call hf _ hes _, h => by
    rw [Expr.anchors, token_ident hf]
    exact (((hes.anchors_sublist h.tail.tail.left).trans (List.sublist_append_left _ _)).cons _).cons_cons _
  | _, _, _, .not ht he, h => by
    rw [Expr.anchors, mk_of_spelling h.head ht rfl]
    exact (he.anchors_sublist h.tail).cons_cons _
  | _, _, _, .pipe he _ hf, h => by
    rw [Expr.anchors, token_ident hf]
    exact (he.anchors_sublist h.left).append (.cons _ (.refl _))
  | _, _, _, .binary _ _ hl _ hr, h =>
    (hl.anchors_sublist h.left).append ((hr.anchors_sublist h.right.tail).cons _)
  | _, _, _, .tighter _ he, h => he.anchors_sublist h

theorem SpellsExprs.anchors_sublist : ∀ {ts : List Lexeme} {es : List Expr}, SpellsExprs ts es → Written ts →
    (Expr.anchorsList es).Sublist ts
  | _, _, .one he, h => by
    rw [Expr.anchorsList, Expr.anchorsList, List.append_nil]
    exact he.anchors_sublist h
  | _, _, .cons he _ hes, h => (he.anchors_sublist h.left).append ((hes.anchors_sublist h.right.tail).cons _)

end

mutual

theorem SpellsBlock.anchors_sublist : ∀ {ts : List Lexeme} {b : Block}, SpellsBlock ts b → Written ts →
    b.anchors.Sublist ts
  | _, _, .text ht, _ => by
    rw [Block.anchors, mk_of_kind ht]
  | _, _, .comment ho _ _, h => by
    rw [Block.anchors, mk_of_spelling h.head ho rfl]
    exact (List.nil_sublist _).cons_cons _
  | _, _, .emptyComment ho _, h => by
    rw [Block.anchors, mk_of_spelling h.head ho rfl]
    exact (List.nil_sublist _).cons_cons _
  | _, _, .render _ he _, h => ((he.anchors_sublist h.tail.left).trans (List.sublist_append_left _ _)).cons _
  | _, _, .cond (b := (_, _)) ho hb hbs _, h => by
    rw [Block.anchors, Block.anchorsBranches, mk_of_spelling h.head ho rfl, ← List.append_assoc]
    exact ((hb.anchors_sublist h.tail.left).append
      ((hbs.anchors_sublist h.tail.right.left).trans (List.sublist_append_left _ _))).cons_cons _
  | _, _, .condElse (b := (_, _)) ho hb hbs _ _ _ hbody _, h => by
    rw [Block.anchors, Block.anchorsBranches, mk_of_spelling h.head ho rfl, ← List.append_assoc, List.append_assoc]
    have hrest := h.tail.right
    exact ((hb.anchors_sublist h.tail.left).append ((hbs.anchors_sublist hrest.left).append
      ((((hbody.anchors_sublist hrest.right.tail.tail.tail.left).trans
        (List.sublist_append_left _ _)).cons _).cons _ |>.cons _))).cons_cons _
  | _, _, .switch ho _ hv _ _ hcs _, h => by
    rw [Block.anchors, mk_of_spelling h.head ho rfl]
    have hrest := h.tail.tail.right.tail.right
    exact (((hv.anchors_sublist h.tail.tail.left).append
      ((((hcs.anchors_sublist hrest.left).trans (List.sublist_append_left _ _)).trans
        (List.sublist_append_right _ _)).cons _)).cons _).cons_cons _

/-- **The nodes of blocks stand at tokens of them**, in the order of the tokens. -/
theorem SpellsBlocks.anchors_sublist : ∀ {ts : List Lexeme} {bs : List Block}, SpellsBlocks ts bs → Written ts →
    (Block.anchorsList bs).Sublist ts
  | _, _, .nil, _ => .slnil
  | _, _, .cons hb hbs, h => (hb.anchors_sublist h.left).append (hbs.anchors_sublist h.right)

theorem SpellsBranch.anchors_sublist : ∀ {word : TokenKind} {ts : List Lexeme} {b : Expr × List Block},
    SpellsBranch word ts b → Written ts → (b.1.anchors ++ Block.anchorsList b.2).Sublist ts
  | _, _, _, .mk _ he _ hbody, h =>
    ((he.anchors_sublist h.tail.left).append ((hbody.anchors_sublist h.tail.right.tail).cons _)).cons _

theorem SpellsElseifs.anchors_sublist : ∀ {ts : List Lexeme} {bs : List (Expr × List Block)}, SpellsElseifs ts bs →
    Written ts → (Block.anchorsBranches bs).Sublist ts
  | _, _, .nil, _ => .slnil
  | _, _, .cons (b := (_, _)) _ hb hbs, h => by
    rw [Block.anchorsBranches, ← List.append_assoc]
    exact ((hb.anchors_sublist h.tail.left).append (hbs.anchors_sublist h.tail.right)).cons _

theorem SpellsCases.anchors_sublist : ∀ {ts : List Lexeme} {cs : List (List Expr × List Block)}, SpellsCases ts cs →
    Written ts → (Block.anchorsCases cs).Sublist ts
  | _, _, .nil, _ => .slnil
  | _, _, .cons _ _ hps _ hbody hcs, h =>
    have hrest := h.tail.tail.right.tail
    ((((hps.anchors_sublist h.tail.tail.left).append
      (((hbody.anchors_sublist hrest.left).append (hcs.anchors_sublist hrest.right)).cons _)).cons _).cons _)

end

/-! ## The expressions of a source -/

/-- **An expression stands at the first of its tokens.** -/
theorem SpellsExpr.pos_eq : ∀ {p : Stratum} {ts : List Lexeme} {e : Expr}, SpellsExpr p ts e →
    ∃ x xs, ts = x :: xs ∧ e.pos = x.pos
  | _, _, _, .pipe he _ _ => by
    obtain ⟨x, xs, rfl, hpos⟩ := he.pos_eq
    exact ⟨x, _, rfl, hpos⟩
  | _, _, _, .binary _ _ hl _ _ => by
    obtain ⟨x, xs, rfl, hpos⟩ := hl.pos_eq
    exact ⟨x, _, rfl, hpos⟩
  | _, _, _, .tighter _ he => he.pos_eq
  | _, _, _, .var _ | _, _, _, .string _ | _, _, _, .true _ | _, _, _, .false _ | _, _, _, .paren ..
  | _, _, _, .emptyCall .. | _, _, _, .call .. | _, _, _, .not .. => ⟨_, _, rfl, rfl⟩

def SpellsPart (ts : List Lexeme) (e : Expr) : Prop := ∃ us, us <:+: ts ∧ SpellsExpr .or us e

namespace SpellsPart

variable {t : Lexeme} {ts us : List Lexeme} {e : Expr}

theorem cons (h : SpellsPart ts e) : SpellsPart (t :: ts) e :=
  h.imp fun _ h => ⟨h.1.trans (List.suffix_cons t ts).isInfix, h.2⟩

theorem left (h : SpellsPart ts e) : SpellsPart (ts ++ us) e :=
  h.imp fun _ h => ⟨h.1.trans (List.prefix_append ts us).isInfix, h.2⟩

theorem right (h : SpellsPart us e) : SpellsPart (ts ++ us) e :=
  h.imp fun _ h => ⟨h.1.trans (List.suffix_append ts us).isInfix, h.2⟩

end SpellsPart

theorem SpellsExpr.spellsPart {p : Stratum} {ts : List Lexeme} {e : Expr} (h : SpellsExpr p ts e) : SpellsPart ts e :=
  ⟨ts, List.infix_refl ts, h.loosen (by cases p <;> decide)⟩

mutual

theorem SpellsExpr.parts : ∀ {p : Stratum} {ts : List Lexeme} {e : Expr}, SpellsExpr p ts e →
    ∀ d ∈ e.parts, SpellsPart ts d
  | _, _, _, h@(.var _) | _, _, _, h@(.string _) | _, _, _, h@(.true _) | _, _, _, h@(.false _)
  | _, _, _, h@(.emptyCall ..) => List.forall_mem_singleton.2 h.spellsPart
  | _, _, _, h@(.paren _ he _) => List.forall_mem_cons.2 ⟨h.spellsPart, fun d hd => (he.parts d hd).left.cons⟩
  | _, _, _, h@(.call _ _ hes _) => List.forall_mem_cons.2 ⟨h.spellsPart, fun d hd => (hes.parts d hd).left.cons.cons⟩
  | _, _, _, h@(.not _ he) => List.forall_mem_cons.2 ⟨h.spellsPart, fun d hd => (he.parts d hd).cons⟩
  | _, _, _, h@(.pipe he _ _) => List.forall_mem_cons.2 ⟨h.spellsPart, fun d hd => (he.parts d hd).left⟩
  | _, _, _, h@(.binary _ _ hl _ hr) => List.forall_mem_cons.2 ⟨h.spellsPart, List.forall_mem_append.2
      ⟨fun d hd => (hl.parts d hd).left, fun d hd => (hr.parts d hd).cons.right⟩⟩
  | _, _, _, .tighter _ he => he.parts

theorem SpellsExprs.parts : ∀ {ts : List Lexeme} {es : List Expr}, SpellsExprs ts es →
    ∀ d ∈ Expr.partsList es, SpellsPart ts d
  | _, _, .one he => List.forall_mem_append.2 ⟨he.parts, List.forall_mem_nil _⟩
  | _, _, .cons he _ hes => List.forall_mem_append.2
      ⟨fun d hd => (he.parts d hd).left, fun d hd => (hes.parts d hd).cons.right⟩

end

mutual

theorem SpellsBlock.exprs : ∀ {ts : List Lexeme} {b : Block}, SpellsBlock ts b → ∀ e ∈ b.exprs, SpellsPart ts e
  | _, _, .text _ | _, _, .comment .. | _, _, .emptyComment .. => List.forall_mem_nil _
  | _, _, .render _ he _ => fun d hd => (he.parts d hd).left.cons
  | _, _, .cond (b := (_, _)) _ hb hbs _ => fun d hd => by
    rw [Block.exprs, Block.exprsBranches, ← List.append_assoc] at hd
    rcases List.mem_append.1 hd with hd | hd
    · exact (hb.exprs d hd).left.cons
    · exact (hbs.exprs d hd).left.right.cons
  | _, _, .condElse (b := (_, _)) _ hb hbs _ _ _ hbody _ => fun d hd => by
    rw [Block.exprs, Block.exprsBranches, ← List.append_assoc, List.append_assoc] at hd
    rcases List.mem_append.1 hd with hd | hd
    · exact (hb.exprs d hd).left.cons
    · rcases List.mem_append.1 hd with hd | hd
      · exact (hbs.exprs d hd).left.right.cons
      · exact (hbody.exprs d hd).left.cons.cons.cons.right.right.cons
  | _, _, .switch _ _ hv _ _ hcs _ => List.forall_mem_append.2
      ⟨fun d hd => (hv.parts d hd).left.cons.cons, fun d hd => (hcs.exprs d hd).left.right.cons.right.cons.cons⟩

/-- **Every expression in blocks is spelled by some of their tokens in a row.** -/
theorem SpellsBlocks.exprs : ∀ {ts : List Lexeme} {bs : List Block}, SpellsBlocks ts bs →
    ∀ e ∈ Block.exprsList bs, SpellsPart ts e
  | _, _, .nil => List.forall_mem_nil _
  | _, _, .cons hb hbs => List.forall_mem_append.2
      ⟨fun d hd => (hb.exprs d hd).left, fun d hd => (hbs.exprs d hd).right⟩

theorem SpellsBranch.exprs : ∀ {word : TokenKind} {ts : List Lexeme} {b : Expr × List Block}, SpellsBranch word ts b →
    ∀ e ∈ b.1.parts ++ Block.exprsList b.2, SpellsPart ts e
  | _, _, _, .mk _ he _ hbody => List.forall_mem_append.2
      ⟨fun d hd => (he.parts d hd).left.cons, fun d hd => (hbody.exprs d hd).cons.right.cons⟩

theorem SpellsElseifs.exprs : ∀ {ts : List Lexeme} {bs : List (Expr × List Block)}, SpellsElseifs ts bs →
    ∀ e ∈ Block.exprsBranches bs, SpellsPart ts e
  | _, _, .nil => List.forall_mem_nil _
  | _, _, .cons (b := (_, _)) _ hb hbs => fun d hd => by
    rw [Block.exprsBranches, ← List.append_assoc] at hd
    rcases List.mem_append.1 hd with hd | hd
    · exact (hb.exprs d hd).left.cons
    · exact (hbs.exprs d hd).right.cons

theorem SpellsCases.exprs : ∀ {ts : List Lexeme} {cs : List (List Expr × List Block)}, SpellsCases ts cs →
    ∀ e ∈ Block.exprsCases cs, SpellsPart ts e
  | _, _, .nil => List.forall_mem_nil _
  | _, _, .cons _ _ hps _ hbody hcs => List.forall_mem_append.2 ⟨fun d hd => (hps.parts d hd).left.cons.cons,
      List.forall_mem_append.2 ⟨fun d hd => (hbody.exprs d hd).left.cons.right.cons.cons,
        fun d hd => (hcs.exprs d hd).right.cons.right.cons.cons⟩⟩

end

end Grammar

namespace Template

open Grammar

variable {s : Bytes} {t : Template}

theorem anchors_sublist (h : parse s = .ok t) : t.anchors.Sublist (Lexeme.ofSource s) :=
  (parse_eq_ok.1 h).1.anchors_sublist (Lexeme.written_ofSource s)

theorem exists_anchors_eq_map (h : parse s = .ok t) : ∃ as : List Token, as.Sublist (Token.ofSource s) ∧
    t.anchors = as.map (LineIndex.ofSource s).lexeme ∧ ∀ a ∈ as, a.text <+: s.drop a.start := by
  obtain ⟨as, has, heq⟩ := List.sublist_map_iff.1 (anchors_sublist h)
  have hsub : as.Sublist (Token.ofSource s) := has.trans (List.sublist_append_left _ _)
  refine ⟨as, hsub, heq, fun a ha => ?_⟩
  obtain ⟨hstop, htext⟩ := (Token.isTokenization_ofSource s).text_eq a (hsub.subset ha)
  have hfits : a.span.start ≤ a.span.stop ∧ a.span.stop ≤ s.length := ⟨Nat.le_add_right _ _, hstop⟩
  rw [← htext, Span.text, if_pos hfits]
  exact List.take_prefix _ _

/-- **The positions in a tree are those of its tokens.**  The nodes of a template that was read stand at tokens of the
source, each with its text there, and a tree has no other positions; an expression stands at the first of its tokens; and
in the order in which they are printed, the nodes stand at ever later positions — the same listing of the tree that is
read from the printed template is in the order of the printed tokens. -/
theorem positions_faithful (h : parse s = .ok t) :
    (∃ as : List Token, as.Sublist (Token.ofSource s) ∧ t.anchors = as.map (LineIndex.ofSource s).lexeme ∧
      ∀ a ∈ as, a.text <+: s.drop a.start) ∧
    (∀ f g : Position → Position, (∀ a ∈ t.anchors, f a.pos = g a.pos) → t.mapPos f = t.mapPos g) ∧
    (∀ e ∈ t.exprs, ∃ x xs, x :: xs <:+: Lexeme.ofSource s ∧ SpellsExpr .or (x :: xs) e ∧ e.pos = x.pos) ∧
    (t.anchors.map Lexeme.pos).Pairwise (fun p q => Position.lt p q = true) ∧
    ∃ t', parse t.print = .ok t' ∧ t'.erase = t.erase ∧ t'.anchors.Sublist (Lexeme.ofSource t.print) := by
  refine ⟨exists_anchors_eq_map h, fun f g => mapPos_congr, fun e he => ?_, ?_, ?_⟩
  · obtain ⟨us, hus, hspell⟩ := (parse_eq_ok.1 h).1.exprs e he
    obtain ⟨x, xs, rfl, hpos⟩ := hspell.pos_eq
    exact ⟨x, xs, hus, hspell, hpos⟩
  · exact List.pairwise_map.2 ((Lexeme.inOrder_ofSource s).sublist (anchors_sublist h))
  · obtain ⟨t₀, f, g, -, -, ht, hp⟩ := parse_print h
    refine ⟨_, hp, ?_, anchors_sublist hp⟩
    rw [ht, erase_mapPos, erase_mapPos]

/-- Nodes of all kinds, on five lines. -/
def fiveLines : Bytes := utf8 "a\n\x7b\x7b !(b) ~ \"c\" | f == d(true, e) \x7d\x7d\n\x7b# #\x7d\x7b% if g %\x7d\n" ++
  utf8 "\x7b% switch h %\x7d\n\x7b% case i, j %\x7dk\x7b% end %\x7d\x7b% end %\x7d"

theorem positions_faithful_at_fiveLines : ∃ t, parse fiveLines = .ok t ∧
    t.anchors.map Lexeme.pos = [⟨0, 0⟩, ⟨0, 1⟩, ⟨1, 3⟩, ⟨1, 4⟩, ⟨1, 5⟩, ⟨1, 10⟩, ⟨1, 16⟩, ⟨1, 21⟩, ⟨1, 23⟩, ⟨1, 29⟩,
      ⟨1, 34⟩, ⟨2, 0⟩, ⟨2, 5⟩, ⟨2, 11⟩, ⟨2, 15⟩, ⟨3, 0⟩, ⟨3, 10⟩, ⟨4, 8⟩, ⟨4, 11⟩, ⟨4, 15⟩] ∧
    ∃ as : List Token, as.Sublist (Token.ofSource fiveLines) ∧
      t.anchors = as.map (LineIndex.ofSource fiveLines).lexeme ∧ ∀ a ∈ as, a.text <+: fiveLines.drop a.start := by
  have hpos : (parse fiveLines).map (fun t => t.anchors.map Lexeme.pos) =
      .ok [⟨0, 0⟩, ⟨0, 1⟩, ⟨1, 3⟩, ⟨1, 4⟩, ⟨1, 5⟩, ⟨1, 10⟩, ⟨1, 16⟩, ⟨1, 21⟩, ⟨1, 23⟩, ⟨1, 29⟩, ⟨1, 34⟩, ⟨2, 0⟩, ⟨2, 5⟩,
        ⟨2, 11⟩, ⟨2, 15⟩, ⟨3, 0⟩, ⟨3, 10⟩, ⟨4, 8⟩, ⟨4, 11⟩, ⟨4, 15⟩] := by cbv
  obtain ⟨t, h, hanchors⟩ := exists_of_map_eq_ok hpos
  exact ⟨t, h, hanchors, (positions_faithful h).1⟩

end Template
end Stencil
