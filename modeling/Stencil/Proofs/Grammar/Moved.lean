import Stencil.Proofs.Grammar
import Stencil.Template.Printer
/-!
# Moved — templates whose positions are changed

Where the nodes of a tree stand decides neither how deeply it nests nor how it is printed, and tokens that are moved
spell the tree that is moved in the same way (`SpellsBlocks.mapPos`).
-/
namespace Stencil

variable (f : Position → Position)

/-! ## Trees -/

@[simp] theorem Ident.mapPos_name (x : Ident) : (x.mapPos f).name = x.name := rfl

theorem Expr.pos_mapPos : ∀ e : Expr, (e.mapPos f).pos = f e.pos
  | .lit _ _ | .var _ | .not _ _ | .paren _ _ | .call _ _ => rfl
  | .binary _ l _ => pos_mapPos l
  | .pipe a _ => pos_mapPos a

theorem Expr.length_mapPosList : ∀ es : List Expr, (Expr.mapPosList f es).length = es.length
  | [] => rfl
  | _ :: es => by rw [Expr.mapPosList, List.length_cons, length_mapPosList es, List.length_cons]

mutual

theorem Expr.mapPos_mapPos (g : Position → Position) : ∀ e : Expr, (e.mapPos f).mapPos g = e.mapPos (g ∘ f)
  | .lit _ _ => rfl
  | .var _ => rfl
  | .not e _ => by rw [Expr.mapPos, Expr.mapPos, mapPos_mapPos g e, Expr.mapPos]; rfl
  | .binary _ l r => by rw [Expr.mapPos, Expr.mapPos, mapPos_mapPos g l, mapPos_mapPos g r, Expr.mapPos]
  | .paren e _ => by rw [Expr.mapPos, Expr.mapPos, mapPos_mapPos g e, Expr.mapPos]; rfl
  | .call _ args => by rw [Expr.mapPos, Expr.mapPos, mapPosList_mapPosList g args, Expr.mapPos]; rfl
  | .pipe a _ => by rw [Expr.mapPos, Expr.mapPos, mapPos_mapPos g a, Expr.mapPos]; rfl

theorem Expr.mapPosList_mapPosList (g : Position → Position) : ∀ es : List Expr,
    Expr.mapPosList g (Expr.mapPosList f es) = Expr.mapPosList (g ∘ f) es
  | [] => rfl
  | e :: es => by
    rw [Expr.mapPosList, Expr.mapPosList, mapPos_mapPos g e, mapPosList_mapPosList g es, Expr.mapPosList]

end

mutual

theorem Block.mapPos_mapPos (g : Position → Position) : ∀ b : Block, (b.mapPos f).mapPos g = b.mapPos (g ∘ f)
  | .text _ _ => rfl
  | .comment _ _ => rfl
  | .render e => by rw [Block.mapPos, Block.mapPos, Expr.mapPos_mapPos, Block.mapPos]
  | .cond branches none _ => by
    rw [Block.mapPos, Block.mapPos, mapPosBranches_mapPosBranches g branches, Block.mapPos]
    rfl
  | .cond branches (some body) _ => by
    rw [Block.mapPos, Block.mapPos, mapPosBranches_mapPosBranches g branches, mapPosList_mapPosList g body, Block.mapPos]
    rfl
  | .switch v cases _ => by
    rw [Block.mapPos, Block.mapPos, Expr.mapPos_mapPos, mapPosCases_mapPosCases g cases, Block.mapPos]
    rfl

theorem Block.mapPosList_mapPosList (g : Position → Position) : ∀ bs : List Block,
    Block.mapPosList g (Block.mapPosList f bs) = Block.mapPosList (g ∘ f) bs
  | [] => rfl
  | b :: bs => by
    rw [Block.mapPosList, Block.mapPosList, mapPos_mapPos g b, mapPosList_mapPosList g bs, Block.mapPosList]

theorem Block.mapPosBranches_mapPosBranches (g : Position → Position) : ∀ bs : List (Expr × List Block),
    Block.mapPosBranches g (Block.mapPosBranches f bs) = Block.mapPosBranches (g ∘ f) bs
  | [] => rfl
  | (c, body) :: bs => by
    rw [Block.mapPosBranches, Block.mapPosBranches, Expr.mapPos_mapPos, mapPosList_mapPosList g body,
      mapPosBranches_mapPosBranches g bs, Block.mapPosBranches]

theorem Block.mapPosCases_mapPosCases (g : Position → Position) : ∀ cs : List (List Expr × List Block),
    Block.mapPosCases g (Block.mapPosCases f cs) = Block.mapPosCases (g ∘ f) cs
  | [] => rfl
  | (ps, body) :: cs => by
    rw [Block.mapPosCases, Block.mapPosCases, Expr.mapPosList_mapPosList, mapPosList_mapPosList g body,
      mapPosCases_mapPosCases g cs, Block.mapPosCases]

end

theorem Template.mapPos_mapPos (g : Position → Position) (t : Template) :
    (t.mapPos f).mapPos g = t.mapPos (g ∘ f) := Block.mapPosList_mapPosList f g t

theorem Template.erase_mapPos (t : Template) : (t.mapPos f).erase = t.erase := t.mapPos_mapPos f _

/-! ## Nesting -/

mutual

@[simp] theorem Expr.nesting_mapPos : ∀ e : Expr, (e.mapPos f).nesting = e.nesting
  | .lit _ _ => rfl
  | .var _ => rfl
  | .not e _ => by rw [Expr.mapPos, Expr.nesting, nesting_mapPos e, Expr.nesting]
  | .binary _ l r => by rw [Expr.mapPos, Expr.nesting, nesting_mapPos l, nesting_mapPos r, Expr.nesting]
  | .paren e _ => by rw [Expr.mapPos, Expr.nesting, nesting_mapPos e, Expr.nesting]
  | .call _ args => by rw [Expr.mapPos, Expr.nesting, nestingList_mapPosList args, Expr.nesting]
  | .pipe a _ => by rw [Expr.mapPos, Expr.nesting, nesting_mapPos a, Expr.nesting]

@[simp] theorem Expr.nestingList_mapPosList : ∀ es : List Expr,
    Expr.nestingList (Expr.mapPosList f es) = Expr.nestingList es
  | [] => rfl
  | e :: es => by rw [Expr.mapPosList, Expr.nestingList, nesting_mapPos e, nestingList_mapPosList es, Expr.nestingList]

end

mutual

theorem Block.nesting_mapPos : ∀ b : Block, (b.mapPos f).nesting = b.nesting
  | .text _ _ => rfl
  | .comment _ _ => rfl
  | .render e => e.nesting_mapPos f
  | .cond branches none _ => by rw [Block.mapPos, Block.nesting, nestingBranches_mapPos branches, Block.nesting]
  | .cond branches (some body) _ => by
    rw [Block.mapPos, Block.nesting, nestingBranches_mapPos branches, nestingList_mapPos body, Block.nesting]
  | .switch v cases _ => by
    rw [Block.mapPos, Block.nesting, Expr.nesting_mapPos, nestingCases_mapPos cases, Block.nesting]

theorem Block.nestingList_mapPos : ∀ bs : List Block, Block.nestingList (Block.mapPosList f bs) = Block.nestingList bs
  | [] => rfl
  | b :: bs => by
    rw [Block.mapPosList, Block.nestingList, nesting_mapPos b, nestingList_mapPos bs, Block.nestingList]

theorem Block.nestingBranches_mapPos : ∀ bs : List (Expr × List Block),
    Block.nestingBranches (Block.mapPosBranches f bs) = Block.nestingBranches bs
  | [] => rfl
  | (c, body) :: bs => by
    rw [Block.mapPosBranches, Block.nestingBranches, Expr.nesting_mapPos, nestingList_mapPos body,
      nestingBranches_mapPos bs, Block.nestingBranches]

theorem Block.nestingCases_mapPos : ∀ cs : List (List Expr × List Block),
    Block.nestingCases (Block.mapPosCases f cs) = Block.nestingCases cs
  | [] => rfl
  | (ps, body) :: cs => by
    rw [Block.mapPosCases, Block.nestingCases, Expr.nestingList_mapPosList, nestingList_mapPos body,
      nestingCases_mapPos cs, Block.nestingCases]

end

theorem Template.nesting_mapPos (t : Template) : (t.mapPos f).nesting = t.nesting := Block.nestingList_mapPos f t

/-! ## Printing -/

mutual

@[simp] theorem Expr.print_mapPos : ∀ e : Expr, (e.mapPos f).print = e.print
  | .lit _ _ => rfl
  | .var _ => rfl
  | .not e _ => by rw [Expr.mapPos, Expr.print, print_mapPos e, Expr.print]
  | .binary _ l r => by rw [Expr.mapPos, Expr.print, print_mapPos l, print_mapPos r, Expr.print]
  | .paren e _ => by rw [Expr.mapPos, Expr.print, print_mapPos e, Expr.print]
  | .call _ args => by rw [Expr.mapPos, Expr.print, printList_mapPosList args, Expr.print]; rfl
  | .pipe a _ => by rw [Expr.mapPos, Expr.print, print_mapPos a, Expr.print]; rfl

@[simp] theorem Expr.printList_mapPosList : ∀ es : List Expr, Expr.printList (Expr.mapPosList f es) = Expr.printList es
  | [] => rfl
  | [e] => print_mapPos e
  | e :: e' :: es => by
    have ih := printList_mapPosList (e' :: es)
    rw [Expr.mapPosList] at ih
    rw [Expr.mapPosList, Expr.mapPosList, Expr.printList, print_mapPos e, ih, Expr.printList]

end

mutual

theorem Block.print_mapPos : ∀ b : Block, (b.mapPos f).print = b.print
  | .text _ _ => rfl
  | .comment _ _ => rfl
  | .render e => by rw [Block.mapPos, Block.print, Expr.print_mapPos, Block.print]
  | .cond branches none _ => by rw [Block.mapPos, Block.print, printBranches_mapPos "if" branches, Block.print]
  | .cond branches (some body) _ => by
    rw [Block.mapPos, Block.print, printBranches_mapPos "if" branches, printList_mapPos body, Block.print]
  | .switch v cases _ => by
    rw [Block.mapPos, Block.print, Expr.print_mapPos, printCases_mapPos cases, Block.print]

theorem Block.printList_mapPos : ∀ bs : List Block, Block.printList (Block.mapPosList f bs) = Block.printList bs
  | [] => rfl
  | b :: bs => by
    rw [Block.mapPosList, Block.printList, print_mapPos b, printList_mapPos bs, Block.printList]

theorem Block.printBranches_mapPos : ∀ (word : String) (bs : List (Expr × List Block)),
    Block.printBranches word (Block.mapPosBranches f bs) = Block.printBranches word bs
  | _, [] => rfl
  | word, (c, body) :: bs => by
    rw [Block.mapPosBranches, Block.printBranches, Expr.print_mapPos, printList_mapPos body,
      printBranches_mapPos "elseif" bs, Block.printBranches]

theorem Block.printCases_mapPos : ∀ cs : List (List Expr × List Block),
    Block.printCases (Block.mapPosCases f cs) = Block.printCases cs
  | [] => rfl
  | (ps, body) :: cs => by
    rw [Block.mapPosCases, Block.printCases, Expr.printList_mapPosList, printList_mapPos body,
      printCases_mapPos cs, Block.printCases]

end

theorem Template.print_mapPos (t : Template) : (t.mapPos f).print = t.print := Block.printList_mapPos f t

/-! ## Tokens -/

def Lexeme.mapPos (t : Lexeme) : Lexeme := ⟨t.kind, t.text, f t.pos⟩

namespace Grammar

mutual

theorem SpellsExpr.mapPos : ∀ {p : Stratum} {ts : List Lexeme} {e : Expr}, SpellsExpr p ts e →
    SpellsExpr p (ts.map (Lexeme.mapPos f)) (e.mapPos f)
  | _, _, _, @SpellsExpr.var t ht => @SpellsExpr.var (t.mapPos f) ht
  | _, _, _, @SpellsExpr.string t ht => @SpellsExpr.string (t.mapPos f) ht
  | _, _, _, @SpellsExpr.true t ht => @SpellsExpr.true (t.mapPos f) ht
  | _, _, _, @SpellsExpr.false t ht => @SpellsExpr.false (t.mapPos f) ht
  | _, _, _, @SpellsExpr.paren o c ts e ho he hc => by
    rw [List.map_cons, List.map_append]
    exact @SpellsExpr.paren (o.mapPos f) (c.mapPos f) _ _ ho he.mapPos hc
  | _, _, _, @SpellsExpr.emptyCall g o c hg ho hc =>
    @SpellsExpr.emptyCall (g.mapPos f) (o.mapPos f) (c.mapPos f) hg ho hc
  | _, _, _, @SpellsExpr.call g o c ts es hg ho hes hc => by
    rw [List.map_cons, List.map_cons, List.map_append]
    exact @SpellsExpr.call (g.mapPos f) (o.mapPos f) (c.mapPos f) _ _ hg ho hes.mapPos hc
  | _, _, _, @SpellsExpr.not t ts e ht he => @SpellsExpr.not (t.mapPos f) _ _ ht he.mapPos
  | _, _, _, @SpellsExpr.pipe b g ts e he hb hg => by
    rw [List.map_append]
    exact @SpellsExpr.pipe (b.mapPos f) (g.mapPos f) _ _ he.mapPos hb hg
  | _, _, _, @SpellsExpr.binary p q o op ts us l r hp hq hl ho hr => by
    rw [List.map_append, List.map_cons]
    exact @SpellsExpr.binary p q (o.mapPos f) op _ _ _ _ hp hq hl.mapPos ho hr.mapPos
  | _, _, _, .tighter hq he => .tighter hq he.mapPos

theorem SpellsExprs.mapPos : ∀ {ts : List Lexeme} {es : List Expr}, SpellsExprs ts es →
    SpellsExprs (ts.map (Lexeme.mapPos f)) (Expr.mapPosList f es)
  | _, _, .one he => .one he.mapPos
  | _, _, @SpellsExprs.cons c ts us e es he hc hes => by
    rw [List.map_append, List.map_cons]
    exact @SpellsExprs.cons (c.mapPos f) _ _ _ _ he.mapPos hc hes.mapPos

end

theorem SpellsEnd.mapPos {ts : List Lexeme} : SpellsEnd ts → SpellsEnd (ts.map (Lexeme.mapPos f))
  | @SpellsEnd.mk o w c ho hw hc => @SpellsEnd.mk (o.mapPos f) (w.mapPos f) (c.mapPos f) ho hw hc

theorem isBlank_mapPos {ws : List Lexeme} (h : ∀ t ∈ ws, IsBlank t) : ∀ t ∈ ws.map (Lexeme.mapPos f), IsBlank t := by
  intro t ht
  obtain ⟨w, hw, rfl⟩ := List.mem_map.1 ht
  exact h w hw

mutual

theorem SpellsBlock.mapPos : ∀ {ts : List Lexeme} {b : Block}, SpellsBlock ts b →
    SpellsBlock (ts.map (Lexeme.mapPos f)) (b.mapPos f)
  | _, _, @SpellsBlock.text t ht => @SpellsBlock.text (t.mapPos f) ht
  | _, _, @SpellsBlock.comment o t c ho ht hc =>
    @SpellsBlock.comment (o.mapPos f) (t.mapPos f) (c.mapPos f) ho ht hc
  | _, _, @SpellsBlock.emptyComment o c ho hc => @SpellsBlock.emptyComment (o.mapPos f) (c.mapPos f) ho hc
  | _, _, @SpellsBlock.render o c ts e ho he hc => by
    rw [List.map_cons, List.map_append]
    exact @SpellsBlock.render (o.mapPos f) (c.mapPos f) _ _ ho (he.mapPos f) hc
  | _, _, @SpellsBlock.cond o ts us vs b bs ho hb hbs he => by
    rw [List.map_cons, List.map_append, List.map_append]
    exact @SpellsBlock.cond (o.mapPos f) _ _ _ _ _ ho hb.mapPos hbs.mapPos (he.mapPos f)
  | _, _, @SpellsBlock.condElse o p w c ts us vs xs b bs body ho hb hbs hp hw hc hbody he => by
    rw [List.map_cons, List.map_append, List.map_append, List.map_cons, List.map_cons, List.map_cons, List.map_append]
    exact @SpellsBlock.condElse (o.mapPos f) (p.mapPos f) (w.mapPos f) (c.mapPos f) _ _ _ _ _ _ _ ho hb.mapPos
      hbs.mapPos hp hw hc hbody.mapPos (he.mapPos f)
  | _, _, @SpellsBlock.switch o w c ts ws us vs v cs ho hw hv hc hws hcs he => by
    rw [List.map_cons, List.map_cons, List.map_append, List.map_cons, List.map_append, List.map_append]
    exact @SpellsBlock.switch (o.mapPos f) (w.mapPos f) (c.mapPos f) _ _ _ _ _ _ ho hw (hv.mapPos f) hc
      (isBlank_mapPos f hws) hcs.mapPos (he.mapPos f)

/-- **Tokens that are moved spell the template that is moved in the same way.** -/
theorem SpellsBlocks.mapPos : ∀ {ts : List Lexeme} {bs : List Block}, SpellsBlocks ts bs →
    SpellsBlocks (ts.map (Lexeme.mapPos f)) (Block.mapPosList f bs)
  | _, _, .nil => .nil
  | _, _, .cons hb hbs => by
    rw [List.map_append]
    exact .cons hb.mapPos hbs.mapPos

theorem SpellsBranch.mapPos : ∀ {k : TokenKind} {ts : List Lexeme} {b : Expr × List Block}, SpellsBranch k ts b →
    SpellsBranch k (ts.map (Lexeme.mapPos f)) (b.1.mapPos f, Block.mapPosList f b.2)
  | _, _, _, @SpellsBranch.mk k w c ts us e body hw he hc hbody => by
    rw [List.map_cons, List.map_append, List.map_cons]
    exact @SpellsBranch.mk k (w.mapPos f) (c.mapPos f) _ _ _ _ hw (he.mapPos f) hc hbody.mapPos

theorem SpellsElseifs.mapPos : ∀ {ts : List Lexeme} {bs : List (Expr × List Block)}, SpellsElseifs ts bs →
    SpellsElseifs (ts.map (Lexeme.mapPos f)) (Block.mapPosBranches f bs)
  | _, _, .nil => .nil
  | _, _, @SpellsElseifs.cons o ts us b bs ho hb hbs => by
    rw [List.map_cons, List.map_append]
    exact @SpellsElseifs.cons (o.mapPos f) _ _ _ _ ho hb.mapPos hbs.mapPos

theorem SpellsCases.mapPos : ∀ {ts : List Lexeme} {cs : List (List Expr × List Block)}, SpellsCases ts cs →
    SpellsCases (ts.map (Lexeme.mapPos f)) (Block.mapPosCases f cs)
  | _, _, .nil => .nil
  | _, _, @SpellsCases.cons o w c ts us vs ps body cs ho hw hps hc hbody hcs => by
    rw [List.map_cons, List.map_cons, List.map_append, List.map_cons, List.map_append]
    exact @SpellsCases.cons (o.mapPos f) (w.mapPos f) (c.mapPos f) _ _ _ _ _ _ ho hw (hps.mapPos f) hc hbody.mapPos
      hcs.mapPos

end

end Grammar
end Stencil
