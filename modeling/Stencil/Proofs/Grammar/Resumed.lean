import Stencil.Proofs.Grammar.Moved
import Stencil.Proofs.Grammar.Run
/-!
# Resumed — reading on behind a template

The parser looks at no position: moved tokens lead it through the same places, moved along (`Reading.step_mapPos`).  Nor
does it look at the blocks that it has read in the outermost body.  So what it reads behind a template that is complete
is what it would have read from the start, and an error is the same error (`Parser.runTemplate_resumed`).
-/
namespace Stencil

variable (f : Position → Position)

/-! ## Lists of trees -/

theorem Expr.mapPosList_eq_map (es : List Expr) : Expr.mapPosList f es = es.map (Expr.mapPos f) := by
  induction es with
  | nil => rfl
  | cons e es ih => exact congrArg (List.cons _) ih

@[simp] theorem Expr.mapPosList_reverse (es : List Expr) :
    Expr.mapPosList f es.reverse = (Expr.mapPosList f es).reverse := by
  rw [mapPosList_eq_map, mapPosList_eq_map, List.map_reverse]

namespace Block

theorem mapPosList_eq_map (bs : List Block) : mapPosList f bs = bs.map (Block.mapPos f) := by
  induction bs with
  | nil => rfl
  | cons b bs ih => exact congrArg (List.cons _) ih

theorem mapPosBranches_eq_map (bs : List (Expr × List Block)) :
    mapPosBranches f bs = bs.map fun b => (b.1.mapPos f, mapPosList f b.2) := by
  induction bs with
  | nil => rfl
  | cons b bs ih => exact congrArg (List.cons _) ih

theorem mapPosCases_eq_map (cs : List (List Expr × List Block)) :
    mapPosCases f cs = cs.map fun c => (Expr.mapPosList f c.1, mapPosList f c.2) := by
  induction cs with
  | nil => rfl
  | cons c cs ih => exact congrArg (List.cons _) ih

@[simp] theorem mapPosList_append (bs cs : List Block) :
    mapPosList f (bs ++ cs) = mapPosList f bs ++ mapPosList f cs := by
  rw [mapPosList_eq_map, mapPosList_eq_map, mapPosList_eq_map, List.map_append]

@[simp] theorem mapPosList_reverse (bs : List Block) : mapPosList f bs.reverse = (mapPosList f bs).reverse := by
  rw [mapPosList_eq_map, mapPosList_eq_map, List.map_reverse]

@[simp] theorem mapPosBranches_reverse (bs : List (Expr × List Block)) :
    mapPosBranches f bs.reverse = (mapPosBranches f bs).reverse := by
  rw [mapPosBranches_eq_map, mapPosBranches_eq_map, List.map_reverse]

@[simp] theorem mapPosCases_reverse (cs : List (List Expr × List Block)) :
    mapPosCases f cs.reverse = (mapPosCases f cs).reverse := by
  rw [mapPosCases_eq_map, mapPosCases_eq_map, List.map_reverse]

end Block

/-! ## Expressions -/

def ParseError.mapPos (e : ParseError) : ParseError := ⟨e.cause, f e.pos⟩

def Level.mapPos (l : Level) : Level := ⟨l.pending.map fun q => (q.1.mapPos f, q.2), l.nots.map f⟩

def Frame.mapPos : Frame → Frame
  | .paren p outer => .paren (f p) (outer.mapPos f)
  | .call x args outer => .call (x.mapPos f) (Expr.mapPosList f args) (outer.mapPos f)

def Phase.mapPos : Phase → Phase
  | .operand => .operand
  | .firstArg => .firstArg
  | .named x => .named (x.mapPos f)
  | .complete e => .complete (e.mapPos f)
  | .function e => .function (e.mapPos f)

def Standing.mapPos : Standing → Standing
  | .behind => .behind
  | .inFront => .inFront
  | .atTag opener => .atTag (opener.mapPos f)

def Reading.mapPos (r : Reading) : Reading := ⟨r.phase.mapPos f, r.level.mapPos f, r.frames.map (Frame.mapPos f)⟩

def Reading.Step.mapPos : Reading.Step → Reading.Step
  | .shift r => .shift (r.mapPos f)
  | .accept e => .accept (e.mapPos f)
  | .fail e depth standing => .fail (e.mapPos f) depth (standing.mapPos f)

@[simp] theorem Lexeme.kind_mapPos (t : Lexeme) : (t.mapPos f).kind = t.kind := rfl

theorem Lexeme.unexpected_mapPos (t : Lexeme) (what : Expectation) :
    (t.mapPos f).unexpected what = (t.unexpected what).mapPos f := by
  simp only [Lexeme.unexpected, Lexeme.mapPos]
  split <;> rfl

theorem Expr.extend_mapPos (op : BinOp) (e : Expr) : ∀ t : Expr,
    (t.extend op e).mapPos f = (t.mapPos f).extend op (e.mapPos f)
  | .lit _ _ | .var _ | .not _ _ | .paren _ _ | .call _ _ | .pipe _ _ => rfl
  | .binary o l r => by
    rw [Expr.extend, Expr.mapPos, Expr.extend]
    split
    · rw [Expr.mapPos, extend_mapPos op e r]
    · rw [Expr.mapPos, Expr.mapPos]

theorem Expr.joined_mapPos (e : Expr) (pending : Option (Expr × BinOp)) :
    (e.joined pending).mapPos f = (e.mapPos f).joined (pending.map fun q => (q.1.mapPos f, q.2)) := by
  cases pending with
  | none => rfl
  | some q => exact extend_mapPos f q.2 e q.1

theorem Expr.negated_mapPos : ∀ (nots : List Position) (e : Expr),
    (e.negated nots).mapPos f = (e.mapPos f).negated (nots.map f)
  | [], _ => rfl
  | p :: nots, e => negated_mapPos nots (.not e p)

namespace Reading

variable {base : Nat}

@[simp] theorem framesDepth_mapPos : ∀ frames : List Frame, framesDepth (frames.map (Frame.mapPos f)) = framesDepth frames
  | [] => rfl
  | .paren _ outer :: frames => by
    rw [List.map_cons, Frame.mapPos, framesDepth, framesDepth_mapPos frames, framesDepth, Level.mapPos, List.length_map]
  | .call _ _ outer :: frames => by
    rw [List.map_cons, Frame.mapPos, framesDepth, framesDepth_mapPos frames, framesDepth, Level.mapPos, List.length_map]

@[simp] theorem depth_mapPos (r : Reading) : (r.mapPos f).depth = r.depth := by
  rw [depth, mapPos, framesDepth_mapPos, Level.mapPos, List.length_map, depth]

theorem enter_mapPos (p : Position) (r : Reading) : enter base (f p) (r.mapPos f) = (enter base p r).mapPos f := by
  rw [enter, depth_mapPos, enter]
  split <;> rfl

theorem operandRead_mapPos (level : Level) (frames : List Frame) (e : Expr) :
    (operandRead level frames e).mapPos f =
      operandRead (level.mapPos f) (frames.map (Frame.mapPos f)) (e.mapPos f) := by
  rw [operandRead, mapPos, Phase.mapPos, Expr.negated_mapPos]
  rfl

theorem fail_mapPos {t : Lexeme} {what : Expectation} {depth : Nat} :
    Step.fail ((t.mapPos f).unexpected what) depth .inFront = (Step.fail (t.unexpected what) depth .inFront).mapPos f := by
  rw [Lexeme.unexpected_mapPos]
  rfl

theorem stepOperand_mapPos (level : Level) (frames : List Frame) (t : Lexeme) :
    stepOperand base (level.mapPos f) (frames.map (Frame.mapPos f)) (t.mapPos f) =
      (stepOperand base level frames t).mapPos f := by
  rw [stepOperand, Lexeme.kind_mapPos, stepOperand]
  split
  · exact enter_mapPos f t.pos ⟨.operand, ⟨level.pending, t.pos :: level.nots⟩, frames⟩
  · exact enter_mapPos f t.pos ⟨.operand, .start, .paren t.pos level :: frames⟩
  · rfl
  · exact congrArg Step.shift (operandRead_mapPos f level frames (.lit (.string t.body) t.pos)).symm
  · exact congrArg Step.shift (operandRead_mapPos f level frames (.lit (.bool true) t.pos)).symm
  · exact congrArg Step.shift (operandRead_mapPos f level frames (.lit (.bool false) t.pos)).symm
  · rw [framesDepth_mapPos, Level.mapPos, List.length_map]
    exact fail_mapPos f

theorem stepEnd_mapPos (frames : List Frame) (e : Expr) (t : Lexeme) :
    stepEnd base (frames.map (Frame.mapPos f)) (e.mapPos f) (t.mapPos f) = (stepEnd base frames e t).mapPos f := by
  have hfail : ∀ frames : List Frame, Step.fail ((t.mapPos f).unexpected (.token .rParen))
      (base + framesDepth (frames.map (Frame.mapPos f))) .inFront =
        (Step.fail (t.unexpected (.token .rParen)) (base + framesDepth frames) .inFront).mapPos f := fun frames => by
    rw [framesDepth_mapPos, fail_mapPos]
  obtain ⟨k, w, p⟩ := t
  cases frames with
  | nil => rfl
  | cons frame frames =>
    cases frame with
    | paren pos outer =>
      cases k with
      | rParen => exact congrArg Step.shift (operandRead_mapPos f outer frames (.paren e pos)).symm
      | _ => exact hfail (.paren pos outer :: frames)
    | call func args outer =>
      cases k with
      | rParen =>
        have hcall : (Expr.call func (e :: args).reverse).mapPos f =
            .call (func.mapPos f) (e.mapPos f :: Expr.mapPosList f args).reverse := by
          rw [Expr.mapPos, Expr.mapPosList_reverse, Expr.mapPosList]
        have hread := operandRead_mapPos f outer frames (.call func (e :: args).reverse)
        rw [hcall] at hread
        exact congrArg Step.shift hread.symm
      | comma => rfl
      | _ => exact hfail (.call func args outer :: frames)

theorem stepComplete_mapPos (pending : Option (Expr × BinOp)) (frames : List Frame) (e : Expr) (t : Lexeme) :
    stepComplete base (pending.map fun q => (q.1.mapPos f, q.2)) (frames.map (Frame.mapPos f)) (e.mapPos f)
        (t.mapPos f) = (stepComplete base pending frames e t).mapPos f := by
  rw [stepComplete, Lexeme.kind_mapPos, stepComplete]
  split
  · rfl
  · rw [← Expr.joined_mapPos]
    split
    · rfl
    · exact stepEnd_mapPos f frames _ t

theorem stepFirstArg_mapPos (level : Level) (frames : List Frame) (t : Lexeme) :
    stepFirstArg base (level.mapPos f) (frames.map (Frame.mapPos f)) (t.mapPos f) =
      (stepFirstArg base level frames t).mapPos f := by
  have hoperand : ∀ frames, stepOperand base (level.mapPos f) (frames.map (Frame.mapPos f)) (t.mapPos f) =
      (stepOperand base level frames t).mapPos f := fun frames => stepOperand_mapPos f level frames t
  obtain ⟨k, w, p⟩ := t
  cases frames with
  | nil => exact hoperand []
  | cons frame frames =>
    cases frame with
    | paren pos outer => exact hoperand (.paren pos outer :: frames)
    | call func args outer =>
      cases k with
      | rParen =>
        have hread := operandRead_mapPos f outer frames (.call func args.reverse)
        rw [Expr.mapPos, Expr.mapPosList_reverse] at hread
        exact congrArg Step.shift hread.symm
      | _ => exact hoperand (.call func args outer :: frames)

theorem stepNamed_mapPos (level : Level) (frames : List Frame) (x : Ident) (t : Lexeme) :
    stepNamed base (level.mapPos f) (frames.map (Frame.mapPos f)) (x.mapPos f) (t.mapPos f) =
      (stepNamed base level frames x t).mapPos f := by
  rw [stepNamed, Lexeme.kind_mapPos, stepNamed]
  split
  · exact enter_mapPos f x.pos ⟨.firstArg, .start, .call x [] level :: frames⟩
  · have hvar := Expr.negated_mapPos f level.nots (.var x)
    rw [Expr.mapPos] at hvar
    rw [← stepComplete_mapPos, hvar]
    rfl

theorem stepFunction_mapPos (level : Level) (frames : List Frame) (e : Expr) (t : Lexeme) :
    stepFunction base (level.mapPos f) (frames.map (Frame.mapPos f)) (e.mapPos f) (t.mapPos f) =
      (stepFunction base level frames e t).mapPos f := by
  rw [stepFunction, Lexeme.kind_mapPos, stepFunction]
  split
  · rfl
  · rw [framesDepth_mapPos, Level.mapPos, List.length_map]
    exact fail_mapPos f

/-- **An expression is read the same wherever its tokens stand.** -/
theorem step_mapPos (r : Reading) (t : Lexeme) :
    (r.mapPos f).step base (t.mapPos f) = (r.step base t).mapPos f := by
  obtain ⟨phase, level, frames⟩ := r
  cases phase with
  | operand => exact stepOperand_mapPos f level frames t
  | firstArg => exact stepFirstArg_mapPos f level frames t
  | named x => exact stepNamed_mapPos f level frames x t
  | complete e => exact stepComplete_mapPos f level.pending frames e t
  | function e => exact stepFunction_mapPos f level frames e t

end Reading
/-! ## Blocks -/

def Use.mapPos : Use → Use
  | .render => .render
  | .cond p before => .cond (f p) (Block.mapPosBranches f before)
  | .switch p => .switch (f p)
  | .pattern p v before patterns =>
    .pattern (f p) (v.mapPos f) (Block.mapPosCases f before) (Expr.mapPosList f patterns)

def Opening.mapPos : Opening → Opening
  | .branch p before c => .branch (f p) (Block.mapPosBranches f before) (c.mapPos f)
  | .otherwise p before => .otherwise (f p) (Block.mapPosBranches f before)
  | .case p v before patterns =>
    .case (f p) (v.mapPos f) (Block.mapPosCases f before) (Expr.mapPosList f patterns)

def Place.mapPos : Place → Place
  | .body => .body
  | .tag opener => .tag (opener.mapPos f)
  | .expr use r => .expr (use.mapPos f) (r.mapPos f)
  | .comment p => .comment (f p)
  | .commentEnd p content => .commentEnd (f p) content
  | .elseEnd p before => .elseEnd (f p) (Block.mapPosBranches f before)
  | .statementEnd b => .statementEnd (b.mapPos f)
  | .firstCase p v => .firstCase (f p) (v.mapPos f)
  | .firstCaseTag p v opener => .firstCaseTag (f p) (v.mapPos f) (opener.mapPos f)

namespace Progress

variable (pre : List Block)

/-- The blocks of a body inside `outer`, moved, the latest first; the outermost body goes on behind `pre`. -/
def resumedBlocks (bs : List Block) : List (Opening × List Block) → List Block
  | [] => Block.mapPosList f bs ++ pre
  | _ :: _ => Block.mapPosList f bs

def resumedOuter : List (Opening × List Block) → List (Opening × List Block)
  | [] => []
  | (o, bs) :: outer => (o.mapPos f, resumedBlocks f pre bs outer) :: resumedOuter outer

/-- The same progress at moved positions, when the blocks `pre`, the latest first, had been read before. -/
def resumed (p : Progress) : Progress :=
  ⟨p.place.mapPos f, resumedBlocks f pre p.blocks p.outer, resumedOuter f pre p.outer⟩

def Step.resumed : Step → Step
  | .shift p => .shift (p.resumed f pre)
  | .accept t => .accept (pre.reverse ++ Template.mapPos f t)
  | .fail e depth standing => .fail (e.mapPos f) depth (standing.mapPos f)

theorem resumedBlocks_cons (b : Block) (bs : List Block) (outer : List (Opening × List Block)) :
    resumedBlocks f pre (b :: bs) outer = b.mapPos f :: resumedBlocks f pre bs outer := by
  cases outer <;> rfl

theorem length_resumedOuter : ∀ outer : List (Opening × List Block), (resumedOuter f pre outer).length = outer.length
  | [] => rfl
  | _ :: outer => congrArg Nat.succ (length_resumedOuter outer)

theorem depth_place_mapPos : ∀ place : Place, (place.mapPos f).depth = place.depth
  | .body | .tag _ | .comment _ | .commentEnd _ _ | .elseEnd _ _ | .statementEnd _ | .firstCase _ _
  | .firstCaseTag _ _ _ => rfl
  | .expr .render r => r.depth_mapPos f
  | .expr (.cond _ _) r | .expr (.switch _) r | .expr (.pattern _ _ _ _) r => congrArg (1 + ·) (r.depth_mapPos f)

@[simp] theorem depth_resumed (p : Progress) : (p.resumed f pre).depth = p.depth := by
  rw [depth, resumed, length_resumedOuter, depth_place_mapPos, depth]

theorem push_resumed (p : Progress) (b : Block) : (p.push b).resumed f pre = (p.resumed f pre).push (b.mapPos f) := by
  rw [push, resumed, resumedBlocks_cons]
  rfl

theorem openBody_resumed (p : Progress) (o : Opening) :
    (p.openBody o).resumed f pre = (p.resumed f pre).openBody (o.mapPos f) := rfl

variable {f pre} {base : Nat}

theorem unexpected_resumed (p : Progress) (t : Lexeme) (what : Expectation) :
    unexpected base (p.resumed f pre) (t.mapPos f) what = (unexpected base p t what).resumed f pre := by
  rw [unexpected, depth_resumed, Lexeme.unexpected_mapPos]
  rfl

theorem expect_resumed (p : Progress) (t : Lexeme) (kind : TokenKind) (next : Progress) :
    expect base (p.resumed f pre) (t.mapPos f) kind (next.resumed f pre) =
      (expect base p t kind next).resumed f pre := by
  rw [expect, Lexeme.kind_mapPos, expect]
  split
  · rfl
  · exact unexpected_resumed p t _

theorem stepBody_resumed (p : Progress) (t : Lexeme) :
    stepBody base (p.resumed f pre) (t.mapPos f) = (stepBody base p t).resumed f pre := by
  rw [stepBody, Lexeme.kind_mapPos, stepBody]
  split
  · exact congrArg Step.shift (push_resumed f pre p (.text t.text t.pos)).symm
  · rfl
  · rfl
  · rfl
  · obtain ⟨place, bs, outer⟩ := p
    cases outer with
    | nil =>
      refine congrArg Step.accept ?_
      rw [resumed, resumedBlocks, List.reverse_append, ← Block.mapPosList_reverse]
      rfl
    | cons o outer =>
      have hdepth := depth_resumed f pre ⟨place, bs, o :: outer⟩
      obtain ⟨o, before⟩ := o
      rw [resumed, resumedOuter] at hdepth ⊢
      dsimp only
      rw [hdepth]
      cases o <;> rfl
  · exact unexpected_resumed p t _

theorem openStatement_resumed (p : Progress) (opener t : Lexeme) :
    openStatement base (p.resumed f pre) (opener.mapPos f) (t.mapPos f) =
      (openStatement base p opener t).resumed f pre := by
  rw [openStatement, depth_resumed, Lexeme.kind_mapPos, openStatement]
  split
  · rfl
  · split
    · rfl
    · rfl
    · rw [Lexeme.unexpected_mapPos]
      rfl

theorem stepOpening_resumed (place : Place) (bs : List Block) (o : Opening) (before : List Block)
    (outer : List (Opening × List Block)) (opener t : Lexeme) :
    stepOpening base (Progress.resumed f pre ⟨place, bs, (o, before) :: outer⟩) (o.mapPos f)
        (resumedBlocks f pre before outer) (resumedOuter f pre outer) (opener.mapPos f) (t.mapPos f) =
      (stepOpening base ⟨place, bs, (o, before) :: outer⟩ o before outer opener t).resumed f pre := by
  have hdepth : (Progress.resumed f pre ⟨place, bs, (o, before) :: outer⟩).depth = _ := depth_resumed f pre _
  have hbody : ∀ o, (resumedBlocks f pre bs (o :: outer)).reverse = Block.mapPosList f bs.reverse := fun _ =>
    (Block.mapPosList_reverse f bs).symm
  have hfail := Lexeme.unexpected_mapPos f t .caseOrEnd
  obtain ⟨k, w, q⟩ := t
  cases o with
  | branch pos cs c =>
    cases k with
    | «elseif» =>
      simp only [stepOpening, hbody, Opening.mapPos, Lexeme.mapPos, Step.resumed, Progress.resumed, Place.mapPos,
        Use.mapPos, Block.mapPosBranches]
      rfl
    | «else» | «end» =>
      simp only [stepOpening, hbody, Opening.mapPos, Lexeme.mapPos, Step.resumed, Progress.resumed, Place.mapPos,
        Block.mapPos, Block.mapPosBranches_reverse, Block.mapPosBranches]
    | _ =>
      simp only [stepOpening, hdepth, Opening.mapPos, Lexeme.mapPos]
      rfl
  | otherwise pos cs =>
    cases k with
    | «end» =>
      simp only [stepOpening, hbody, Opening.mapPos, Lexeme.mapPos, Step.resumed, Progress.resumed, Place.mapPos,
        Block.mapPos, Block.mapPosBranches_reverse]
    | _ =>
      simp only [stepOpening, hdepth, Opening.mapPos, Lexeme.mapPos]
      rfl
  | case pos v cs ps =>
    cases k with
    | «case» =>
      simp only [stepOpening, hbody, Opening.mapPos, Lexeme.mapPos, Step.resumed, Progress.resumed, Place.mapPos,
        Use.mapPos, Block.mapPosCases]
      rfl
    | «end» =>
      simp only [stepOpening, hbody, Opening.mapPos, Lexeme.mapPos, Step.resumed, Progress.resumed, Place.mapPos,
        Block.mapPos, Block.mapPosCases_reverse, Block.mapPosCases]
    | _ =>
      simp only [Lexeme.mapPos] at hfail
      simp only [stepOpening, hdepth, Opening.mapPos, Lexeme.mapPos, hfail]
      rfl

theorem stepTag_resumed (p : Progress) (opener t : Lexeme) :
    stepTag base (p.resumed f pre) (opener.mapPos f) (t.mapPos f) = (stepTag base p opener t).resumed f pre := by
  rw [stepTag, Lexeme.kind_mapPos, stepTag]
  split
  · obtain ⟨place, bs, outer⟩ := p
    cases outer with
    | nil =>
      have hdepth := depth_resumed f pre ⟨place, bs, []⟩
      rw [resumed, resumedOuter] at hdepth ⊢
      dsimp only
      rw [hdepth]
      rfl
    | cons o outer => exact stepOpening_resumed place bs o.1 o.2 outer opener t
  · exact openStatement_resumed p opener t

theorem stepUse_resumed (p : Progress) (use : Use) (e : Expr) (t : Lexeme) :
    stepUse base (p.resumed f pre) (use.mapPos f) (e.mapPos f) (t.mapPos f) =
      (stepUse base p use e t).resumed f pre := by
  cases use with
  | render =>
    have hpush := push_resumed f pre p (.render e)
    rw [Block.mapPos] at hpush
    rw [Use.mapPos, stepUse, ← hpush, expect_resumed]
    rfl
  | cond pos cs => exact expect_resumed p t .rBracePercent (p.openBody (.branch pos cs e))
  | switch pos => exact expect_resumed p t .rBracePercent ⟨.firstCase pos e, p.blocks, p.outer⟩
  | pattern pos v cs ps =>
    rw [Use.mapPos, stepUse, Lexeme.kind_mapPos, stepUse]
    split
    · rfl
    · have hopen := openBody_resumed f pre p (.case pos v cs (e :: ps).reverse)
      rw [Opening.mapPos, Expr.mapPosList_reverse, Expr.mapPosList] at hopen
      rw [← hopen, expect_resumed]

theorem stepExpr_resumed (p : Progress) (use : Use) (r : Reading) (t : Lexeme) :
    stepExpr base (p.resumed f pre) (use.mapPos f) (r.mapPos f) (t.mapPos f) =
      (stepExpr base p use r t).resumed f pre := by
  have haround : base + (p.resumed f pre).outer.length + (Place.expr (use.mapPos f) .start).depth =
      base + p.outer.length + (Place.expr use .start).depth := by
    rw [resumed, length_resumedOuter]
    cases use <;> rfl
  rw [stepExpr, haround, Reading.step_mapPos, stepExpr]
  cases r.step (base + p.outer.length + (Place.expr use .start).depth) t with
  | shift r => rfl
  | accept e => exact stepUse_resumed ⟨.expr use .start, p.blocks, p.outer⟩ use e t
  | fail e depth standing => rfl

theorem stepFirstCase_resumed (p : Progress) (pos : Position) (v : Expr) (t : Lexeme) :
    stepFirstCase base (p.resumed f pre) (f pos) (v.mapPos f) (t.mapPos f) =
      (stepFirstCase base p pos v t).resumed f pre := by
  rw [stepFirstCase, Lexeme.kind_mapPos, stepFirstCase]
  split
  · rfl
  · rw [depth_resumed]
    rfl
  · rw [show (t.mapPos f).text = t.text from rfl]
    split
    · rfl
    · exact unexpected_resumed p t _
  · exact unexpected_resumed p t _

theorem stepFirstCaseTag_resumed (p : Progress) (pos : Position) (v : Expr) (opener t : Lexeme) :
    stepFirstCaseTag base (p.resumed f pre) (f pos) (v.mapPos f) (opener.mapPos f) (t.mapPos f) =
      (stepFirstCaseTag base p pos v opener t).resumed f pre := by
  rw [stepFirstCaseTag, Lexeme.kind_mapPos, stepFirstCaseTag]
  split
  · rfl
  · rfl
  · rw [depth_resumed, Lexeme.unexpected_mapPos]
    rfl

theorem stepComment_resumed (p : Progress) (pos : Position) (t : Lexeme) :
    stepComment base (p.resumed f pre) (f pos) (t.mapPos f) = (stepComment base p pos t).resumed f pre := by
  rw [stepComment, Lexeme.kind_mapPos, stepComment]
  split
  · rfl
  · rw [← expect_resumed, push_resumed]
    rfl

/-- **A token of a template is read the same wherever it stands and whatever was read before it** in the outermost
body. -/
theorem step_resumed (p : Progress) (t : Lexeme) :
    (p.resumed f pre).step base (t.mapPos f) = (p.step base t).resumed f pre := by
  obtain ⟨place, bs, outer⟩ := p
  cases place with
  | body => exact stepBody_resumed _ t
  | tag opener => exact stepTag_resumed _ opener t
  | expr use r => exact stepExpr_resumed _ use r t
  | comment pos => exact stepComment_resumed _ pos t
  | commentEnd pos content =>
    have hpush := push_resumed f pre ⟨.commentEnd pos content, bs, outer⟩ (.comment content pos)
    exact (congrArg _ hpush.symm).trans (expect_resumed ⟨.commentEnd pos content, bs, outer⟩ t .rBracePound _)
  | elseEnd pos cs =>
    exact expect_resumed ⟨.elseEnd pos cs, bs, outer⟩ t .rBracePercent
      (openBody ⟨.elseEnd pos cs, bs, outer⟩ (.otherwise pos cs))
  | statementEnd b =>
    have hpush := push_resumed f pre ⟨.statementEnd b, bs, outer⟩ b
    exact (congrArg _ hpush.symm).trans (expect_resumed ⟨.statementEnd b, bs, outer⟩ t .rBracePercent _)
  | firstCase pos v => exact stepFirstCase_resumed _ pos v t
  | firstCaseTag pos v opener => exact stepFirstCaseTag_resumed _ pos v opener t

end Progress

namespace Parser

variable (base : Nat)

/-- **What is read behind a template is what would have been read from the start**, behind the blocks of the template and
at moved positions; so is an error. -/
theorem runTemplate_resumed (pre : List Block) (eof : Lexeme) : ∀ (ts : List Lexeme) (p : Progress),
    (runTemplate (eof.mapPos f) base (p.resumed f pre) (ts.map (Lexeme.mapPos f))).1 =
      ((runTemplate eof base p ts).1.map fun t => pre.reverse ++ Template.mapPos f t).mapError (ParseError.mapPos f)
  | [], p => by
    rw [List.map_nil, runTemplate, Progress.step_resumed, runTemplate]
    cases p.step base eof with
    | shift p' => exact congrArg Except.error (Lexeme.unexpected_mapPos f eof .textOrTag)
    | accept t => rfl
    | fail e depth standing => rfl
  | t :: ts, p => by
    rw [List.map_cons, runTemplate, Progress.step_resumed, runTemplate]
    cases p.step base t with
    | shift p' => exact runTemplate_resumed pre eof ts p'
    | accept t => rfl
    | fail e depth standing => rfl

end Parser
end Stencil
