import Stencil.Proofs.Formatting
/-!
# Sugar — forms that may be written otherwise

A pipe is a call with one argument, parentheses are their content, and a condition with several branches is one with a
single branch and the others in its `else`.  `Desugars` relates a tree to what it becomes when any of these forms in it
are rewritten so.  A rewritten template renders and is analyzed as before, but for positions
(`Template.desugared_means_same`): an operator whose left operand was a pipe starts at another place then.

Trees are compared with all positions forgotten.  What a form renders to and what it says about types is what its
rewriting does, and the rest is congruence.
-/
namespace Stencil

mutual

/-- An expression becomes another one when some of its pipes and parentheses are rewritten. -/
inductive Expr.Desugars : Expr → Expr → Prop
  | lit (v : Literal) (p : Position) : Desugars (.lit v p) (.lit v p)
  | var (x : Ident) : Desugars (.var x) (.var x)
  | not {e e' : Expr} (p : Position) (he : Desugars e e') : Desugars (.not e p) (.not e' p)
  | binary {l l' r r' : Expr} (op : BinOp) (hl : Desugars l l') (hr : Desugars r r') :
      Desugars (.binary op l r) (.binary op l' r')
  | paren {e e' : Expr} (p : Position) (he : Desugars e e') : Desugars (.paren e p) (.paren e' p)
  | call {args args' : List Expr} (f : Ident) (hargs : DesugarsList args args') :
      Desugars (.call f args) (.call f args')
  | pipe {a a' : Expr} (f : Ident) (ha : Desugars a a') : Desugars (.pipe a f) (.pipe a' f)
  | unpipe {a a' : Expr} (f : Ident) (ha : Desugars a a') : Desugars (.pipe a f) (.call f [a'])
  | unparen {e e' : Expr} (p : Position) (he : Desugars e e') : Desugars (.paren e p) e'

inductive Expr.DesugarsList : List Expr → List Expr → Prop
  | nil : DesugarsList [] []
  | cons {e e' : Expr} {es es' : List Expr} (he : Expr.Desugars e e') (hes : DesugarsList es es') :
      DesugarsList (e :: es) (e' :: es')

end

mutual

inductive Block.Desugars : Block → Block → Prop
  | text (c : Bytes) (p : Position) : Desugars (.text c p) (.text c p)
  | comment (c : Bytes) (p : Position) : Desugars (.comment c p) (.comment c p)
  | render {e e' : Expr} (he : e.Desugars e') : Desugars (.render e) (.render e')
  | cond {bs bs' : List (Expr × List Block)} (p : Position) (hbs : DesugarsBranches bs bs') :
      Desugars (.cond bs none p) (.cond bs' none p)
  | condElse {bs bs' : List (Expr × List Block)} {body body' : List Block} (p : Position)
      (hbs : DesugarsBranches bs bs') (hbody : DesugarsList body body') :
      Desugars (.cond bs (some body) p) (.cond bs' (some body') p)
  | switch {v v' : Expr} {cs cs' : List (List Expr × List Block)} (p : Position) (hv : v.Desugars v')
      (hcs : DesugarsCases cs cs') : Desugars (.switch v cs p) (.switch v' cs' p)
  /-- The branches after the first are the `else` of the first, as a condition of their own. -/
  | unbranch {c c' : Expr} {body body' : List Block} {rest : List (Expr × List Block)}
      {otherwise : Option (List Block)} {b : Block} (p q : Position) (hc : c.Desugars c')
      (hbody : DesugarsList body body') (hrest : Desugars (.cond rest otherwise q) b) :
      Desugars (.cond ((c, body) :: rest) otherwise p) (.cond [(c', body')] (some [b]) p)

inductive Block.DesugarsList : List Block → List Block → Prop
  | nil : DesugarsList [] []
  | cons {b b' : Block} {bs bs' : List Block} (hb : Block.Desugars b b') (hbs : DesugarsList bs bs') :
      DesugarsList (b :: bs) (b' :: bs')

inductive Block.DesugarsBranches : List (Expr × List Block) → List (Expr × List Block) → Prop
  | nil : DesugarsBranches [] []
  | cons {c c' : Expr} {body body' : List Block} {bs bs' : List (Expr × List Block)} (hc : c.Desugars c')
      (hbody : Block.DesugarsList body body') (hbs : DesugarsBranches bs bs') :
      DesugarsBranches ((c, body) :: bs) ((c', body') :: bs')

inductive Block.DesugarsCases : List (List Expr × List Block) → List (List Expr × List Block) → Prop
  | nil : DesugarsCases [] []
  | cons {ps ps' : List Expr} {body body' : List Block} {cs cs' : List (List Expr × List Block)}
      (hps : Expr.DesugarsList ps ps') (hbody : Block.DesugarsList body body') (hcs : DesugarsCases cs cs') :
      DesugarsCases ((ps, body) :: cs) ((ps', body') :: cs')

end

/-! ## Values -/

theorem Expr.evalArgs_cons_congr {s : Scope} {e e' : Expr} {es es' : List Expr} {func : Bytes} {number : Nat}
    (he : e'.eval s = e.eval s) (hpos : e'.pos = e.pos)
    (hes : ∀ wants, evalArgs s func (number + 1) es' wants = evalArgs s func (number + 1) es wants) :
    ∀ wants : List Ty, evalArgs s func number (e' :: es') wants = evalArgs s func number (e :: es) wants
  | [] => rfl
  | want :: wants => by rw [evalArgs, evalArgs, he, hpos, hes wants]

abbrev Position.forget (_ : Position) : Position := .zero

open Position (forget)

theorem Expr.pos_forget (d e : Expr) : (d.mapPos forget).pos = (e.mapPos forget).pos := by
  rw [pos_mapPos, pos_mapPos]

theorem Expr.DesugarsList.length_eq : ∀ {es es' : List Expr}, Expr.DesugarsList es es' → es'.length = es.length
  | _, _, .nil => rfl
  | _, _, .cons _ hes => congrArg (· + 1) hes.length_eq

mutual

/-- **Rewritten expressions have the same values**, and errors of the same cause. -/
theorem Expr.Desugars.eval (s : Scope) : ∀ {e e' : Expr}, e.Desugars e' →
    (e'.mapPos forget).eval s = (e.mapPos forget).eval s
  | _, _, .lit _ _ => rfl
  | _, _, .var _ => rfl
  | _, _, .not p he => by rw [Expr.mapPos, Expr.eval, he.eval s, Expr.mapPos, Expr.eval]
  | _, _, @Expr.Desugars.binary l l' _ _ op hl hr => by
    rw [Expr.mapPos, Expr.eval, hl.eval s, hr.eval s, Expr.pos_forget l' l, Expr.mapPos, Expr.eval]
  | _, _, .paren p he => by rw [Expr.mapPos, Expr.eval, he.eval s, Expr.mapPos, Expr.eval]
  | _, _, .call f hargs => by
    rw [Expr.mapPos, Expr.eval, Expr.length_mapPosList, hargs.length_eq, Expr.mapPos, Expr.eval, Expr.length_mapPosList]
    simp only [hargs.evalArgs s]
  | _, _, @Expr.Desugars.pipe a a' f ha => by
    rw [Expr.mapPos, Expr.eval, ha.eval s, Expr.pos_forget a' a, Expr.mapPos, Expr.eval]
  | _, _, .unpipe f ha => by
    rw [Expr.mapPos, Expr.mapPos, Expr.eval_pipe, Expr.eval, Expr.eval]
    simp only [Expr.mapPosList, List.length_singleton,
      Expr.evalArgs_cons_congr (ha.eval s) (Expr.pos_forget _ _) fun _ => rfl]
  | _, _, .unparen p he => by rw [he.eval s, Expr.mapPos, Expr.eval]

theorem Expr.DesugarsList.evalArgs (s : Scope) : ∀ {es es' : List Expr}, Expr.DesugarsList es es' →
    ∀ (func : Bytes) (number : Nat) (wants : List Ty), Expr.evalArgs s func number (Expr.mapPosList forget es') wants =
      Expr.evalArgs s func number (Expr.mapPosList forget es) wants
  | _, _, .nil, _, _ => fun _ => rfl
  | _, _, .cons he hes, func, number =>
    Expr.evalArgs_cons_congr (he.eval s) (Expr.pos_forget _ _) (hes.evalArgs s func (number + 1))

end

theorem Expr.Desugars.output {e e' : Expr} (h : e.Desugars e') (s : Scope) :
    (e'.mapPos forget).output s = (e.mapPos forget).output s := by
  rw [Expr.output, Expr.output, h.eval s, Expr.pos_forget e' e]

theorem Expr.Desugars.holds {e e' : Expr} (h : e.Desugars e') (s : Scope) :
    (e'.mapPos forget).holds s = (e.mapPos forget).holds s := by
  rw [Expr.holds, Expr.holds, h.eval s, Expr.pos_forget e' e]

/-! ## Output -/

theorem Block.mapPos_cond (f : Position → Position) (bs : List (Expr × List Block)) (otherwise : Option (List Block))
    (p : Position) : (Block.cond bs otherwise p).mapPos f =
      .cond (Block.mapPosBranches f bs) (otherwise.map (Block.mapPosList f)) (f p) := by
  cases otherwise <;> rfl

section Output

variable {σ : Type} (sink : Sink σ) (s : Scope)

theorem Block.writeList_singleton (b : Block) (st : σ) : Block.writeList sink s [b] st = b.write sink s st := by
  rw [Block.writeList]
  rcases b.write sink s st with ⟨st, err | ⟨⟩⟩ <;> rfl

/-- **The branches after the first may be its `else`.** -/
theorem Block.write_unbranch (c : Expr) (body : List Block) (rest : List (Expr × List Block))
    (otherwise : Option (List Block)) (p q : Position) (st : σ) :
    (Block.cond ((c, body) :: rest) otherwise p).write sink s st =
      (Block.cond [(c, body)] (some [.cond rest otherwise q]) p).write sink s st := by
  rcases h : c.holds s with err | (_ | _) <;> cases otherwise <;>
    simp only [Block.write, Block.writeBranches, Block.writeList_singleton, h]

theorem Block.write_choice_congr {c c' : Expr} {body body' : List Block} {b b' : Block} {st : σ}
    (hc : c'.holds s = c.holds s) (hbody : Block.writeList sink s body' st = Block.writeList sink s body st)
    (hb : b'.write sink s st = b.write sink s st) (p : Position) :
    (Block.cond [(c', body')] (some [b']) p).write sink s st =
      (Block.cond [(c, body)] (some [b]) p).write sink s st := by
  simp only [Block.write, Block.writeBranches, Block.writeList_singleton, hc, hbody, hb]

mutual

/-- **Rewritten blocks write the same**, and fail for the same cause. -/
theorem Block.Desugars.write : ∀ {b b' : Block}, b.Desugars b' → ∀ st : σ,
    (b'.mapPos forget).write sink s st = (b.mapPos forget).write sink s st
  | _, _, .text _ _, _ => rfl
  | _, _, .comment _ _, _ => rfl
  | _, _, .render he, st => by rw [Block.mapPos, Block.write, he.output s, Block.mapPos, Block.write]
  | _, _, .cond p hbs, st => by rw [Block.mapPos, Block.write, hbs.write st, Block.mapPos, Block.write]
  | _, _, .condElse p hbs hbody, st => by
    rw [Block.mapPos, Block.write, hbs.write st, hbody.write st, Block.mapPos, Block.write]
  | _, _, .switch _ _ _, _ => rfl
  | _, _, .unbranch p q hc hbody hrest, st => by
    -- the parts are replaced in the nested form first, which then is compared with the branches side by side
    have hrest := hrest.write st
    rw [Block.mapPos_cond] at hrest ⊢
    rw [Block.mapPos_cond]
    exact (Block.write_choice_congr sink s (hc.holds s) (hbody.write st) hrest _).trans
      (Block.write_unbranch sink s _ _ _ _ _ _ st).symm

theorem Block.DesugarsList.write : ∀ {bs bs' : List Block}, Block.DesugarsList bs bs' → ∀ st : σ,
    Block.writeList sink s (Block.mapPosList forget bs') st = Block.writeList sink s (Block.mapPosList forget bs) st
  | _, _, .nil, _ => rfl
  | _, _, .cons hb hbs, st => by
    rw [Block.mapPosList, Block.writeList, hb.write st, Block.mapPosList, Block.writeList]
    simp only [hbs.write]

theorem Block.DesugarsBranches.write : ∀ {bs bs' : List (Expr × List Block)}, Block.DesugarsBranches bs bs' →
    ∀ st : σ, Block.writeBranches sink s (Block.mapPosBranches forget bs') st =
      Block.writeBranches sink s (Block.mapPosBranches forget bs) st
  | _, _, .nil, _ => rfl
  | _, _, .cons hc hbody hbs, st => by
    rw [Block.mapPosBranches, Block.writeBranches, hc.holds s, hbody.write st, hbs.write st, Block.mapPosBranches,
      Block.writeBranches]

end

end Output

/-! ## Types -/

section Types

variable (registry : Registry)

theorem Expr.Desugars.staticTy? : ∀ {e e' : Expr}, e.Desugars e' → e'.staticTy? registry = e.staticTy? registry
  | _, _, .lit _ _ | _, _, .var _ | _, _, .not _ _ | _, _, .call _ _ | _, _, .pipe _ _ | _, _, .unpipe _ _ => rfl
  | _, _, .binary op _ _ => by cases op <;> rfl
  | _, _, .paren _ he | _, _, .unparen _ he => he.staticTy?

theorem Expr.Desugars.unparen_eq_var {x : Ident} : ∀ {e e' : Expr}, e.Desugars e' →
    (e'.unparen = .var x ↔ e.unparen = .var x)
  | _, _, .lit _ _ | _, _, .var _ => Iff.rfl
  | _, _, .not _ _ | _, _, .binary _ _ _ | _, _, .call _ _ | _, _, .pipe _ _ | _, _, .unpipe _ _ =>
    ⟨nofun, nofun⟩
  | _, _, .paren _ he | _, _, .unparen _ he => he.unparen_eq_var

theorem Expr.Desugars.bareNames? {l l' r r' : Expr} (hl : l.Desugars l') (hr : r.Desugars r') :
    l'.bareNames? r' = l.bareNames? r := by
  refine Option.ext fun (x, y) => ?_
  rw [Expr.bareNames?_eq_some, Expr.bareNames?_eq_some, hl.unparen_eq_var, hr.unparen_eq_var]

/-- **A pipe says about types what the call does.** -/
theorem Expr.findings_pipe (a : Expr) (f : Ident) (want : Option Ty) :
    (Expr.pipe a f).findings registry want = (Expr.call f [a]).findings registry want := by
  rw [Expr.findings, Expr.findings]
  cases registry.find? f.name with
  | none => simp only [Expr.findingsArgs, List.head?_nil, List.append_nil]
  | some b => simp only [Expr.findingsArgs, List.append_nil, List.length_singleton]

mutual

/-- **Rewritten expressions say the same about types.** -/
theorem Expr.Desugars.findings : ∀ {e e' : Expr}, e.Desugars e' → ∀ want : Option Ty,
    (e'.mapPos forget).findings registry want = (e.mapPos forget).findings registry want
  | _, _, .lit _ _, _ => rfl
  | _, _, .var _, _ => rfl
  | _, _, .not p he, want => by rw [Expr.mapPos, Expr.findings, he.findings, Expr.mapPos, Expr.findings]
  | _, _, @Expr.Desugars.binary l l' r r' op hl hr, want => by
    have hpos := Expr.pos_forget l' l
    have hleft := hl.findings
    have hright := hr.findings
    cases op with
    | eq | ne =>
      simp only [Expr.mapPos, Expr.findings, Expr.staticTy?_mapPos, Expr.bareNames?_mapPos, hl.staticTy?, hr.staticTy?,
        hl.bareNames? hr, hleft, hright, hpos]
    | and | or | concat => simp only [Expr.mapPos, Expr.findings, hleft, hright, hpos]
  | _, _, .paren p he, want => he.findings want
  | _, _, .call f hargs, want => by
    rw [Expr.mapPos, Expr.findings, Expr.length_mapPosList, hargs.length_eq, Expr.mapPos, Expr.findings,
      Expr.length_mapPosList]
    simp only [hargs.findings]
  | _, _, .pipe f ha, want => by
    rw [Expr.mapPos, Expr.findings, Expr.mapPos, Expr.findings]
    simp only [ha.findings]
  | _, _, .unpipe f ha, want => by
    rw [Expr.mapPos, Expr.mapPos, Expr.findings_pipe, Expr.findings, Expr.findings]
    simp only [Expr.mapPosList, Expr.findingsArgs, ha.findings, List.length_singleton]
  | _, _, .unparen p he, want => he.findings want

theorem Expr.DesugarsList.findings : ∀ {es es' : List Expr}, Expr.DesugarsList es es' → ∀ params : List Ty,
    Expr.findingsArgs registry (Expr.mapPosList forget es') params =
      Expr.findingsArgs registry (Expr.mapPosList forget es) params
  | _, _, .nil, _ => rfl
  | _, _, .cons he hes, params => by
    rw [Expr.mapPosList, Expr.findingsArgs, he.findings, hes.findings, Expr.mapPosList, Expr.findingsArgs]

end

/-- **The branches after the first may be its `else`.** -/
theorem Block.findings_unbranch (c : Expr) (body : List Block) (rest : List (Expr × List Block))
    (otherwise : Option (List Block)) (p q : Position) :
    (Block.cond ((c, body) :: rest) otherwise p).findings registry =
      (Block.cond [(c, body)] (some [.cond rest otherwise q]) p).findings registry := by
  cases otherwise <;>
    simp only [Block.findings, Block.findingsBranches, Block.findingsList, List.append_nil, List.append_assoc]

theorem Block.findings_choice_congr {c c' : Expr} {body body' : List Block} {b b' : Block}
    (hc : c'.findings registry (some .bool) = c.findings registry (some .bool))
    (hbody : Block.findingsList registry body' = Block.findingsList registry body)
    (hb : b'.findings registry = b.findings registry) (p : Position) :
    (Block.cond [(c', body')] (some [b']) p).findings registry =
      (Block.cond [(c, body)] (some [b]) p).findings registry := by
  simp only [Block.findings, Block.findingsBranches, Block.findingsList, hc, hbody, hb]

mutual

/-- **Rewritten blocks say the same about types.** -/
theorem Block.Desugars.findings : ∀ {b b' : Block}, b.Desugars b' →
    (b'.mapPos forget).findings registry = (b.mapPos forget).findings registry
  | _, _, .text _ _ => rfl
  | _, _, .comment _ _ => rfl
  | _, _, .render he => he.findings registry (some .string)
  | _, _, .cond p hbs => hbs.findings
  | _, _, .condElse p hbs hbody => by
    rw [Block.mapPos, Block.findings, hbs.findings, hbody.findings, Block.mapPos, Block.findings]
  | _, _, .switch p _ hcs => hcs.findings
  | _, _, .unbranch p q hc hbody hrest => by
    have hrest := hrest.findings
    rw [Block.mapPos_cond] at hrest ⊢
    rw [Block.mapPos_cond]
    exact (Block.findings_choice_congr registry (hc.findings registry (some .bool)) hbody.findings hrest _).trans
      (Block.findings_unbranch registry _ _ _ _ _ _).symm

theorem Block.DesugarsList.findings : ∀ {bs bs' : List Block}, Block.DesugarsList bs bs' →
    Block.findingsList registry (Block.mapPosList forget bs') = Block.findingsList registry (Block.mapPosList forget bs)
  | _, _, .nil => rfl
  | _, _, .cons hb hbs => by
    rw [Block.mapPosList, Block.findingsList, hb.findings, hbs.findings, Block.mapPosList, Block.findingsList]

theorem Block.DesugarsBranches.findings : ∀ {bs bs' : List (Expr × List Block)}, Block.DesugarsBranches bs bs' →
    Block.findingsBranches registry (Block.mapPosBranches forget bs') =
      Block.findingsBranches registry (Block.mapPosBranches forget bs)
  | _, _, .nil => rfl
  | _, _, .cons hc hbody hbs => by
    rw [Block.mapPosBranches, Block.findingsBranches, hc.findings, hbody.findings, hbs.findings, Block.mapPosBranches,
      Block.findingsBranches]

theorem Block.DesugarsCases.findings : ∀ {cs cs' : List (List Expr × List Block)}, Block.DesugarsCases cs cs' →
    Block.findingsCases registry (Block.mapPosCases forget cs') =
      Block.findingsCases registry (Block.mapPosCases forget cs)
  | _, _, .nil => rfl
  | _, _, .cons _ hbody hcs => by
    rw [Block.mapPosCases, Block.findingsCases, hbody.findings, hcs.findings, Block.mapPosCases, Block.findingsCases]

end

end Types

namespace Template

/-- **Sugar is transparent.**  A template in which any pipes, parentheses and branches are rewritten renders as before,
in every scope and into every sink, up to the position of an error.  It is analyzed as before, by itself or among other
templates: the types are the same, and so are the kinds of the diagnostics, each as often as before. -/
theorem desugared_means_same {t t' : Template} (h : Block.DesugarsList t t') :
    (∀ {σ : Type} (sink : Sink σ) (s : Scope) (st : σ), (t'.render sink s st).1 = (t.render sink s st).1 ∧
      (t'.render sink s st).2.mapError RenderError.erase = (t.render sink s st).2.mapError RenderError.erase) ∧
    ∀ (registry : Registry) (path : Path) (before after : List (Path × Template)),
      (analyze registry (before ++ (path, t') :: after)).1 = (analyze registry (before ++ (path, t) :: after)).1 ∧
        ((analyze registry (before ++ (path, t') :: after)).2.map Diagnostic.kind).Perm
          ((analyze registry (before ++ (path, t) :: after)).2.map Diagnostic.kind) := by
  constructor
  · intro σ sink s st
    have hrender : (t'.mapPos forget).render sink s st = (t.mapPos forget).render sink s st := h.write sink s st
    rw [render_mapPos, render_mapPos] at hrender
    exact Prod.ext_iff.1 hrender
  · exact fun registry => Analysis.analyze_congr registry (h.findings registry)

/-- A name in parentheses compared with a pipe, a second branch whose output starts with a pipe, and an `else`. -/
def sweet : Template := [.cond
  [(.binary .eq (.paren (.var ⟨utf8 "a", ⟨0, 7⟩⟩) ⟨0, 6⟩) (.pipe (.var ⟨utf8 "b", ⟨0, 13⟩⟩) ⟨utf8 "upper", ⟨0, 15⟩⟩),
      [.text (utf8 "c") ⟨0, 23⟩]),
    (.var ⟨utf8 "d", ⟨0, 34⟩⟩, [.render (.binary .concat (.pipe (.var ⟨utf8 "a", ⟨0, 40⟩⟩) ⟨utf8 "trim", ⟨0, 42⟩⟩)
      (.var ⟨utf8 "d", ⟨0, 49⟩⟩))])]
  (some [.render (.paren (.var ⟨utf8 "a", ⟨0, 64⟩⟩) ⟨0, 63⟩)]) ⟨0, 0⟩]

def unsweetened : Template := [.cond
  [(.binary .eq (.var ⟨utf8 "a", ⟨0, 7⟩⟩) (.call ⟨utf8 "upper", ⟨0, 15⟩⟩ [.var ⟨utf8 "b", ⟨0, 13⟩⟩]),
    [.text (utf8 "c") ⟨0, 23⟩])]
  (some [.cond [(.var ⟨utf8 "d", ⟨0, 34⟩⟩, [.render (.binary .concat
      (.call ⟨utf8 "trim", ⟨0, 42⟩⟩ [.var ⟨utf8 "a", ⟨0, 40⟩⟩]) (.var ⟨utf8 "d", ⟨0, 49⟩⟩))])]
    (some [.render (.var ⟨utf8 "a", ⟨0, 64⟩⟩)]) ⟨0, 31⟩]) ⟨0, 0⟩]

def sweetScope : Scope :=
  ⟨.standard, .ofList [(utf8 "a", .string (utf8 "x")), (utf8 "b", .string []), (utf8 "d", .bool true)], .empty⟩

/-- Joining a string and a boolean fails in both; without sugar the operator starts with the name of the function. -/
theorem desugared_means_same_at_sweet :
    Block.DesugarsList sweet unsweetened ∧
      (sweet.render Sink.memory sweetScope .nothing).2 =
        .error ((TypeMismatch.operands .string .concat .bool).at ⟨0, 40⟩) ∧
      (unsweetened.render Sink.memory sweetScope .nothing).2.mapError RenderError.erase =
        (sweet.render Sink.memory sweetScope .nothing).2.mapError RenderError.erase ∧
      (analyze .standard [([], unsweetened)]).1 = (analyze .standard [([], sweet)]).1 ∧
      ((analyze .standard [([], unsweetened)]).2.map Diagnostic.kind).Perm
        ((analyze .standard [([], sweet)]).2.map Diagnostic.kind) := by
  have hsecond : Block.Desugars (.cond [(.var ⟨utf8 "d", ⟨0, 34⟩⟩, [.render (.binary .concat
      (.pipe (.var ⟨utf8 "a", ⟨0, 40⟩⟩) ⟨utf8 "trim", ⟨0, 42⟩⟩) (.var ⟨utf8 "d", ⟨0, 49⟩⟩))])]
      (some [.render (.paren (.var ⟨utf8 "a", ⟨0, 64⟩⟩) ⟨0, 63⟩)]) ⟨0, 31⟩) _ :=
    .condElse _ (.cons (.var _) (.cons (.render (.binary _ (.unpipe _ (.var _)) (.var _))) .nil) .nil)
      (.cons (.render (.unparen _ (.var _))) .nil)
  have h : Block.DesugarsList sweet unsweetened :=
    .cons (.unbranch _ _ (.binary _ (.unparen _ (.var _)) (.unpipe _ (.var _))) (.cons (.text _ _) .nil) hsecond) .nil
  obtain ⟨hrender, hanalyze⟩ := desugared_means_same h
  exact ⟨h, by cbv, (hrender _ _ _).2, hanalyze .standard [] [] []⟩

end Template
end Stencil
