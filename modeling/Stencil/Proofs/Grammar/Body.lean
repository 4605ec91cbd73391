import Stencil.Proofs.Grammar.Operand
/-!
# Body — every template of the grammar is read

The tokens of a block are shifted one by one, and put the block at the end of the body in which they stand
(`SpellsBlock.read`).  Branches and cases are read in turn: `AwaitsBranch` and `AwaitsCase` say of a progress that the
next tag may go on with the statement or end it.
-/
namespace Stencil
namespace Grammar

variable {base : Nat} {blocks : List Block} {outer : List (Opening × List Block)}

theorem after?_shift {p p' : Progress} {t : Lexeme} (h : p.step base t = .shift p') (ts : List Lexeme) :
    p.after? base (t :: ts) = p'.after? base ts := by
  rw [Progress.after?_cons, Progress.shift?_eq_some.2 h]
  rfl

theorem expect_of_eq {p q : Progress} {t : Lexeme} {k : TokenKind} (ht : t.kind = k) :
    Progress.expect base p t k q = .shift q := if_pos ht

theorem SpellsExpr.read_use {use : Use} {ts : List Lexeme} {e : Expr} {c : Lexeme} {p' : Progress}
    (h : SpellsExpr .or ts e) (hd : Progress.around base outer use + e.nesting ≤ maxDepth) (hc : EndsExpr c.kind)
    (hs : Progress.stepUse base ⟨.expr use .start, blocks, outer⟩ use e c = .shift p') (us : List Lexeme) :
    Progress.after? base ⟨.expr use .start, blocks, outer⟩ (ts ++ c :: us) = p'.after? base us := by
  obtain ⟨r, hrun, hacc⟩ := h.read_all hd
  have hc' : Progress.step base ⟨.expr use r, blocks, outer⟩ c = .shift p' := by
    rw [Progress.step_expr, hacc c hc]
    exact hs
  rw [Progress.after?_append, Progress.after?_expr hrun, Option.bind_some, after?_shift hc']

theorem SpellsExprs.read_patterns {pos : Position} {v : Expr} {cs : List (List Expr × List Block)} {c : Lexeme}
    (hc : c.kind = .rBracePercent) (us : List Lexeme) {ts : List Lexeme} {ps : List Expr} (h : SpellsExprs ts ps)
    (before : List Expr) (hd : base + outer.length + 1 + Expr.nestingList ps ≤ maxDepth) :
    Progress.after? base ⟨.expr (.pattern pos v cs before) .start, blocks, outer⟩ (ts ++ c :: us) =
      Progress.after? base ⟨.body, [], (.case pos v cs (before.reverse ++ ps), blocks) :: outer⟩ us := by
  cases h with
  | one he =>
    simp only [Expr.nestingList] at hd
    refine he.read_use (by simp only [Progress.around, Use.depth]; omega) ?_ ?_ us
    · rw [hc]
      exact ⟨by decide, by decide, rfl⟩
    · simp [Progress.stepUse, Progress.expect, hc, Progress.openBody]
  | @cons d ts vs e ps he hk hps =>
    simp only [Expr.nestingList] at hd
    have hs : Progress.stepUse base ⟨.expr (.pattern pos v cs before) .start, blocks, outer⟩ (.pattern pos v cs before) e
        d = .shift ⟨.expr (.pattern pos v cs (e :: before)) .start, blocks, outer⟩ := if_pos hk
    rw [List.append_assoc, List.cons_append, he.read_use (by simp only [Progress.around, Use.depth]; omega)
      (by rw [hk]; exact ⟨by decide, by decide, rfl⟩) hs, SpellsExprs.read_patterns hc us hps (e :: before) (by omega),
      List.reverse_cons, List.append_assoc]
    rfl
termination_by ps.length

/-! ## Branches and cases in turn -/

/-- The next tag may go on with the condition at `pos`, of which `before` has been read, or end it. -/
structure AwaitsBranch (base : Nat) (pos : Position) (blocks : List Block) (outer : List (Opening × List Block))
    (before : List (Expr × List Block)) (p : Progress) : Prop where
  elseifTag : ∀ {o w : Lexeme} (us : List Lexeme), o.kind = .lBracePercent → w.kind = .elseif →
    p.after? base (o :: w :: us) = Progress.after? base ⟨.expr (.cond pos before) .start, blocks, outer⟩ us
  elseTag : ∀ {o w : Lexeme} (us : List Lexeme), o.kind = .lBracePercent → w.kind = .else →
    p.after? base (o :: w :: us) = Progress.after? base ⟨.elseEnd pos before, blocks, outer⟩ us
  endTag : ∀ {o w : Lexeme} (us : List Lexeme), o.kind = .lBracePercent → w.kind = .end →
    p.after? base (o :: w :: us) = Progress.after? base ⟨.statementEnd (.cond before.reverse none pos), blocks, outer⟩ us

theorem step_tag {o : Lexeme} (ho : o.kind = .lBracePercent) :
    Progress.step base ⟨.body, blocks, outer⟩ o = .shift ⟨.tag o, blocks, outer⟩ := by
  simp only [Progress.step, Progress.stepBody, ho]

theorem AwaitsBranch.body {pos : Position} {before : List (Expr × List Block)} {c : Expr} {body : List Block} :
    AwaitsBranch base pos blocks outer ((c, body) :: before)
      ⟨.body, body.reverse, (.branch pos before c, blocks) :: outer⟩ := by
  refine ⟨fun us ho hw => ?_, fun us ho hw => ?_, fun us ho hw => ?_⟩ <;>
  · rw [after?_shift (step_tag ho)]
    refine after?_shift ?_ us
    simp [Progress.step, Progress.stepTag, Progress.isInner, Progress.stepOpening, hw]

theorem after?_otherwise {pos : Position} {before : List (Expr × List Block)} {body : List Block} {o w : Lexeme}
    (us : List Lexeme) (ho : o.kind = .lBracePercent) (hw : w.kind = .end) :
    Progress.after? base ⟨.body, body.reverse, (.otherwise pos before, blocks) :: outer⟩ (o :: w :: us) =
      Progress.after? base ⟨.statementEnd (.cond before.reverse (some body) pos), blocks, outer⟩ us := by
  rw [after?_shift (step_tag ho)]
  refine after?_shift ?_ us
  simp [Progress.step, Progress.stepTag, Progress.isInner, Progress.stepOpening, hw]

/-- The next tag may go on with the switch at `pos`, of which `cs` has been read, or end it. -/
structure AwaitsCase (base : Nat) (pos : Position) (v : Expr) (blocks : List Block) (outer : List (Opening × List Block))
    (cs : List (List Expr × List Block)) (p : Progress) : Prop where
  caseTag : ∀ {o w : Lexeme} (us : List Lexeme), o.kind = .lBracePercent → w.kind = .case →
    p.after? base (o :: w :: us) = Progress.after? base ⟨.expr (.pattern pos v cs []) .start, blocks, outer⟩ us
  endTag : ∀ {o w : Lexeme} (us : List Lexeme), o.kind = .lBracePercent → w.kind = .end →
    p.after? base (o :: w :: us) = Progress.after? base ⟨.statementEnd (.switch v cs.reverse pos), blocks, outer⟩ us

theorem AwaitsCase.body {pos : Position} {v : Expr} {cs : List (List Expr × List Block)} {ps : List Expr}
    {body : List Block} : AwaitsCase base pos v blocks outer ((ps, body) :: cs)
      ⟨.body, body.reverse, (.case pos v cs ps, blocks) :: outer⟩ := by
  refine ⟨fun us ho hw => ?_, fun us ho hw => ?_⟩ <;>
  · rw [after?_shift (step_tag ho)]
    refine after?_shift ?_ us
    simp [Progress.step, Progress.stepTag, Progress.isInner, Progress.stepOpening, hw]

theorem AwaitsCase.first {pos : Position} {v : Expr} :
    AwaitsCase base pos v blocks outer [] ⟨.firstCase pos v, blocks, outer⟩ := by
  refine ⟨fun {o _} us ho hw => ?_, fun {o _} us ho hw => ?_⟩ <;>
  · have hs : Progress.step base ⟨.firstCase pos v, blocks, outer⟩ o = .shift ⟨.firstCaseTag pos v o, blocks, outer⟩ := by
      simp only [Progress.step, Progress.stepFirstCase, ho]
    rw [after?_shift hs]
    refine after?_shift ?_ us
    simp [Progress.step, Progress.stepFirstCaseTag, hw]

theorem SpellsEnd.read {b : Block} {ts : List Lexeme} (h : SpellsEnd ts) {p : Progress} (us : List Lexeme)
    (hp : ∀ {o w : Lexeme} (us : List Lexeme), o.kind = .lBracePercent → w.kind = .end →
      p.after? base (o :: w :: us) = Progress.after? base ⟨.statementEnd b, blocks, outer⟩ us) :
    p.after? base (ts ++ us) = Progress.after? base ⟨.body, b :: blocks, outer⟩ us := by
  cases h with
  | @mk o w c ho hw hc =>
    have hs : Progress.step base ⟨.statementEnd b, blocks, outer⟩ c = .shift ⟨.body, b :: blocks, outer⟩ :=
      expect_of_eq hc
    rw [List.cons_append, List.cons_append, hp _ ho hw]
    exact after?_shift hs us

theorem read_blanks {pos : Position} {v : Expr} (us : List Lexeme) : ∀ {ws : List Lexeme}, (∀ t ∈ ws, IsBlank t) →
    Progress.after? base ⟨.firstCase pos v, blocks, outer⟩ (ws ++ us) =
      Progress.after? base ⟨.firstCase pos v, blocks, outer⟩ us
  | [], _ => rfl
  | w :: ws, h => by
    obtain ⟨hk, hsp⟩ := h w List.mem_cons_self
    have hs : Progress.step base ⟨.firstCase pos v, blocks, outer⟩ w = .shift ⟨.firstCase pos v, blocks, outer⟩ := by
      simp only [Progress.step, Progress.stepFirstCase, hk, if_pos hsp]
    rw [List.cons_append, after?_shift hs]
    exact read_blanks us fun t ht => h t (List.mem_cons_of_mem _ ht)

theorem step_if {o t : Lexeme} (hd : base + outer.length + 1 ≤ maxDepth) (ht : t.kind = .if) :
    Progress.step base ⟨.tag o, blocks, outer⟩ t = .shift ⟨.expr (.cond o.pos []) .start, blocks, outer⟩ := by
  have hd' : ¬ maxDepth < base + Progress.depth ⟨.tag o, blocks, outer⟩ + 1 := Nat.not_lt.2 hd
  simp only [Progress.step, Progress.stepTag, Progress.isInner, Progress.openStatement, ht, if_neg hd',
    Bool.false_eq_true, ↓reduceIte]

theorem step_switch {o t : Lexeme} (hd : base + outer.length + 1 ≤ maxDepth) (ht : t.kind = .switch) :
    Progress.step base ⟨.tag o, blocks, outer⟩ t = .shift ⟨.expr (.switch o.pos) .start, blocks, outer⟩ := by
  have hd' : ¬ maxDepth < base + Progress.depth ⟨.tag o, blocks, outer⟩ + 1 := Nat.not_lt.2 hd
  simp only [Progress.step, Progress.stepTag, Progress.isInner, Progress.openStatement, ht, if_neg hd',
    Bool.false_eq_true, ↓reduceIte]

mutual

/-- **The tokens of a block are shifted**, and put it at the end of the body. -/
theorem SpellsBlock.read (base : Nat) : ∀ {ts : List Lexeme} {b : Block}, SpellsBlock ts b →
    ∀ (blocks : List Block) (outer : List (Opening × List Block)) (zs : List Lexeme),
      base + outer.length + b.nesting ≤ maxDepth →
      Progress.after? base ⟨.body, blocks, outer⟩ (ts ++ zs) = Progress.after? base ⟨.body, b :: blocks, outer⟩ zs
  | _, _, @SpellsBlock.text t ht, blocks, outer, zs, _ => by
    have hs : Progress.step base ⟨.body, blocks, outer⟩ t = .shift ⟨.body, .text t.text t.pos :: blocks, outer⟩ := by
      simp only [Progress.step, Progress.stepBody, ht, Progress.push]
    exact after?_shift hs zs
  | _, _, @SpellsBlock.comment o t c ho ht hc, blocks, outer, zs, _ => by
    have ho' : Progress.step base ⟨.body, blocks, outer⟩ o = .shift ⟨.comment o.pos, blocks, outer⟩ := by
      simp only [Progress.step, Progress.stepBody, ho]
    have ht' : Progress.step base ⟨.comment o.pos, blocks, outer⟩ t =
        .shift ⟨.commentEnd o.pos t.text, blocks, outer⟩ := if_pos ht
    have hc' : Progress.step base ⟨.commentEnd o.pos t.text, blocks, outer⟩ c =
        .shift ⟨.body, .comment t.text o.pos :: blocks, outer⟩ := expect_of_eq hc
    exact (after?_shift ho' _).trans ((after?_shift ht' _).trans (after?_shift hc' zs))
  | _, _, @SpellsBlock.emptyComment o c ho hc, blocks, outer, zs, _ => by
    have ho' : Progress.step base ⟨.body, blocks, outer⟩ o = .shift ⟨.comment o.pos, blocks, outer⟩ := by
      simp only [Progress.step, Progress.stepBody, ho]
    have hc' : Progress.step base ⟨.comment o.pos, blocks, outer⟩ c =
        .shift ⟨.body, .comment [] o.pos :: blocks, outer⟩ := by
      simp [Progress.step, Progress.stepComment, Progress.expect, hc, Progress.push]
    exact (after?_shift ho' _).trans (after?_shift hc' zs)
  | _, _, @SpellsBlock.render o c ts e ho he hc, blocks, outer, zs, hd => by
    have ho' : Progress.step base ⟨.body, blocks, outer⟩ o = .shift ⟨.expr .render .start, blocks, outer⟩ := by
      simp only [Progress.step, Progress.stepBody, ho]
    rw [List.cons_append, after?_shift ho', List.append_assoc]
    have hd' : Progress.around base outer .render + e.nesting ≤ maxDepth := hd
    exact he.read_use hd' (by rw [hc]; exact ⟨by decide, by decide, rfl⟩) (expect_of_eq hc) zs
  | _, _, @SpellsBlock.cond o ts us vs b bs ho hb hbs he, blocks, outer, zs, hd => by
    simp only [Block.nesting, Block.nestingBranches] at hd
    obtain ⟨w, xs, rfl, hw, hread⟩ := hb.read base
    obtain ⟨p, hp, hrun⟩ := hread o.pos [] blocks outer (us ++ (vs ++ zs)) (by omega)
    obtain ⟨p', hp', hrun'⟩ := hbs.read base o.pos [b] blocks outer (vs ++ zs) p hp (by omega)
    simp only [List.cons_append, List.append_assoc]
    rw [after?_shift (step_tag ho), after?_shift (step_if (by omega) hw), hrun, hrun', he.read zs hp'.endTag]
    simp
  | _, _, @SpellsBlock.condElse o p w c ts us vs xs b bs body ho hb hbs hp hw hc hbody he, blocks, outer, zs, hd => by
    simp only [Block.nesting, Block.nestingBranches] at hd
    obtain ⟨w', ys, rfl, hw', hread⟩ := hb.read base
    obtain ⟨q, hq, hrun⟩ := hread o.pos [] blocks outer (us ++ (p :: w :: c :: (xs ++ (vs ++ zs)))) (by omega)
    obtain ⟨q', hq', hrun'⟩ := hbs.read base o.pos [b] blocks outer (p :: w :: c :: (xs ++ (vs ++ zs))) q hq (by omega)
    have hc' : Progress.step base ⟨.elseEnd o.pos (bs.reverse ++ [b]), blocks, outer⟩ c =
        .shift ⟨.body, [], (.otherwise o.pos (bs.reverse ++ [b]), blocks) :: outer⟩ := expect_of_eq hc
    simp only [List.cons_append, List.append_assoc]
    rw [after?_shift (step_tag ho), after?_shift (step_if (by omega) hw'), hrun, hrun', hq'.elseTag _ hp hw,
      after?_shift hc', hbody.read base [] _ _ (by simp only [List.length_cons]; omega), List.append_nil,
      he.read zs after?_otherwise]
    simp
  | _, _, @SpellsBlock.switch o w c ts ws us vs v cs ho hw hv hc hws hcs he, blocks, outer, zs, hd => by
    simp only [Block.nesting] at hd
    obtain ⟨p, hp, hrun⟩ := hcs.read base o.pos v [] blocks outer (vs ++ zs) _ .first (by omega)
    have hs : Progress.stepUse base ⟨.expr (.switch o.pos) .start, blocks, outer⟩ (.switch o.pos) v c =
        .shift ⟨.firstCase o.pos v, blocks, outer⟩ := expect_of_eq hc
    simp only [List.cons_append, List.append_assoc]
    rw [after?_shift (step_tag ho), after?_shift (step_switch (by omega) hw),
      hv.read_use (by simp only [Progress.around, Use.depth]; omega)
        (by rw [hc]; exact ⟨by decide, by decide, rfl⟩) hs,
      read_blanks _ hws, hrun, he.read zs hp.endTag]
    simp

theorem SpellsBlocks.read (base : Nat) : ∀ {ts : List Lexeme} {bs : List Block}, SpellsBlocks ts bs →
    ∀ (blocks : List Block) (outer : List (Opening × List Block)) (zs : List Lexeme),
      base + outer.length + Block.nestingList bs ≤ maxDepth →
      Progress.after? base ⟨.body, blocks, outer⟩ (ts ++ zs) =
        Progress.after? base ⟨.body, bs.reverse ++ blocks, outer⟩ zs
  | _, _, .nil, blocks, outer, zs, _ => rfl
  | _, _, .cons hb hbs, blocks, outer, zs, hd => by
    simp only [Block.nestingList] at hd
    rw [List.append_assoc, hb.read base blocks outer _ (by omega), hbs.read base _ outer zs (by omega), List.reverse_cons,
      List.append_assoc]
    rfl

theorem SpellsBranch.read (base : Nat) : ∀ {word : TokenKind} {ts : List Lexeme} {b : Expr × List Block},
    SpellsBranch word ts b → ∃ w us, ts = w :: us ∧ w.kind = word ∧
      ∀ (pos : Position) (before : List (Expr × List Block)) (blocks : List Block) (outer : List (Opening × List Block))
        (zs : List Lexeme), base + outer.length + 1 + max b.1.nesting (Block.nestingList b.2) ≤ maxDepth →
        ∃ p, AwaitsBranch base pos blocks outer (b :: before) p ∧
          Progress.after? base ⟨.expr (.cond pos before) .start, blocks, outer⟩ (us ++ zs) = p.after? base zs
  | _, _, _, @SpellsBranch.mk _ w c ts us e body hw he hc hbody => by
    refine ⟨w, ts ++ c :: us, rfl, hw, fun pos before blocks outer zs hd => ⟨_, .body, ?_⟩⟩
    dsimp only at hd
    have hs : Progress.stepUse base ⟨.expr (.cond pos before) .start, blocks, outer⟩ (.cond pos before) e c =
        .shift ⟨.body, [], (.branch pos before e, blocks) :: outer⟩ := expect_of_eq hc
    rw [List.append_assoc, List.cons_append, he.read_use (by simp only [Progress.around, Use.depth]; omega)
      (by rw [hc]; exact ⟨by decide, by decide, rfl⟩) hs, hbody.read base [] _ zs
      (by simp only [List.length_cons]; omega), List.append_nil]

theorem SpellsElseifs.read (base : Nat) : ∀ {ts : List Lexeme} {bs : List (Expr × List Block)}, SpellsElseifs ts bs →
    ∀ (pos : Position) (before : List (Expr × List Block)) (blocks : List Block) (outer : List (Opening × List Block))
      (zs : List Lexeme) (p : Progress), AwaitsBranch base pos blocks outer before p →
      base + outer.length + 1 + Block.nestingBranches bs ≤ maxDepth →
      ∃ p', AwaitsBranch base pos blocks outer (bs.reverse ++ before) p' ∧
        p.after? base (ts ++ zs) = p'.after? base zs
  | _, _, .nil, pos, before, blocks, outer, zs, p, hp, _ => ⟨p, hp, rfl⟩
  | _, _, @SpellsElseifs.cons o ts us b bs ho hb hbs, pos, before, blocks, outer, zs, p, hp, hd => by
    simp only [Block.nestingBranches] at hd
    obtain ⟨w, xs, rfl, hw, hread⟩ := hb.read base
    obtain ⟨q, hq, hrun⟩ := hread pos before blocks outer (us ++ zs) (by omega)
    obtain ⟨q', hq', hrun'⟩ := hbs.read base pos (b :: before) blocks outer zs q hq (by omega)
    refine ⟨q', by simpa using hq', ?_⟩
    simp only [List.cons_append, List.append_assoc]
    rw [hp.elseifTag _ ho hw, hrun, hrun']

theorem SpellsCases.read (base : Nat) : ∀ {ts : List Lexeme} {cs : List (List Expr × List Block)}, SpellsCases ts cs →
    ∀ (pos : Position) (v : Expr) (before : List (List Expr × List Block)) (blocks : List Block)
      (outer : List (Opening × List Block)) (zs : List Lexeme) (p : Progress),
      AwaitsCase base pos v blocks outer before p → base + outer.length + 1 + Block.nestingCases cs ≤ maxDepth →
      ∃ p', AwaitsCase base pos v blocks outer (cs.reverse ++ before) p' ∧ p.after? base (ts ++ zs) = p'.after? base zs
  | _, _, .nil, pos, v, before, blocks, outer, zs, p, hp, _ => ⟨p, hp, rfl⟩
  | _, _, @SpellsCases.cons o w c ts us vs ps body cs ho hw hps hc hbody hcs, pos, v, before, blocks, outer, zs, p, hp,
      hd => by
    simp only [Block.nestingCases] at hd
    obtain ⟨q, hq, hrun⟩ := hcs.read base pos v ((ps, body) :: before) blocks outer zs _ .body (by omega)
    refine ⟨q, by simpa using hq, ?_⟩
    simp only [List.cons_append, List.append_assoc]
    rw [hp.caseTag _ ho hw, hps.read_patterns hc _ [] (by omega), hbody.read base [] _ _
      (by simp only [List.length_cons]; omega), List.append_nil]
    exact hrun

end

end Grammar
end Stencil
