import Stencil.Proofs.Grammar.Reading
/-!
# Progress — what the tokens of a template have spelled so far

`SpellsProgress` is the invariant of reading a template: the statements that are open, from the outermost on, the
blocks in front of each, and the place in the current tag are spelled by the tokens that led there, and nothing nests
too deeply.  Every token that is shifted keeps it (`SpellsProgress.shift`), so the tokens of a template that is accepted
spell it (`SpellsProgress.accept`).
-/
namespace Stencil

namespace Block

theorem nestingList_append (cs bs : List Block) :
    nestingList (bs ++ cs) = max (nestingList bs) (nestingList cs) := by
  induction bs with
  | nil => exact (Nat.zero_max _).symm
  | cons b bs ih => rw [List.cons_append, nestingList, ih, nestingList, Nat.max_assoc]

theorem nestingBranches_append (cs bs : List (Expr × List Block)) :
    nestingBranches (bs ++ cs) = max (nestingBranches bs) (nestingBranches cs) := by
  induction bs with
  | nil => exact (Nat.zero_max _).symm
  | cons b bs ih =>
    rw [List.cons_append, nestingBranches, ih, nestingBranches]
    simp only [Nat.max_assoc]

theorem nestingCases_append (ds cs : List (List Expr × List Block)) :
    nestingCases (cs ++ ds) = max (nestingCases cs) (nestingCases ds) := by
  induction cs with
  | nil => exact (Nat.zero_max _).symm
  | cons c cs ih =>
    rw [List.cons_append, nestingCases, ih, nestingCases]
    simp only [Nat.max_assoc]

end Block

namespace Grammar

/-- The tokens of a condition at `pos` up to the end of a body, with its branches, the latest first; `d` constructs are
open inside it. -/
def SpellsBranches (d : Nat) (pos : Position) (before : List (Expr × List Block)) (ts : List Lexeme) : Prop :=
  ∃ o us vs b bs, ts = o :: (us ++ vs) ∧ pos = o.pos ∧ before.reverse = b :: bs ∧ o.kind = .lBracePercent ∧
    SpellsBranch .if us b ∧ SpellsElseifs vs bs ∧ d + Block.nestingBranches before.reverse ≤ maxDepth

inductive SpellsWord (d : Nat) : Position → List (Expr × List Block) → List Lexeme → Prop
  | if {o w : Lexeme} (ho : o.kind = .lBracePercent) (hw : w.kind = .if) : SpellsWord d o.pos [] [o, w]
  | elseif {pos : Position} {before : List (Expr × List Block)} {o w : Lexeme} {ts : List Lexeme}
      (h : SpellsBranches d pos before ts) (ho : o.kind = .lBracePercent) (hw : w.kind = .elseif) :
      SpellsWord d pos before (ts ++ [o, w])

/-- The tokens of a switch at `pos` up to the end of a body, or up to its first case, with its cases, the latest first.
-/
def SpellsSwitch (d : Nat) (pos : Position) (v : Expr) (cs : List (List Expr × List Block)) (ts : List Lexeme) : Prop :=
  ∃ o w c us ws vs, ts = o :: w :: (us ++ c :: (ws ++ vs)) ∧ pos = o.pos ∧ o.kind = .lBracePercent ∧ w.kind = .switch ∧
    SpellsExpr .or us v ∧ c.kind = .rBracePercent ∧ (∀ t ∈ ws, IsBlank t) ∧ SpellsCases vs cs.reverse ∧
    d + max v.nesting (Block.nestingCases cs.reverse) ≤ maxDepth

inductive SpellsOpening (d : Nat) : Opening → List Lexeme → Prop
  | branch {pos : Position} {before : List (Expr × List Block)} {c : Expr} {p : Lexeme} {ts us : List Lexeme}
      (h : SpellsWord d pos before ts) (hc : SpellsExpr .or us c) (hd : d + c.nesting ≤ maxDepth)
      (hp : p.kind = .rBracePercent) : SpellsOpening d (.branch pos before c) (ts ++ (us ++ [p]))
  | otherwise {pos : Position} {before : List (Expr × List Block)} {o w c : Lexeme} {ts : List Lexeme}
      (h : SpellsBranches d pos before ts) (ho : o.kind = .lBracePercent) (hw : w.kind = .else)
      (hc : c.kind = .rBracePercent) : SpellsOpening d (.otherwise pos before) (ts ++ [o, w, c])
  | case {pos : Position} {v : Expr} {cs : List (List Expr × List Block)} {ps : List Expr} {o w c : Lexeme}
      {ts us : List Lexeme} (h : SpellsSwitch d pos v cs ts) (ho : o.kind = .lBracePercent) (hw : w.kind = .case)
      (hps : SpellsExprs us ps) (hd : d + Expr.nestingList ps ≤ maxDepth) (hc : c.kind = .rBracePercent) :
      SpellsOpening d (.case pos v cs ps) (ts ++ o :: w :: (us ++ [c]))

inductive SpellsOuter (base : Nat) : List (Opening × List Block) → List Lexeme → Prop
  | nil : SpellsOuter base [] []
  | cons {o : Opening} {before : List Block} {outer : List (Opening × List Block)} {ts us vs : List Lexeme}
      (h : SpellsOuter base outer ts) (hb : SpellsBlocks us before.reverse)
      (hd : base + outer.length + Block.nestingList before.reverse ≤ maxDepth)
      (ho : SpellsOpening (base + outer.length + 1) o vs) : SpellsOuter base ((o, before) :: outer) (ts ++ (us ++ vs))

inductive SpellsUse (d : Nat) : Use → List Lexeme → Prop
  | render {o : Lexeme} (ho : o.kind = .lDoubleBrace) : SpellsUse d .render [o]
  | cond {pos : Position} {before : List (Expr × List Block)} {ts : List Lexeme}
      (h : SpellsWord (d + 1) pos before ts) : SpellsUse d (.cond pos before) ts
  | switch {o w : Lexeme} (ho : o.kind = .lBracePercent) (hw : w.kind = .switch) : SpellsUse d (.switch o.pos) [o, w]
  | pattern {pos : Position} {v : Expr} {cs : List (List Expr × List Block)} {o w : Lexeme} {ts : List Lexeme}
      (h : SpellsSwitch (d + 1) pos v cs ts) (ho : o.kind = .lBracePercent) (hw : w.kind = .case) :
      SpellsUse d (.pattern pos v cs []) (ts ++ [o, w])
  | patterns {pos : Position} {v : Expr} {cs : List (List Expr × List Block)} {ps : List Expr} {o w c : Lexeme}
      {ts us : List Lexeme} (h : SpellsSwitch (d + 1) pos v cs ts) (ho : o.kind = .lBracePercent) (hw : w.kind = .case)
      (hps : SpellsExprs us ps.reverse) (hd : d + 1 + Expr.nestingList ps.reverse ≤ maxDepth) (hc : c.kind = .comma) :
      SpellsUse d (.pattern pos v cs ps) (ts ++ o :: w :: (us ++ [c]))

inductive SpellsPlace (d : Nat) : Place → List Lexeme → Prop
  | body : SpellsPlace d .body []
  | tag {o : Lexeme} (ho : o.kind = .lBracePercent) : SpellsPlace d (.tag o) [o]
  | expr {use : Use} {r : Reading} {ts us : List Lexeme} (hu : SpellsUse d use ts)
      (hr : SpellsReading (d + use.depth) r us) : SpellsPlace d (.expr use r) (ts ++ us)
  | comment {o : Lexeme} (ho : o.kind = .lBracePound) : SpellsPlace d (.comment o.pos) [o]
  | commentEnd {o t : Lexeme} (ho : o.kind = .lBracePound) (ht : t.kind = .comment) :
      SpellsPlace d (.commentEnd o.pos t.text) [o, t]
  | elseEnd {pos : Position} {before : List (Expr × List Block)} {o w : Lexeme} {ts : List Lexeme}
      (h : SpellsBranches (d + 1) pos before ts) (ho : o.kind = .lBracePercent) (hw : w.kind = .else) :
      SpellsPlace d (.elseEnd pos before) (ts ++ [o, w])
  | statementEnd {b : Block} {ts : List Lexeme}
      (h : ∀ c : Lexeme, c.kind = .rBracePercent → SpellsBlock (ts ++ [c]) b) (hd : d + b.nesting ≤ maxDepth) :
      SpellsPlace d (.statementEnd b) ts
  | firstCase {pos : Position} {v : Expr} {ts : List Lexeme} (h : SpellsSwitch (d + 1) pos v [] ts) :
      SpellsPlace d (.firstCase pos v) ts
  | firstCaseTag {pos : Position} {v : Expr} {o : Lexeme} {ts : List Lexeme} (h : SpellsSwitch (d + 1) pos v [] ts)
      (ho : o.kind = .lBracePercent) : SpellsPlace d (.firstCaseTag pos v o) (ts ++ [o])

/-- **The tokens that led to a progress.** -/
inductive SpellsProgress (base : Nat) : Progress → List Lexeme → Prop
  | mk {place : Place} {blocks : List Block} {outer : List (Opening × List Block)} {ts us vs : List Lexeme}
      (ho : SpellsOuter base outer ts) (hb : SpellsBlocks us blocks.reverse)
      (hd : base + outer.length + Block.nestingList blocks.reverse ≤ maxDepth)
      (hp : SpellsPlace (base + outer.length) place vs) : SpellsProgress base ⟨place, blocks, outer⟩ (ts ++ (us ++ vs))

/-! ## Statements -/

theorem SpellsWord.branch {d : Nat} {pos : Position} {before : List (Expr × List Block)} {c : Expr} {body : List Block}
    {p : Lexeme} {ts us vs : List Lexeme} (h : SpellsWord d pos before ts) (hc : SpellsExpr .or us c)
    (hd : d + c.nesting ≤ maxDepth) (hp : p.kind = .rBracePercent) (hb : SpellsBlocks vs body)
    (hbd : d + Block.nestingList body ≤ maxDepth) :
    SpellsBranches d pos ((c, body) :: before) (ts ++ (us ++ p :: vs)) := by
  cases h with
  | @«if» o w ho hw =>
    refine ⟨o, _, [], (c, body), [], ?_, rfl, rfl, ho, .mk hw hc hp hb, .nil, ?_⟩
    · simp
    · simp only [List.reverse_cons, List.reverse_nil, List.nil_append, Block.nestingBranches]
      omega
  | @elseif _ _ o w ts h ho hw =>
    obtain ⟨o', xs, ys, b, bs, rfl, rfl, heq, ho', hb', hbs, hd'⟩ := h
    refine ⟨o', xs, ys ++ o :: w :: (us ++ p :: vs), b, bs ++ [(c, body)], ?_, rfl, ?_, ho', hb',
      hbs.snoc ho (.mk hw hc hp hb), ?_⟩
    · simp
    · rw [List.reverse_cons, heq, List.cons_append]
    · simp only [List.reverse_cons, Block.nestingBranches_append, Block.nestingBranches]
      omega

theorem SpellsOpening.branches {d : Nat} {pos : Position} {before : List (Expr × List Block)} {c : Expr}
    {body : List Block} {ts us : List Lexeme} (h : SpellsOpening d (.branch pos before c) ts) (hb : SpellsBlocks us body)
    (hbd : d + Block.nestingList body ≤ maxDepth) : SpellsBranches d pos ((c, body) :: before) (ts ++ us) := by
  cases h with
  | branch h hc hd hp => simpa only [List.append_assoc, List.cons_append, List.nil_append] using h.branch hc hd hp hb hbd

theorem SpellsOpening.cases {d : Nat} {pos : Position} {v : Expr} {cs : List (List Expr × List Block)} {ps : List Expr}
    {body : List Block} {ts us : List Lexeme} (h : SpellsOpening d (.case pos v cs ps) ts) (hb : SpellsBlocks us body)
    (hbd : d + Block.nestingList body ≤ maxDepth) : SpellsSwitch d pos v ((ps, body) :: cs) (ts ++ us) := by
  cases h with
  | @case _ _ _ _ o w c ts xs h ho hw hps hd hc =>
    obtain ⟨o', w', c', es, ws, vs, rfl, rfl, ho', hw', hv, hc', hws, hcs, hd'⟩ := h
    refine ⟨o', w', c', es, ws, vs ++ o :: w :: (xs ++ c :: us), ?_, rfl, ho', hw', hv, hc', hws, ?_, ?_⟩
    · simp
    · rw [List.reverse_cons]
      exact SpellsCases.snoc ho hw hps hc hb hcs
    · simp only [List.reverse_cons, Block.nestingCases_append, Block.nestingCases]
      omega

theorem SpellsBranches.cond {d : Nat} {pos : Position} {before : List (Expr × List Block)} {p w : Lexeme}
    {ts : List Lexeme} (h : SpellsBranches (d + 1) pos before ts) (hp : p.kind = .lBracePercent) (hw : w.kind = .end) :
    SpellsPlace d (.statementEnd (.cond before.reverse none pos)) (ts ++ [p, w]) := by
  obtain ⟨o, xs, ys, b, bs, rfl, rfl, heq, ho, hb, hbs, hd⟩ := h
  refine .statementEnd (fun c hc => ?_) (by simp only [Block.nesting]; omega)
  rw [heq]
  simpa using SpellsBlock.cond ho hb hbs (.mk hp hw hc)

theorem SpellsOpening.condElse {d : Nat} {pos : Position} {before : List (Expr × List Block)} {body : List Block}
    {p w : Lexeme} {ts us : List Lexeme} (h : SpellsOpening (d + 1) (.otherwise pos before) ts)
    (hbody : SpellsBlocks us body) (hbd : d + 1 + Block.nestingList body ≤ maxDepth) (hp : p.kind = .lBracePercent)
    (hw : w.kind = .end) :
    SpellsPlace d (.statementEnd (.cond before.reverse (some body) pos)) (ts ++ (us ++ [p, w])) := by
  cases h with
  | otherwise h ho' hw' hc' =>
    obtain ⟨o, xs, ys, b, bs, rfl, rfl, heq, ho, hb, hbs, hd⟩ := h
    refine .statementEnd (fun c hc => ?_) (by simp only [Block.nesting]; omega)
    rw [heq]
    simpa using SpellsBlock.condElse ho hb hbs ho' hw' hc' hbody (.mk hp hw hc)

theorem SpellsSwitch.switch {d : Nat} {pos : Position} {v : Expr} {cs : List (List Expr × List Block)} {p w' : Lexeme}
    {ts : List Lexeme} (h : SpellsSwitch (d + 1) pos v cs ts) (hp : p.kind = .lBracePercent) (hw' : w'.kind = .end) :
    SpellsPlace d (.statementEnd (.switch v cs.reverse pos)) (ts ++ [p, w']) := by
  obtain ⟨o, w, c, xs, ws, ys, rfl, rfl, ho, hw, hv, hc, hws, hcs, hd⟩ := h
  refine .statementEnd (fun c' hc' => ?_) (by simp only [Block.nesting]; omega)
  simpa using SpellsBlock.switch ho hw hv hc hws hcs (.mk hp hw' hc')

theorem SpellsSwitch.blank {d : Nat} {pos : Position} {v : Expr} {t : Lexeme} {ts : List Lexeme}
    (h : SpellsSwitch d pos v [] ts) (ht : IsBlank t) : SpellsSwitch d pos v [] (ts ++ [t]) := by
  obtain ⟨o, w, c, xs, ws, ys, rfl, rfl, ho, hw, hv, hc, hws, hcs, hd⟩ := h
  cases hcs
  refine ⟨o, w, c, xs, ws ++ [t], [], by simp, rfl, ho, hw, hv, hc, ?_, .nil, hd⟩
  intro u hu
  rcases List.mem_append.1 hu with hu | hu
  · exact hws u hu
  · rw [List.mem_singleton.1 hu]
    exact ht

/-- **The patterns of a case**, together with one that has just been read. -/
theorem SpellsUse.patterns_read {d : Nat} {pos : Position} {v e : Expr} {cs : List (List Expr × List Block)}
    {ps : List Expr} {ts us : List Lexeme} (h : SpellsUse d (.pattern pos v cs ps) ts) (he : SpellsExpr .or us e)
    (hd : d + 1 + e.nesting ≤ maxDepth) : ∃ o w xs ys, ts ++ us = xs ++ o :: w :: ys ∧ SpellsSwitch (d + 1) pos v cs xs ∧
      o.kind = .lBracePercent ∧ w.kind = .case ∧ SpellsExprs ys (e :: ps).reverse ∧
      d + 1 + Expr.nestingList (e :: ps).reverse ≤ maxDepth := by
  cases h with
  | @pattern _ _ _ o w ts h ho hw =>
    refine ⟨o, w, ts, us, by simp, h, ho, hw, .one he, ?_⟩
    simp only [List.reverse_cons, List.reverse_nil, List.nil_append, Expr.nestingList]
    omega
  | @patterns _ _ _ _ o w c ts xs h ho hw hps hpd hc =>
    refine ⟨o, w, ts, xs ++ c :: us, by simp, h, ho, hw, ?_, ?_⟩
    · rw [List.reverse_cons]
      exact SpellsExprs.snoc hc he hps
    · rw [List.reverse_cons, Expr.nestingList_append]
      simp only [Expr.nestingList]
      omega

/-! ## Steps -/

theorem SpellsReading.start {base : Nat} (h : base ≤ maxDepth) : SpellsReading base .start [] := .operand .nil (.start h)

theorem shift_of_expect {base : Nat} {p p' q : Progress} {t : Lexeme} {k : TokenKind}
    (h : Progress.expect base p t k q = .shift p') : t.kind = k ∧ p' = q := by
  unfold Progress.expect at h
  split at h
  · rename_i hk
    cases h
    exact ⟨hk, rfl⟩
  · cases h

section

variable {base : Nat} {blocks : List Block} {outer : List (Opening × List Block)} {p' : Progress} {t : Lexeme}
  {ts us vs : List Lexeme}

theorem SpellsProgress.push {b : Block} (ho : SpellsOuter base outer ts) (hb : SpellsBlocks us blocks.reverse)
    (hd : base + outer.length + Block.nestingList blocks.reverse ≤ maxDepth) (h : SpellsBlock vs b)
    (hbd : base + outer.length + b.nesting ≤ maxDepth) :
    SpellsProgress base ⟨.body, b :: blocks, outer⟩ (ts ++ (us ++ vs)) := by
  have hbs := SpellsBlocks.snoc h hb
  rw [← List.reverse_cons] at hbs
  have hd' : base + outer.length + Block.nestingList (b :: blocks).reverse ≤ maxDepth := by
    simp only [List.reverse_cons, Block.nestingList_append, Block.nestingList]
    omega
  simpa only [List.append_nil] using SpellsProgress.mk ho hbs hd' .body

theorem SpellsProgress.openBody {o : Opening} (ho : SpellsOuter base outer ts) (hb : SpellsBlocks us blocks.reverse)
    (hd : base + outer.length + Block.nestingList blocks.reverse ≤ maxDepth)
    (h : SpellsOpening (base + outer.length + 1) o vs) (hd' : base + outer.length + 1 ≤ maxDepth) :
    SpellsProgress base ⟨.body, [], (o, blocks) :: outer⟩ (ts ++ (us ++ vs)) := by
  have hd'' : base + ((o, blocks) :: outer).length + Block.nestingList [].reverse ≤ maxDepth := by
    simp only [List.length_cons, List.reverse_nil, Block.nestingList]
    omega
  simpa only [List.append_nil] using SpellsProgress.mk (.cons ho hb hd h) .nil hd'' .body

theorem SpellsProgress.stepBody (ho : SpellsOuter base outer ts) (hb : SpellsBlocks us blocks.reverse)
    (hd : base + outer.length + Block.nestingList blocks.reverse ≤ maxDepth)
    (hs : Progress.stepBody base ⟨.body, blocks, outer⟩ t = .shift p') :
    SpellsProgress base p' (ts ++ (us ++ [t])) := by
  unfold Progress.stepBody at hs
  split at hs
  · rename_i ht
    cases hs
    exact .push ho hb hd (.text ht) (by simp only [Block.nesting]; omega)
  · rename_i ht
    cases hs
    have hr : SpellsReading (base + outer.length + 0) .start [] := .start (by omega)
    exact .mk ho hb hd (.expr (.render ht) hr)
  · rename_i ht
    cases hs
    exact .mk ho hb hd (.tag ht)
  · rename_i ht
    cases hs
    exact .mk ho hb hd (.comment ht)
  · split at hs <;> cases hs
  · cases hs

theorem SpellsProgress.openStatement {o : Lexeme} (ho : SpellsOuter base outer ts) (hb : SpellsBlocks us blocks.reverse)
    (hd : base + outer.length + Block.nestingList blocks.reverse ≤ maxDepth) (hk : o.kind = .lBracePercent)
    (hs : Progress.openStatement base ⟨.tag o, blocks, outer⟩ o t = .shift p') :
    SpellsProgress base p' (ts ++ (us ++ [o, t])) := by
  unfold Progress.openStatement at hs
  split at hs
  · cases hs
  · rename_i hlt
    simp only [Progress.depth, Place.depth] at hlt
    have hr : SpellsReading (base + outer.length + 1) .start [] := .start (by omega)
    split at hs
    · rename_i ht
      cases hs
      exact .mk ho hb hd (.expr (.cond (.if hk ht)) hr)
    · rename_i ht
      cases hs
      exact .mk ho hb hd (.expr (.switch hk ht) hr)
    · cases hs

theorem SpellsProgress.stepOpening {o : Opening} {before : List Block} {opener : Lexeme}
    (ho : SpellsOuter base ((o, before) :: outer) ts) (hb : SpellsBlocks us blocks.reverse)
    (hd : base + ((o, before) :: outer).length + Block.nestingList blocks.reverse ≤ maxDepth)
    (hk : opener.kind = .lBracePercent)
    (hs : Progress.stepOpening base ⟨.tag opener, blocks, (o, before) :: outer⟩ o before outer opener t = .shift p') :
    SpellsProgress base p' (ts ++ (us ++ [opener, t])) := by
  simp only [List.length_cons] at hd
  have hr : SpellsReading (base + outer.length + 1) .start [] := .start (by omega)
  cases ho with
  | @cons _ _ _ ts bs vs h hb' hd' ho =>
    have hbd : base + outer.length + 1 + Block.nestingList blocks.reverse ≤ maxDepth := by omega
    unfold Progress.stepOpening at hs
    -- a case for each word that goes on with the statement or ends it; any other word is an error
    split at hs
    · rename_i ht
      cases hs
      have hu := SpellsUse.cond (.elseif (ho.branches hb hbd) hk ht)
      simpa using SpellsProgress.mk h hb' hd' (.expr hu hr)
    · rename_i ht
      cases hs
      simpa using SpellsProgress.mk h hb' hd' (.elseEnd (ho.branches hb hbd) hk ht)
    · rename_i ht
      cases hs
      simpa using SpellsProgress.mk h hb' hd' ((ho.branches hb hbd).cond hk ht)
    · rename_i ht
      cases hs
      simpa using SpellsProgress.mk h hb' hd' (ho.condElse hb hbd hk ht)
    · cases hs
    · cases hs
    · rename_i ht
      cases hs
      have hu := SpellsUse.pattern (ho.cases hb hbd) hk ht
      simpa using SpellsProgress.mk h hb' hd' (.expr hu hr)
    · rename_i ht
      cases hs
      simpa using SpellsProgress.mk h hb' hd' ((ho.cases hb hbd).switch hk ht)
    · cases hs
    · cases hs

theorem SpellsProgress.stepUse {use : Use} {e : Expr} {ws : List Lexeme} (ho : SpellsOuter base outer ts)
    (hb : SpellsBlocks us blocks.reverse) (hd : base + outer.length + Block.nestingList blocks.reverse ≤ maxDepth)
    (hu : SpellsUse (base + outer.length) use vs) (he : SpellsExpr .or ws e)
    (hed : Progress.around base outer use + e.nesting ≤ maxDepth)
    (hs : Progress.stepUse base ⟨.expr use .start, blocks, outer⟩ use e t = .shift p') :
    SpellsProgress base p' (ts ++ (us ++ (vs ++ (ws ++ [t])))) := by
  cases use with
  | render =>
    obtain ⟨ht, rfl⟩ := shift_of_expect hs
    cases hu with
    | render hk => exact .push ho hb hd (.render hk he ht) hed
  | cond pos before =>
    obtain ⟨ht, rfl⟩ := shift_of_expect hs
    have hed : base + outer.length + 1 + e.nesting ≤ maxDepth := hed
    cases hu with
    | cond h => exact .openBody ho hb hd (.branch h he hed ht) (Nat.le_trans (Nat.le_add_right _ _) hed)
  | switch pos =>
    obtain ⟨ht, rfl⟩ := shift_of_expect hs
    have hed : base + outer.length + 1 + e.nesting ≤ maxDepth := hed
    cases hu with
    | @switch o w hk hw =>
      refine .mk ho hb hd (.firstCase ⟨o, w, t, ws, [], [], by simp, rfl, hk, hw, he, ht, by simp, .nil, ?_⟩)
      simp only [List.reverse_nil, Block.nestingCases]
      omega
  | pattern pos v cs ps =>
    have hed : base + outer.length + 1 + e.nesting ≤ maxDepth := hed
    have hr : SpellsReading (base + outer.length + 1) .start [] := .start (Nat.le_trans (Nat.le_add_right _ _) hed)
    obtain ⟨o, w, xs, ys, heq, h, hk, hw, hps, hpd⟩ := hu.patterns_read he hed
    rw [← List.append_assoc vs, heq]
    simp only [Progress.stepUse] at hs
    split at hs
    · rename_i ht
      cases hs
      simpa using SpellsProgress.mk ho hb hd (.expr (.patterns h hk hw hps hpd ht) hr)
    · obtain ⟨ht, rfl⟩ := shift_of_expect hs
      simpa [Progress.openBody] using
        SpellsProgress.openBody ho hb hd (.case h hk hw hps hpd ht) (Nat.le_trans (Nat.le_add_right _ _) hed)

/-- **Every token that is shifted keeps the invariant.** -/
theorem SpellsProgress.shift {p : Progress} (h : SpellsProgress base p ts) (hs : p.step base t = .shift p') :
    SpellsProgress base p' (ts ++ [t]) := by
  cases h with
  | @mk place blocks outer ts us vs ho hb hd hp =>
    rw [List.append_assoc, List.append_assoc]
    cases hp with
    | body => exact SpellsProgress.stepBody ho hb hd hs
    | @tag o hk =>
      simp only [Progress.step, Progress.stepTag] at hs
      split at hs
      · split at hs
        · cases hs
        · exact SpellsProgress.stepOpening ho hb hd hk hs
      · exact SpellsProgress.openStatement ho hb hd hk hs
    | @expr use r vs ws hu hr =>
      rw [Progress.step_expr] at hs
      rw [List.append_assoc]
      split at hs
      · rename_i r' hr'
        cases hs
        exact .mk ho hb hd (.expr hu (hr.shift hr'))
      · rename_i e he
        obtain ⟨he, hed⟩ := hr.accept he
        exact SpellsProgress.stepUse ho hb hd hu he hed hs
      · cases hs
    | @comment o hk =>
      simp only [Progress.step, Progress.stepComment] at hs
      split at hs
      · rename_i ht
        cases hs
        exact .mk ho hb hd (.commentEnd hk ht)
      · obtain ⟨ht, rfl⟩ := shift_of_expect hs
        exact .push ho hb hd (.emptyComment hk ht) (by simp only [Block.nesting]; omega)
    | commentEnd hk ht' =>
      obtain ⟨ht, rfl⟩ := shift_of_expect hs
      exact .push ho hb hd (.comment hk ht' ht) (by simp only [Block.nesting]; omega)
    | elseEnd h hk hw =>
      obtain ⟨ht, rfl⟩ := shift_of_expect hs
      obtain ⟨_, _, _, _, _, -, -, -, -, -, -, hbd⟩ := id h
      rw [List.append_assoc]
      exact .openBody ho hb hd (.otherwise h hk hw ht) (Nat.le_trans (Nat.le_add_right _ _) hbd)
    | statementEnd h hbd =>
      obtain ⟨ht, rfl⟩ := shift_of_expect hs
      exact .push ho hb hd (h t ht) hbd
    | firstCase h =>
      simp only [Progress.step, Progress.stepFirstCase] at hs
      split at hs
      · rename_i ht
        cases hs
        exact .mk ho hb hd (.firstCaseTag h ht)
      · cases hs
      · rename_i ht
        split at hs
        · rename_i hsp
          cases hs
          exact .mk ho hb hd (.firstCase (h.blank ⟨ht, hsp⟩))
        · cases hs
      · cases hs
    | firstCaseTag h hk =>
      obtain ⟨_, _, _, _, _, _, -, -, -, -, -, -, -, -, hbd⟩ := id h
      have hr : SpellsReading (base + outer.length + 1) .start [] := .start (Nat.le_trans (Nat.le_add_right _ _) hbd)
      simp only [Progress.step, Progress.stepFirstCaseTag] at hs
      rw [List.append_assoc]
      split at hs
      · rename_i ht
        cases hs
        simpa using SpellsProgress.mk ho hb hd (.expr (.pattern h hk ht) hr)
      · rename_i ht
        cases hs
        exact .mk ho hb hd (h.switch hk ht)
      · cases hs

theorem SpellsProgress.after : ∀ {us ts : List Lexeme} {p : Progress}, SpellsProgress base p ts →
    p.after? base us = some p' → SpellsProgress base p' (ts ++ us)
  | [], ts, p, h, hs => by
    cases hs
    rwa [List.append_nil]
  | u :: us, ts, p, h, hs => by
    rw [Progress.after?_cons, Option.bind_eq_some_iff] at hs
    obtain ⟨q, hq, hs⟩ := hs
    rw [← List.singleton_append, ← List.append_assoc]
    exact (h.shift (Progress.shift?_eq_some.1 hq)).after hs

end

/-! ## The end -/

theorem expect_ne_accept {base : Nat} {p q : Progress} {t : Lexeme} {k : TokenKind} {tpl : Template} :
    Progress.expect base p t k q ≠ .accept tpl := by
  unfold Progress.expect
  split <;> exact Progress.Step.noConfusion

/-- Only the end of the source is accepted, between two blocks and outside of all statements. -/
theorem step_eq_accept {base : Nat} {p : Progress} {t : Lexeme} {tpl : Template} (h : p.step base t = .accept tpl) :
    t.kind = .eof ∧ ∃ blocks, p = ⟨.body, blocks, []⟩ ∧ tpl = blocks.reverse := by
  obtain ⟨place, blocks, outer⟩ := p
  cases place with
  | body =>
    simp only [Progress.step, Progress.stepBody] at h
    split at h
    · cases h
    · cases h
    · cases h
    · cases h
    · rename_i ht
      cases outer with
      | nil =>
        cases h
        exact ⟨ht, blocks, rfl, rfl⟩
      | cons => cases h
    · cases h
  | tag o =>
    simp only [Progress.step, Progress.stepTag, Progress.openStatement] at h
    split at h
    · split at h
      · cases h
      · unfold Progress.stepOpening at h
        split at h <;> cases h
    · split at h
      · cases h
      · split at h <;> cases h
  | expr use r =>
    rw [Progress.step_expr] at h
    split at h
    · cases h
    · cases use with
      | pattern =>
        simp only [Progress.stepUse] at h
        split at h
        · cases h
        · exact absurd h expect_ne_accept
      | render | cond | switch => exact absurd h expect_ne_accept
    · cases h
  | comment =>
    simp only [Progress.step, Progress.stepComment] at h
    split at h
    · cases h
    · exact absurd h expect_ne_accept
  | commentEnd | elseEnd | statementEnd => exact absurd h expect_ne_accept
  | firstCase =>
    simp only [Progress.step, Progress.stepFirstCase, Progress.unexpected] at h
    split at h
    · cases h
    · cases h
    · split at h <;> cases h
    · cases h
  | firstCaseTag =>
    simp only [Progress.step, Progress.stepFirstCaseTag] at h
    split at h <;> cases h

theorem SpellsProgress.start {base : Nat} (h : base ≤ maxDepth) : SpellsProgress base .start [] := by
  have hd : base + ([] : List (Opening × List Block)).length + Block.nestingList [].reverse ≤ maxDepth := h
  exact .mk .nil .nil hd .body

/-- **A template that is accepted is spelled by the tokens that led to it**, and fits the limit. -/
theorem SpellsProgress.accept {base : Nat} {p : Progress} {t : Lexeme} {ts : List Lexeme} {tpl : Template}
    (h : SpellsProgress base p ts) (hs : p.step base t = .accept tpl) :
    SpellsBlocks ts tpl ∧ base + tpl.nesting ≤ maxDepth := by
  obtain ⟨-, blocks, rfl, rfl⟩ := step_eq_accept hs
  cases h with
  | mk ho hb hd hp =>
    cases ho
    cases hp
    exact ⟨by simpa using hb, by simpa [Template.nesting] using hd⟩

end Grammar
end Stencil
