import Stencil.Proofs.Grammar.Operators
import Stencil.Proofs.Grammar.Run
/-!
# Reading — what the tokens of an expression have spelled so far

`SpellsReading` is the invariant of reading an expression: it says of a `Reading` which tokens led to it, level by
level from the outermost frame to the current operand, and that nothing in it nests too deeply.  Every token that is
shifted keeps it (`SpellsReading.shift`), and where the expression is accepted its tokens spell it
(`SpellsReading.accept`).
-/
namespace Stencil
namespace Grammar

open Reading (framesDepth)

/-- The tokens of the `!`s in front of an operand, the innermost first in the list of their positions. -/
inductive SpellsNots : List Position → List Lexeme → Prop
  | nil : SpellsNots [] []
  | snoc {t : Lexeme} {ps : List Position} {ts : List Lexeme} (h : SpellsNots ps ts) (ht : t.kind = .bang) :
      SpellsNots (t.pos :: ps) (ts ++ [t])

/-- The tokens of a level that waits for an operand, where `d` constructs are open around it. -/
inductive SpellsLevel (d : Nat) : Level → List Lexeme → Prop
  | first {ps : List Position} {ts : List Lexeme} (hn : SpellsNots ps ts) (hd : d + ps.length ≤ maxDepth) :
      SpellsLevel d ⟨none, ps⟩ ts
  | next {o : Lexeme} {op : BinOp} {e : Expr} {ps : List Position} {ts us : List Lexeme} (he : SpellsExpr .or ts e)
      (hed : d + e.nesting ≤ maxDepth) (ho : o.kind.binOp? = some op) (hn : SpellsNots ps us)
      (hd : d + ps.length ≤ maxDepth) : SpellsLevel d ⟨some (e, op), ps⟩ (ts ++ o :: us)

inductive SpellsFrames (base : Nat) : List Frame → List Lexeme → Prop
  | nil : SpellsFrames base [] []
  | paren {o : Lexeme} {outer : Level} {frames : List Frame} {ts us : List Lexeme} (hf : SpellsFrames base frames ts)
      (hl : SpellsLevel (base + framesDepth frames) outer us) (ho : o.kind = .lParen)
      (hd : base + framesDepth (.paren o.pos outer :: frames) ≤ maxDepth) :
      SpellsFrames base (.paren o.pos outer :: frames) (ts ++ (us ++ [o]))
  | call {f o : Lexeme} {outer : Level} {frames : List Frame} {ts us : List Lexeme} (hf : SpellsFrames base frames ts)
      (hl : SpellsLevel (base + framesDepth frames) outer us) (hn : f.kind = .identifier) (ho : o.kind = .lParen)
      (hd : base + framesDepth (.call f.ident [] outer :: frames) ≤ maxDepth) :
      SpellsFrames base (.call f.ident [] outer :: frames) (ts ++ (us ++ [f, o]))
  | callArgs {f o c : Lexeme} {args : List Expr} {outer : Level} {frames : List Frame} {ts us vs : List Lexeme}
      (hf : SpellsFrames base frames ts) (hl : SpellsLevel (base + framesDepth frames) outer us)
      (hn : f.kind = .identifier) (ho : o.kind = .lParen) (hargs : SpellsExprs vs args.reverse) (hc : c.kind = .comma)
      (hd : base + framesDepth (.call f.ident args outer :: frames) + Expr.nestingList args.reverse ≤ maxDepth) :
      SpellsFrames base (.call f.ident args outer :: frames) (ts ++ (us ++ f :: o :: (vs ++ [c])))

/-- **The tokens that led to a reading.** -/
inductive SpellsReading (base : Nat) : Reading → List Lexeme → Prop
  | operand {level : Level} {frames : List Frame} {ts us : List Lexeme} (hf : SpellsFrames base frames ts)
      (hl : SpellsLevel (base + framesDepth frames) level us) : SpellsReading base ⟨.operand, level, frames⟩ (ts ++ us)
  | firstArg {func : Ident} {outer : Level} {frames : List Frame} {ts : List Lexeme}
      (hf : SpellsFrames base (.call func [] outer :: frames) ts) :
      SpellsReading base ⟨.firstArg, .start, .call func [] outer :: frames⟩ ts
  | named {t : Lexeme} {level : Level} {frames : List Frame} {ts us : List Lexeme} (hf : SpellsFrames base frames ts)
      (hl : SpellsLevel (base + framesDepth frames) level us) (ht : t.kind = .identifier) :
      SpellsReading base ⟨.named t.ident, level, frames⟩ (ts ++ (us ++ [t]))
  | complete {e : Expr} {pending : Option (Expr × BinOp)} {frames : List Frame} {ts us vs : List Lexeme}
      (hf : SpellsFrames base frames ts) (hl : SpellsLevel (base + framesDepth frames) ⟨pending, []⟩ us)
      (he : SpellsExpr .pipe vs e) (hd : base + framesDepth frames + e.nesting ≤ maxDepth) :
      SpellsReading base ⟨.complete e, ⟨pending, []⟩, frames⟩ (ts ++ (us ++ vs))
  | function {b : Lexeme} {e : Expr} {pending : Option (Expr × BinOp)} {frames : List Frame} {ts us vs : List Lexeme}
      (hf : SpellsFrames base frames ts) (hl : SpellsLevel (base + framesDepth frames) ⟨pending, []⟩ us)
      (he : SpellsExpr .pipe vs e) (hd : base + framesDepth frames + e.nesting ≤ maxDepth) (hb : b.kind = .pipe) :
      SpellsReading base ⟨.function e, ⟨pending, []⟩, frames⟩ (ts ++ (us ++ (vs ++ [b])))

/-! ## Levels -/

theorem SpellsNots.negated {us : List Lexeme} : ∀ {ps : List Position} {ts : List Lexeme} {e : Expr},
    SpellsNots ps ts → SpellsExpr .unary us e → SpellsExpr .unary (ts ++ us) (e.negated ps)
  | _, _, _, .nil, he => he
  | _, _, _, .snoc h ht, he => by
    rw [List.append_assoc]
    exact h.negated (.not ht he)

theorem SpellsLevel.start {d : Nat} (hd : d ≤ maxDepth) : SpellsLevel d .start [] := .first .nil hd

theorem SpellsLevel.nots_le {d : Nat} {level : Level} {ts : List Lexeme} (h : SpellsLevel d level ts) :
    d + level.nots.length ≤ maxDepth := by
  cases h <;> assumption

theorem SpellsLevel.split {d : Nat} {level : Level} {ts : List Lexeme} (h : SpellsLevel d level ts) :
    ∃ us vs, ts = us ++ vs ∧ SpellsLevel d ⟨level.pending, []⟩ us ∧ SpellsNots level.nots vs := by
  have hd : d ≤ maxDepth := Nat.le_trans (Nat.le_add_right _ _) h.nots_le
  cases h with
  | first hn => exact ⟨[], _, rfl, .first .nil hd, hn⟩
  | @next o _ _ _ ts us he hed ho hn => exact ⟨ts ++ [o], us, by simp, .next he hed ho .nil hd, hn⟩

theorem SpellsLevel.bang {d : Nat} {level : Level} {t : Lexeme} {ts : List Lexeme} (h : SpellsLevel d level ts)
    (ht : t.kind = .bang) (hd : d + (level.nots.length + 1) ≤ maxDepth) :
    SpellsLevel d ⟨level.pending, t.pos :: level.nots⟩ (ts ++ [t]) := by
  cases h with
  | first hn => exact .first (.snoc hn ht) hd
  | next he hed ho hn =>
    rw [List.append_assoc]
    exact .next he hed ho (.snoc hn ht) hd

/-- **The tree of a level** is spelled by the tokens in front of its last operand and those of the operand. -/
theorem SpellsLevel.joined {d : Nat} {pending : Option (Expr × BinOp)} {us vs : List Lexeme} {e : Expr}
    (hl : SpellsLevel d ⟨pending, []⟩ us) (he : SpellsExpr .pipe vs e) (hd : d + e.nesting ≤ maxDepth) :
    SpellsExpr .or (us ++ vs) (e.joined pending) ∧ d + (e.joined pending).nesting ≤ maxDepth := by
  cases hl with
  | first hn =>
    cases hn
    exact ⟨he.loosen (by decide), hd⟩
  | @next o op t ps ts us ht htd ho hn =>
    cases hn
    refine ⟨?_, ?_⟩
    · rw [List.append_assoc]
      exact SpellsExpr.extend ho he ht op.le_precedence
    · rw [Expr.joined, Expr.nesting_extend]
      omega

theorem SpellsReading.operandRead {base : Nat} {level : Level} {frames : List Frame} {ts us vs : List Lexeme} {e : Expr}
    (hf : SpellsFrames base frames ts) (hl : SpellsLevel (base + framesDepth frames) level us)
    (he : SpellsExpr .primary vs e) (hd : base + framesDepth frames + level.nots.length + e.nesting ≤ maxDepth) :
    SpellsReading base (Reading.operandRead level frames e) (ts ++ (us ++ vs)) := by
  obtain ⟨us, ws, rfl, hl', hn⟩ := hl.split
  rw [List.append_assoc us]
  refine .complete hf hl' ((hn.negated (he.loosen (by decide))).loosen (by decide)) ?_
  rw [Expr.nesting_negated]
  omega

/-! ## Steps -/

theorem SpellsReading.enter {base : Nat} {pos : Position} {r r' : Reading} {ts : List Lexeme}
    (h : base + r.depth ≤ maxDepth → SpellsReading base r ts) (hs : Reading.enter base pos r = .shift r') :
    SpellsReading base r' ts := by
  unfold Reading.enter at hs
  split at hs
  · cases hs
  · rename_i hd
    cases hs
    exact h (Nat.not_lt.1 hd)

theorem SpellsReading.stepOperand {base : Nat} {level : Level} {frames : List Frame} {r' : Reading} {t : Lexeme}
    {ts us : List Lexeme} (hf : SpellsFrames base frames ts) (hl : SpellsLevel (base + framesDepth frames) level us)
    (hs : Reading.stepOperand base level frames t = .shift r') : SpellsReading base r' (ts ++ us ++ [t]) := by
  have hd := hl.nots_le
  unfold Reading.stepOperand at hs
  split at hs
  · rename_i ht
    refine SpellsReading.enter (fun hd' => ?_) hs
    simp only [Reading.depth, List.length_cons] at hd'
    rw [List.append_assoc]
    exact .operand hf (hl.bang ht (by omega))
  · rename_i ht
    refine SpellsReading.enter (fun hd' => ?_) hs
    simp only [Reading.depth, Level.start, List.length_nil, Nat.zero_add] at hd'
    have hf' : SpellsFrames base (.paren t.pos level :: frames) (ts ++ (us ++ [t])) := .paren hf hl ht hd'
    simpa only [List.append_assoc, List.append_nil] using SpellsReading.operand hf' (.start hd')
  · rename_i ht
    cases hs
    simpa using SpellsReading.named hf hl ht
  · rename_i ht
    cases hs
    simpa using SpellsReading.operandRead hf hl (.string ht) (by simp only [Expr.nesting]; omega)
  · rename_i ht
    cases hs
    simpa using SpellsReading.operandRead hf hl (.true ht) (by simp only [Expr.nesting]; omega)
  · rename_i ht
    cases hs
    simpa using SpellsReading.operandRead hf hl (.false ht) (by simp only [Expr.nesting]; omega)
  · cases hs

/-- **The arguments of an open call**, together with one that has just been read. -/
theorem SpellsFrames.args {base : Nat} {func : Ident} {args : List Expr} {outer : Level} {frames : List Frame}
    {ts us : List Lexeme} {e : Expr} (hf : SpellsFrames base (.call func args outer :: frames) ts)
    (he : SpellsExpr .or us e) (hd : base + framesDepth (.call func args outer :: frames) + e.nesting ≤ maxDepth) :
    ∃ f o ts' us' vs, func = f.ident ∧ ts ++ us = ts' ++ (us' ++ f :: o :: vs) ∧ SpellsFrames base frames ts' ∧
      SpellsLevel (base + framesDepth frames) outer us' ∧ f.kind = .identifier ∧ o.kind = .lParen ∧
      SpellsExprs vs (e :: args).reverse ∧
      base + framesDepth frames + outer.nots.length + 1 + Expr.nestingList (e :: args).reverse ≤ maxDepth := by
  simp only [framesDepth] at hd
  cases hf with
  | @call f o _ _ ts us' hf hl hn ho =>
    refine ⟨f, o, ts, us', us, rfl, by simp, hf, hl, hn, ho, .one he, ?_⟩
    simp only [List.reverse_cons, List.reverse_nil, List.nil_append, Expr.nestingList]
    omega
  | @callArgs f o c _ _ _ ts us' vs hf hl hn ho hargs hc hd' =>
    simp only [framesDepth] at hd'
    refine ⟨f, o, ts, us', vs ++ c :: us, rfl, by simp, hf, hl, hn, ho, ?_, ?_⟩
    · rw [List.reverse_cons]
      exact SpellsExprs.snoc hc he hargs
    · simp only [List.reverse_cons, Expr.nestingList_append, Expr.nestingList]
      omega

/-- A level that ends in front of a token gives its tree to the frame around it. -/
theorem SpellsReading.stepEnd {base : Nat} {frames : List Frame} {r' : Reading} {t : Lexeme} {ts us : List Lexeme}
    {e : Expr} (hf : SpellsFrames base frames ts) (he : SpellsExpr .or us e)
    (hd : base + framesDepth frames + e.nesting ≤ maxDepth) (hs : Reading.stepEnd base frames e t = .shift r') :
    SpellsReading base r' (ts ++ us ++ [t]) := by
  unfold Reading.stepEnd at hs
  split at hs
  · cases hs
  · rename_i hc
    cases hs
    simp only [framesDepth] at hd
    cases hf with
    | paren hf hl ho =>
      simpa using SpellsReading.operandRead hf hl (.paren ho he hc) (by simp only [Expr.nesting]; omega)
  · rename_i hc
    cases hs
    obtain ⟨f, o, ts, us', vs, rfl, heq, hf, hl, hn, ho, hes, hd'⟩ := hf.args he hd
    rw [heq]
    simpa using SpellsReading.operandRead hf hl (.call hn ho hes hc) (by simp only [Expr.nesting]; omega)
  · rename_i hc
    cases hs
    obtain ⟨f, o, ts, us', vs, rfl, heq, hf, hl, hn, ho, hes, hd'⟩ := hf.args he hd
    rw [heq]
    have hf' := SpellsFrames.callArgs hf hl hn ho hes hc (by simp only [framesDepth]; omega)
    simpa only [List.append_assoc, List.cons_append, List.append_nil] using
      SpellsReading.operand hf' (.start (by simp only [framesDepth]; omega))
  · cases hs

theorem SpellsReading.stepComplete {base : Nat} {pending : Option (Expr × BinOp)} {frames : List Frame} {r' : Reading}
    {t : Lexeme} {ts us vs : List Lexeme} {e : Expr} (hf : SpellsFrames base frames ts)
    (hl : SpellsLevel (base + framesDepth frames) ⟨pending, []⟩ us) (he : SpellsExpr .pipe vs e)
    (hd : base + framesDepth frames + e.nesting ≤ maxDepth)
    (hs : Reading.stepComplete base pending frames e t = .shift r') :
    SpellsReading base r' (ts ++ (us ++ vs) ++ [t]) := by
  obtain ⟨hj, hjd⟩ := hl.joined he hd
  unfold Reading.stepComplete at hs
  split at hs
  · rename_i ht
    cases hs
    simpa using SpellsReading.function hf hl he hd ht
  · split at hs
    · rename_i op hop
      cases hs
      have hl' := SpellsLevel.next hj hjd hop .nil hl.nots_le
      rw [List.append_assoc]
      exact .operand hf hl'
    · exact SpellsReading.stepEnd hf hj hjd hs

/-- **Every token that is shifted keeps the invariant.** -/
theorem SpellsReading.shift {base : Nat} {r r' : Reading} {t : Lexeme} {ts : List Lexeme} (h : SpellsReading base r ts)
    (hs : r.step base t = .shift r') : SpellsReading base r' (ts ++ [t]) := by
  cases h with
  | operand hf hl => exact SpellsReading.stepOperand hf hl hs
  | @firstArg func outer frames _ hf =>
    have hd : base + framesDepth (.call func [] outer :: frames) ≤ maxDepth := by
      cases hf with
      | call _ _ _ _ hd => exact hd
      | callArgs _ _ _ _ hargs => cases hargs
    simp only [Reading.step, Reading.stepFirstArg] at hs
    split at hs
    · rename_i heq hc
      cases heq
      cases hs
      cases hf with
      | call hf hl hn ho =>
        simp only [framesDepth] at hd
        simpa using SpellsReading.operandRead hf hl (.emptyCall hn ho hc)
          (by simp only [Expr.nesting, Expr.nestingList]; omega)
      | callArgs _ _ _ _ hargs => cases hargs
    · simpa using SpellsReading.stepOperand hf (.start hd) hs
  | @named x level frames ts us hf hl hx =>
    have hd := hl.nots_le
    simp only [Reading.step, Reading.stepNamed] at hs
    split at hs
    · rename_i ht
      refine SpellsReading.enter (fun hd' => ?_) hs
      simp only [Reading.depth, Level.start, List.length_nil, Nat.zero_add] at hd'
      have hf' : SpellsFrames base (.call x.ident [] level :: frames) (ts ++ (us ++ [x, t])) := .call hf hl hx ht hd'
      simpa using SpellsReading.firstArg hf'
    · obtain ⟨us, vs, rfl, hl', hn⟩ := hl.split
      have he := hn.negated (.tighter rfl (.var hx))
      simpa using SpellsReading.stepComplete hf hl' (.tighter rfl he)
        (by simp only [Expr.nesting_negated, Expr.nesting]; omega) hs
  | complete hf hl he hd => exact SpellsReading.stepComplete hf hl he hd hs
  | function hf hl he hd hb =>
    simp only [Reading.step, Reading.stepFunction] at hs
    split at hs
    · rename_i ht
      cases hs
      simpa using SpellsReading.complete hf hl (.pipe he hb ht) (by simpa only [Expr.nesting] using hd)
    · cases hs

/-- **An expression that is accepted is spelled by the tokens that led to it**, and fits the limit. -/
theorem SpellsReading.accept {base : Nat} {r : Reading} {t : Lexeme} {ts : List Lexeme} {e : Expr}
    (h : SpellsReading base r ts) (hs : r.step base t = .accept e) :
    SpellsExpr .or ts e ∧ base + e.nesting ≤ maxDepth := by
  obtain ⟨hframes, -, -, a, ha, rfl⟩ := Reading.step_eq_accept hs
  cases h with
  | operand => cases ha
  | firstArg => cases ha
  | @named x level frames ts us hf hl hx =>
    cases ha
    cases hframes
    cases hf
    have hd := hl.nots_le
    obtain ⟨us, vs, rfl, hl', hn⟩ := hl.split
    have he := hn.negated (.tighter rfl (.var hx))
    obtain ⟨hj, hjd⟩ := hl'.joined (.tighter rfl he) (by simp only [Expr.nesting_negated, Expr.nesting]; omega)
    exact ⟨by simpa using hj, hjd⟩
  | complete hf hl he hd =>
    cases ha
    cases hframes
    cases hf
    exact hl.joined he hd
  | function => cases ha

end Grammar
end Stencil
