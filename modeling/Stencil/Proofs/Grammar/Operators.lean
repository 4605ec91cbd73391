import Stencil.Proofs.Grammar
/-!
# Operators — an operand at the right edge of a tree

`Expr.extend` puts an operator and its right operand at the right edge of a tree, below every operator that binds less
tightly.  Two facts say that this is how the strata bind: a tree of a stratum stays in it (`SpellsExpr.extend`), and
an operand that is itself an operation may be put there piece by piece (`extend_extend`).
-/
namespace Stencil

namespace Expr

/-- An operator at the root of a tree has at least precedence `n`. -/
def Tight (n : Nat) : Expr → Prop
  | .binary op _ _ => n ≤ op.precedence
  | _ => True

theorem Tight.mono {m n : Nat} (h : m ≤ n) : ∀ {e : Expr}, e.Tight n → e.Tight m
  | .binary _ _ _, he => Nat.le_trans h he
  | .lit _ _, _ | .var _, _ | .not _ _, _ | .paren _ _, _ | .call _ _, _ | .pipe _ _, _ => trivial

/-- A tree whose root binds at least as tightly becomes the left operand as a whole. -/
theorem extend_of_tight {op : BinOp} (r : Expr) : ∀ {e : Expr}, e.Tight op.precedence → e.extend op r = .binary op e r
  | .binary o l r', h => by rw [extend, if_neg (Nat.not_lt.2 h)]
  | .lit _ _, _ | .var _, _ | .not _ _, _ | .paren _ _, _ | .call _ _, _ | .pipe _ _, _ => rfl

/-- **An operation may be put at the right edge as a whole or operand by operand**, when it binds more tightly than
the operator in front of it and its left operand at least as tightly as itself. -/
theorem extend_extend {o op : BinOp} (ho : o.precedence < op.precedence) {l : Expr} (hl : l.Tight op.precedence)
    (r : Expr) : ∀ t : Expr, (t.extend o l).extend op r = t.extend o (.binary op l r)
  | .binary o' l' r' => by
    rw [extend, extend]
    split
    · rename_i h
      rw [extend, if_pos (Nat.lt_trans h ho), extend_extend ho hl r r']
    · rw [extend, if_pos ho, extend_of_tight r hl]
  | .lit _ _ | .var _ | .not _ _ | .paren _ _ | .call _ _ | .pipe _ _ => by
    simp only [extend, if_pos ho, extend_of_tight r hl]

theorem nesting_extend (op : BinOp) (e : Expr) : ∀ t : Expr, (t.extend op e).nesting = max t.nesting e.nesting
  | .binary o l r => by
    rw [extend]
    split
    · rw [nesting, nesting, nesting_extend op e r, Nat.max_assoc]
    · rw [nesting]
  | .lit _ _ | .var _ | .not _ _ | .paren _ _ | .call _ _ | .pipe _ _ => rfl

theorem nesting_negated : ∀ (nots : List Position) (e : Expr), (e.negated nots).nesting = nots.length + e.nesting
  | [], e => (Nat.zero_add _).symm
  | p :: nots, e => by
    show (Expr.negated (.not e p) nots).nesting = _
    rw [nesting_negated nots, nesting, List.length_cons]
    omega

theorem nestingList_append (ds es : List Expr) :
    nestingList (es ++ ds) = max (nestingList es) (nestingList ds) := by
  induction es with
  | nil => exact (Nat.zero_max _).symm
  | cons e es ih => rw [List.cons_append, nestingList, ih, nestingList, Nat.max_assoc]

end Expr

namespace Grammar

theorem SpellsExpr.tight : ∀ {p : Stratum} {ts : List Lexeme} {e : Expr}, SpellsExpr p ts e → e.Tight p.rank
  | _, _, _, .binary hp _ _ _ _ => by
    subst hp
    exact Nat.le_of_eq (BinOp.rank_stratum _)
  | _, _, _, .tighter hq he => he.tight.mono (by rw [Stratum.rank_tighter hq]; omega)
  | _, _, _, .var _ | _, _, _, .string _ | _, _, _, .true _ | _, _, _, .false _ | _, _, _, .paren ..
  | _, _, _, .emptyCall .. | _, _, _, .call .. | _, _, _, .not .. | _, _, _, .pipe .. => trivial

theorem SpellsExpr.loosen {p q : Stratum} {ts : List Lexeme} {e : Expr} (h : SpellsExpr q ts e)
    (hpq : p.rank ≤ q.rank) : SpellsExpr p ts e := by
  rcases Nat.eq_or_lt_of_le hpq with heq | hlt
  · rw [Stratum.rank_inj heq]
    exact h
  · obtain ⟨p', hp'⟩ := Stratum.exists_tighter hlt
    have hr := Stratum.rank_tighter hp'
    exact .tighter hp' (h.loosen (by omega))
termination_by q.rank - p.rank

/-- **A tree stays in its stratum** when an operator of that stratum or of a tighter one is put at its right edge. -/
theorem SpellsExpr.extend {o : Lexeme} {op : BinOp} {us : List Lexeme} {r : Expr} (ho : o.kind.binOp? = some op)
    (hr : SpellsExpr .pipe us r) {p : Stratum} {ts : List Lexeme} {e : Expr} (h : SpellsExpr p ts e)
    (hle : p.rank ≤ op.precedence) : SpellsExpr p (ts ++ o :: us) (e.extend op r) := by
  cases h with
  | @binary _ _ _ op' _ _ _ _ hp hq hl ho' hr' =>
    have hrank := Stratum.rank_tighter hq
    have hp' : op'.precedence = p.rank := by rw [← hp, op'.rank_stratum]
    rw [Expr.extend]
    split
    · rename_i hlt
      have h := SpellsExpr.extend ho hr hr' (by omega)
      simpa only [List.append_assoc, List.cons_append] using SpellsExpr.binary hp hq hl ho' h
    · have hop := op.precedence_lt
      exact .binary (BinOp.stratum_eq (by omega)) hq (.binary hp hq hl ho' hr') ho
        (hr.loosen (by omega))
  | @tighter _ q _ _ hq he =>
    have hrank := Stratum.rank_tighter hq
    by_cases hlt : q.rank ≤ op.precedence
    · exact .tighter hq (SpellsExpr.extend ho hr he hlt)
    · have hop := op.precedence_lt
      rw [Expr.extend_of_tight r (he.tight.mono (by omega))]
      exact .binary (BinOp.stratum_eq (by omega)) hq (.tighter hq he) ho
        (hr.loosen (by omega))
  | _ =>
    -- the tighter strata hold no operator, and none binds that tightly
    have hop := op.precedence_lt
    simp only [Stratum.rank] at hle hop
    omega
termination_by op.precedence - p.rank

end Grammar
end Stencil
