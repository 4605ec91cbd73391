import Stencil.Proofs.Grammar
import Stencil.Proofs.Source.Words
/-!
# Blanks — the white space in front of the cases of a switch

Blank text between the tag of a switch and the tag after it belongs to no template.  `withoutBlanks` takes it out of the
tokens, which it reads from the front, remembering in a `Spot` where it stands.  `Keeps` says what this leaves of some
tokens whatever follows them, so that tokens can be put together from parts.
-/
namespace Stencil

open Grammar (IsBlank)

instance (t : Lexeme) : Decidable (IsBlank t) := inferInstanceAs (Decidable (_ ∧ _))

/-- Where a token stands: right after the opener of a statement's tag, in the tag of a switch after its word, between
that tag and the next one, or elsewhere. -/
inductive Spot
  | elsewhere | opened | switchTag | beforeCases
deriving DecidableEq, Repr

def Spot.after : Spot → TokenKind → Spot
  | .opened, .switch => .switchTag
  | .switchTag, .rBracePercent => .beforeCases
  | .switchTag, _ => .switchTag
  | .beforeCases, .lBracePercent => .opened
  | .beforeCases, _ => .beforeCases
  | _, .lBracePercent => .opened
  | _, _ => .elsewhere

/-- Tokens without the blank text that stands between the tag of a switch and the tag after it. -/
def withoutBlanks : Spot → List Lexeme → List Lexeme
  | _, [] => []
  | p, t :: ts =>
    if p = .beforeCases ∧ IsBlank t then withoutBlanks (p.after t.kind) ts
    else t :: withoutBlanks (p.after t.kind) ts

theorem withoutBlanks_sublist : ∀ (p : Spot) (ts : List Lexeme), (withoutBlanks p ts).Sublist ts
  | _, [] => .slnil
  | p, t :: ts => by
    rw [withoutBlanks]
    split
    · exact (withoutBlanks_sublist _ ts).cons t
    · exact (withoutBlanks_sublist _ ts).cons_cons t

theorem withoutBlanks_map_erase : ∀ (p : Spot) (ts : List Lexeme),
    withoutBlanks p (ts.map Lexeme.erase) = (withoutBlanks p ts).map Lexeme.erase
  | _, [] => rfl
  | p, t :: ts => by
    have ih := withoutBlanks_map_erase (p.after t.kind) ts
    rw [List.map_cons, withoutBlanks, withoutBlanks]
    by_cases h : p = .beforeCases ∧ IsBlank t
    · rw [if_pos h, if_pos (show p = .beforeCases ∧ IsBlank t.erase from h)]
      exact ih
    · rw [if_neg h, if_neg (show ¬ (p = .beforeCases ∧ IsBlank t.erase) from h), List.map_cons]
      exact congrArg _ ih

/-- Without the blanks, the tokens `ts` that start at `p` are `us` and end at `q`, whatever follows. -/
def Keeps (p q : Spot) (ts us : List Lexeme) : Prop :=
  ∀ more, withoutBlanks p (ts ++ more) = us ++ withoutBlanks q more

namespace Keeps

variable {p q r : Spot} {t : Lexeme} {ts ts' us us' : List Lexeme}

theorem nil : Keeps p p [] [] := fun _ => rfl

theorem append (h : Keeps p q ts us) (h' : Keeps q r ts' us') : Keeps p r (ts ++ ts') (us ++ us') := fun more => by
  rw [List.append_assoc, h, h', List.append_assoc]

theorem cons (hp : p ≠ .beforeCases) (h : Keeps (p.after t.kind) q ts us) : Keeps p q (t :: ts) (t :: us) := fun more => by
  have hkept : ¬ (p = .beforeCases ∧ IsBlank t) := fun hb => hp hb.1
  rw [List.cons_append, withoutBlanks, if_neg hkept, h, List.cons_append]

theorem cons_kind {k : TokenKind} (ht : t.kind = k) (hp : p ≠ .beforeCases) (h : Keeps (p.after k) q ts us) :
    Keeps p q (t :: ts) (t :: us) := cons hp (ht ▸ h)

theorem blanks (h : ∀ t ∈ ts, IsBlank t) : Keeps .beforeCases .beforeCases ts [] := fun more => by
  induction ts with
  | nil => rfl
  | cons t ts ih =>
    have ht := h t List.mem_cons_self
    rw [List.cons_append, withoutBlanks, if_pos ⟨rfl, ht⟩, ht.1]
    exact ih fun u hu => h u (List.mem_cons_of_mem t hu)

theorem stay (hp : p ≠ .beforeCases) (h : ∀ t ∈ ts, p.after t.kind = p) : Keeps p p ts ts := by
  induction ts with
  | nil => exact nil
  | cons t ts ih =>
    refine cons hp ?_
    rw [h t List.mem_cons_self]
    exact ih fun u hu => h u (List.mem_cons_of_mem t hu)

theorem beforeCases (ht : t.kind = .lBracePercent) (h : Keeps .elsewhere q (t :: ts) us) :
    Keeps .beforeCases q (t :: ts) us := fun more => by
  have hkept : ∀ p : Spot, ¬ (p = .beforeCases ∧ IsBlank t) := fun _ hb => by
    rw [hb.2.1] at ht
    cases ht
  have hm := h more
  rw [List.cons_append, withoutBlanks, if_neg (hkept _), ht] at hm ⊢
  exact hm

theorem eq (h : Keeps p q ts us) : withoutBlanks p ts = us := by
  have hm := h []
  rwa [List.append_nil, withoutBlanks, List.append_nil] at hm

theorem sublist (h : Keeps p q ts us) : us.Sublist ts := h.eq ▸ withoutBlanks_sublist p ts

end Keeps

theorem Spot.after_of_isInside {k : TokenKind} (h : k.IsInside) :
    Spot.elsewhere.after k = .elsewhere ∧ Spot.switchTag.after k = .switchTag := by
  obtain ⟨hb, ha⟩ := h
  revert hb ha
  cases k <;> decide

namespace Grammar

open TokenKind (IsInside)

mutual

theorem SpellsExpr.inside : ∀ {p : Stratum} {ts : List Lexeme} {e : Expr}, SpellsExpr p ts e →
    ∀ t ∈ ts, t.kind.IsInside
  | _, _, _, .var ht => List.forall_mem_singleton.2 (.of_eq ht ⟨rfl, rfl⟩)
  | _, _, _, .string ht => List.forall_mem_singleton.2 (.of_eq ht ⟨rfl, rfl⟩)
  | _, _, _, .true ht => List.forall_mem_singleton.2 (.of_eq ht ⟨rfl, rfl⟩)
  | _, _, _, .false ht => List.forall_mem_singleton.2 (.of_eq ht ⟨rfl, rfl⟩)
  | _, _, _, .paren ho he hc => by
    rw [List.forall_mem_cons, List.forall_mem_append, List.forall_mem_singleton]
    exact ⟨.of_eq ho ⟨rfl, rfl⟩, he.inside, .of_eq hc ⟨rfl, rfl⟩⟩
  | _, _, _, .emptyCall hf ho hc => by
    rw [List.forall_mem_cons, List.forall_mem_cons, List.forall_mem_singleton]
    exact ⟨.of_eq hf ⟨rfl, rfl⟩, .of_eq ho ⟨rfl, rfl⟩, .of_eq hc ⟨rfl, rfl⟩⟩
  | _, _, _, .call hf ho hes hc => by
    rw [List.forall_mem_cons, List.forall_mem_cons, List.forall_mem_append, List.forall_mem_singleton]
    exact ⟨.of_eq hf ⟨rfl, rfl⟩, .of_eq ho ⟨rfl, rfl⟩, hes.inside, .of_eq hc ⟨rfl, rfl⟩⟩
  | _, _, _, .not ht he => List.forall_mem_cons.2 ⟨.of_eq ht ⟨rfl, rfl⟩, he.inside⟩
  | _, _, _, .pipe he hb hf => by
    rw [List.forall_mem_append, List.forall_mem_cons, List.forall_mem_singleton]
    exact ⟨he.inside, .of_eq hb ⟨rfl, rfl⟩, .of_eq hf ⟨rfl, rfl⟩⟩
  | _, _, _, .binary _ _ hl ho hr => by
    rw [List.forall_mem_append, List.forall_mem_cons]
    exact ⟨hl.inside, TokenKind.isInside_of_binOp? ho, hr.inside⟩
  | _, _, _, .tighter _ he => he.inside

theorem SpellsExprs.inside : ∀ {ts : List Lexeme} {es : List Expr}, SpellsExprs ts es → ∀ t ∈ ts, t.kind.IsInside
  | _, _, .one he => he.inside
  | _, _, .cons he hc hes => by
    rw [List.forall_mem_append, List.forall_mem_cons]
    exact ⟨he.inside, .of_eq hc ⟨rfl, rfl⟩, hes.inside⟩

end

end Grammar

theorem Keeps.inside {p : Spot} {ts : List Lexeme} (hp : p = .elsewhere ∨ p = .switchTag)
    (h : ∀ t ∈ ts, t.kind.IsInside) : Keeps p p ts ts := by
  rcases hp with rfl | rfl
  · exact stay Spot.noConfusion fun t ht => (Spot.after_of_isInside (h t ht)).1
  · exact stay Spot.noConfusion fun t ht => (Spot.after_of_isInside (h t ht)).2

theorem Grammar.SpellsEnd.keeps {vs : List Lexeme} (h : SpellsEnd vs) : Keeps .elsewhere .elsewhere vs vs := by
  cases h with
  | mk ho hw hc =>
    exact .cons_kind ho Spot.noConfusion (.cons_kind hw Spot.noConfusion (.cons_kind hc Spot.noConfusion .nil))

theorem Grammar.SpellsCases.keeps_beforeCases {us vs xs : List Lexeme} {cs : List (List Expr × List Block)}
    (hcs : SpellsCases us cs) (he : SpellsEnd vs) (h : Keeps .elsewhere .elsewhere (us ++ vs) xs) :
    Keeps .beforeCases .elsewhere (us ++ vs) xs := by
  cases hcs with
  | nil =>
    cases he with
    | mk ho => exact h.beforeCases ho
  | cons ho => exact h.beforeCases ho

end Stencil
