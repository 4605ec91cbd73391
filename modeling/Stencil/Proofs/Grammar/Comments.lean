import Stencil.Proofs.Grammar
import Stencil.Proofs.Source.Blanks
import Stencil.Proofs.Source.Comments
/-!
# Comments in the grammar — the template without its comments

Tokens without comments spell the template without its comments (`SpellsBlocks.uncomment`).  A body ends in front of a
token that is neither text nor part of a comment, so what is joined in one body never reaches into another.
-/
namespace Stencil

/-! ## Tokens -/

/-- Tokens of this kind stay as they are when comments are left out. -/
def TokenKind.IsFirm (k : TokenKind) : Prop := k ≠ .text ∧ ¬ k.IsOfComment

instance (k : TokenKind) : Decidable k.IsFirm := inferInstanceAs (Decidable (_ ∧ _))

theorem TokenKind.IsInside.isFirm {k : TokenKind} (h : k.IsInside) : k.IsFirm := by
  obtain ⟨hbefore, -⟩ := h
  revert hbefore
  cases k <;> decide

namespace Lexeme

theorem settle_of_isFirm {t : Lexeme} (h : t.kind.IsFirm) (us : List Lexeme) : t.settle us = t :: us := by
  rw [settle, if_neg h.2, if_neg h.1]

theorem uncomment_kind {t : Lexeme} {k : TokenKind} (ht : t.kind = k) (hk : k.IsFirm) (ts us : List Lexeme) :
    uncomment (t :: ts) us = t :: uncomment ts us := settle_of_isFirm (ht ▸ hk) _

theorem uncomment_text {t : Lexeme} (ht : t.kind = .text) (ts us : List Lexeme) :
    uncomment (t :: ts) us = t.joinText (uncomment ts us) := by
  rw [uncomment_cons, settle, ht, if_neg (by decide), if_pos rfl]

theorem uncomment_comment {t : Lexeme} {k : TokenKind} (ht : t.kind = k) (hk : k.IsOfComment) (ts us : List Lexeme) :
    uncomment (t :: ts) us = uncomment ts us := if_pos (ht ▸ hk)

theorem uncomment_of_isFirm {ts : List Lexeme} (us : List Lexeme) (h : ∀ t ∈ ts, t.kind.IsFirm) :
    uncomment ts us = ts ++ us := by
  induction ts with
  | nil => rfl
  | cons t ts ih =>
    obtain ⟨ht, hts⟩ := List.forall_mem_cons.1 h
    rw [uncomment_cons, ih hts, settle_of_isFirm ht, List.cons_append]

def StartsFirm (ts : List Lexeme) : Prop := ∀ t ∈ ts.head?, t.kind.IsFirm

theorem StartsFirm.nil : StartsFirm [] := fun _ h => nomatch h

theorem StartsFirm.of_kind {t : Lexeme} {k : TokenKind} (ht : t.kind = k) (hk : k.IsFirm) (us : List Lexeme) :
    StartsFirm (t :: us) := fun _ h => Option.some.inj h ▸ ht ▸ hk

theorem joinText_append {rest : List Lexeme} (h : StartsFirm rest) (t : Lexeme) : ∀ us : List Lexeme,
    t.joinText (us ++ rest) = t.joinText us ++ rest
  | u :: us => by
    rw [List.cons_append, joinText, joinText]
    split <;> rfl
  | [] => by
    cases rest with
    | nil => rfl
    | cons r rs => exact if_neg fun hj => (h r rfl).1 hj.1

theorem settle_append {rest : List Lexeme} (h : StartsFirm rest) (t : Lexeme) (us : List Lexeme) :
    t.settle (us ++ rest) = t.settle us ++ rest := by
  rw [settle, settle]
  split
  · rfl
  split
  · exact joinText_append h t us
  · rfl

theorem uncomment_of_startsFirm {rest : List Lexeme} (h : StartsFirm rest) : ∀ ts : List Lexeme,
    uncomment ts rest = uncomment ts [] ++ rest
  | [] => rfl
  | t :: ts => by rw [uncomment_cons, uncomment_of_startsFirm h ts, settle_append h, uncomment_cons]

end Lexeme

/-! ## Blocks -/

/-- A text in front of blocks.  A text that follows on the same line is joined on. -/
def Block.joinText (c : Bytes) (p : Position) : List Block → List Block
  | .text d q :: bs =>
    if d.head? ≠ some Byte.newline then .text (c ++ d) p :: bs else .text c p :: .text d q :: bs
  | bs => .text c p :: bs

mutual

def Block.uncomment : Block → List Block → List Block
  | .text c p, bs => Block.joinText c p bs
  | .comment _ _, bs => bs
  | .render e, bs => .render e :: bs
  | .cond branches none p, bs => .cond (Block.uncommentBranches branches) none p :: bs
  | .cond branches (some body) p, bs =>
    .cond (Block.uncommentBranches branches) (some (Block.uncommentList body)) p :: bs
  | .switch v cases p, bs => .switch v (Block.uncommentCases cases) p :: bs
termination_by structural b => b

def Block.uncommentList : List Block → List Block
  | [] => []
  | b :: bs => b.uncomment (Block.uncommentList bs)
termination_by structural bs => bs

def Block.uncommentBranches : List (Expr × List Block) → List (Expr × List Block)
  | [] => []
  | (c, body) :: rest => (c, Block.uncommentList body) :: Block.uncommentBranches rest
termination_by structural bs => bs

def Block.uncommentCases : List (List Expr × List Block) → List (List Expr × List Block)
  | [] => []
  | (ps, body) :: rest => (ps, Block.uncommentList body) :: Block.uncommentCases rest
termination_by structural cs => cs

end

def Template.uncomment (t : Template) : Template := Block.uncommentList t

theorem Block.nestingList_joinText (c : Bytes) (p : Position) (bs : List Block) :
    Block.nestingList (Block.joinText c p bs) = Block.nestingList bs := by
  unfold Block.joinText
  split
  · split
    · rfl
    · exact Nat.zero_max _
  · exact Nat.zero_max _

mutual

theorem Block.nestingList_uncomment (bs : List Block) : ∀ b : Block,
    Block.nestingList (b.uncomment bs) = max b.nesting (Block.nestingList bs)
  | .text c p => (Block.nestingList_joinText c p bs).trans (Nat.zero_max _).symm
  | .comment _ _ => (Nat.zero_max _).symm
  | .render _ => rfl
  | .cond branches none p => by
    rw [Block.uncomment, Block.nestingList, Block.nesting, nestingBranches_uncomment branches, Block.nesting]
  | .cond branches (some body) p => by
    rw [Block.uncomment, Block.nestingList, Block.nesting, nestingBranches_uncomment branches,
      nestingList_uncommentList body, Block.nesting]
  | .switch v cases p => by
    rw [Block.uncomment, Block.nestingList, Block.nesting, nestingCases_uncomment cases, Block.nesting]

theorem Block.nestingList_uncommentList : ∀ bs : List Block,
    Block.nestingList (Block.uncommentList bs) = Block.nestingList bs
  | [] => rfl
  | b :: bs => by
    rw [Block.uncommentList, nestingList_uncomment _ b, nestingList_uncommentList bs, Block.nestingList]

theorem Block.nestingBranches_uncomment : ∀ bs : List (Expr × List Block),
    Block.nestingBranches (Block.uncommentBranches bs) = Block.nestingBranches bs
  | [] => rfl
  | (c, body) :: bs => by
    rw [Block.uncommentBranches, Block.nestingBranches, nestingList_uncommentList body, nestingBranches_uncomment bs,
      Block.nestingBranches]

theorem Block.nestingCases_uncomment : ∀ cs : List (List Expr × List Block),
    Block.nestingCases (Block.uncommentCases cs) = Block.nestingCases cs
  | [] => rfl
  | (ps, body) :: cs => by
    rw [Block.uncommentCases, Block.nestingCases, nestingList_uncommentList body, nestingCases_uncomment cs,
      Block.nestingCases]

end

/-! ## Spelling -/

namespace Grammar

open Lexeme (StartsFirm)

theorem SpellsExpr.uncomment {p : Stratum} {ts : List Lexeme} {e : Expr} (h : SpellsExpr p ts e) (us : List Lexeme) :
    Lexeme.uncomment ts us = ts ++ us := Lexeme.uncomment_of_isFirm us fun t ht => (h.inside t ht).isFirm

theorem SpellsExprs.uncomment {ts : List Lexeme} {es : List Expr} (h : SpellsExprs ts es) (us : List Lexeme) :
    Lexeme.uncomment ts us = ts ++ us := Lexeme.uncomment_of_isFirm us fun t ht => (h.inside t ht).isFirm

theorem SpellsEnd.uncomment {ts : List Lexeme} : SpellsEnd ts → ∀ us : List Lexeme, Lexeme.uncomment ts us = ts ++ us
  | .mk ho hw hc, us => Lexeme.uncomment_of_isFirm us (List.forall_mem_cons.2 ⟨by rw [ho]; decide,
      List.forall_mem_cons.2 ⟨by rw [hw]; decide, List.forall_mem_singleton.2 (by rw [hc]; decide)⟩⟩)

theorem SpellsEnd.startsFirm {ts : List Lexeme} : SpellsEnd ts → ∀ us : List Lexeme, StartsFirm (ts ++ us)
  | .mk ho _ _, _ => .of_kind ho (by decide) _

theorem SpellsElseifs.startsFirm {ts : List Lexeme} {bs : List (Expr × List Block)} (h : SpellsElseifs ts bs)
    {us : List Lexeme} (hus : StartsFirm us) : StartsFirm (Lexeme.uncomment ts us) := by
  cases h with
  | nil => exact hus
  | cons ho _ _ =>
    rw [Lexeme.uncomment_kind ho (by decide)]
    exact .of_kind ho (by decide) _

theorem SpellsCases.startsFirm {ts : List Lexeme} {cs : List (List Expr × List Block)} (h : SpellsCases ts cs)
    {us : List Lexeme} (hus : StartsFirm us) : StartsFirm (Lexeme.uncomment ts us) := by
  cases h with
  | nil => exact hus
  | cons ho _ _ _ _ _ =>
    rw [Lexeme.uncomment_kind ho (by decide)]
    exact .of_kind ho (by decide) _

/-- The tokens of a block are a text, or nothing is joined to the first of them. -/
theorem SpellsBlock.text_or_starts {ts : List Lexeme} {b : Block} (h : SpellsBlock ts b) :
    (∃ u : Lexeme, u.kind = .text ∧ ts = [u] ∧ b = .text u.text u.pos) ∨ ∃ o os, ts = o :: os ∧ o.kind ≠ .text ∧
      ∀ c p bs, Block.joinText c p (b :: bs) = .text c p :: b :: bs := by
  cases h with
  | text ht => exact .inl ⟨_, ht, rfl, rfl⟩
  | comment ho | emptyComment ho | render ho | cond ho | condElse ho | switch ho =>
    exact .inr ⟨_, _, rfl, by rw [ho]; exact TokenKind.noConfusion, fun _ _ _ => rfl⟩

theorem SpellsBlocks.joinText {t : Lexeme} (ht : t.kind = .text) {us : List Lexeme} {bs : List Block}
    (h : SpellsBlocks us bs) : SpellsBlocks (t.joinText us) (Block.joinText t.text t.pos bs) := by
  cases h with
  | nil => exact .cons (.text ht) .nil
  | cons hb hbs =>
    rcases hb.text_or_starts with ⟨u, hu, rfl, rfl⟩ | ⟨o, os, rfl, ho, hjoin⟩
    · rw [List.singleton_append, Lexeme.joinText, Block.joinText]
      by_cases hn : u.text.head? = some Byte.newline
      · rw [if_neg fun h => h.2 hn, if_neg (not_not_intro hn)]
        exact .cons (.text ht) (.cons hb hbs)
      · rw [if_pos ⟨hu, hn⟩, if_pos hn]
        exact .cons (.text (t := ⟨.text, t.text ++ u.text, t.pos⟩) rfl) hbs
    · rw [List.cons_append, Lexeme.joinText, if_neg fun h => ho h.1, hjoin]
      exact .cons (.text ht) (.cons hb hbs)

theorem isBlank_uncomment : ∀ {ws : List Lexeme}, (∀ t ∈ ws, IsBlank t) → ∀ t ∈ Lexeme.uncomment ws [], IsBlank t
  | [], _ => List.forall_mem_nil _
  | t :: ws, h => by
    obtain ⟨⟨hk, ht⟩, hws⟩ := List.forall_mem_cons.1 h
    have ih := isBlank_uncomment hws
    rw [Lexeme.uncomment_text hk]
    cases hus : Lexeme.uncomment ws [] with
    | nil => exact List.forall_mem_singleton.2 ⟨hk, ht⟩
    | cons u us =>
      rw [hus] at ih
      obtain ⟨hu, hus⟩ := List.forall_mem_cons.1 ih
      rw [Lexeme.joinText]
      split
      · refine List.forall_mem_cons.2 ⟨⟨rfl, ?_⟩, hus⟩
        rw [List.all_append, ht, hu.2]
        rfl
      · exact List.forall_mem_cons.2 ⟨⟨hk, ht⟩, ih⟩

open Lexeme (uncomment_append uncomment_kind uncomment_text uncomment_comment uncomment_of_startsFirm)

mutual

theorem SpellsBlock.uncomment : ∀ {ts : List Lexeme} {b : Block}, SpellsBlock ts b → ∀ {us : List Lexeme}
    {bs : List Block}, SpellsBlocks us bs → SpellsBlocks (Lexeme.uncomment ts us) (b.uncomment bs)
  | _, _, .text ht, us, bs, h => by
    rw [uncomment_text ht]
    exact h.joinText ht
  | _, _, .comment ho ht hc, us, bs, h => by
    rw [uncomment_comment ho (by decide), uncomment_comment ht (by decide), uncomment_comment hc (by decide)]
    exact h
  | _, _, .emptyComment ho hc, us, bs, h => by
    rw [uncomment_comment ho (by decide), uncomment_comment hc (by decide)]
    exact h
  | _, _, .render ho he hc, us, bs, h => by
    have hspells := SpellsBlocks.cons (.render ho he hc) h
    rw [List.cons_append, List.append_assoc] at hspells
    rwa [uncomment_kind ho (by decide), uncomment_append, he.uncomment, uncomment_kind hc (by decide)]
  | _, _, .cond ho hb hbs he, us, bs, h => by
    have hspells := SpellsBlocks.cons (.cond ho (hb.uncomment (by decide)) hbs.uncomment he) h
    rw [List.cons_append, List.append_assoc, List.append_assoc] at hspells
    rwa [uncomment_kind ho (by decide), uncomment_append, uncomment_append, he.uncomment,
      uncomment_of_startsFirm (hbs.startsFirm (he.startsFirm us)), uncomment_of_startsFirm (he.startsFirm us)]
  | _, _, .condElse ho hb hbs hp hw hc hbody he, us, bs, h => by
    have hspells := SpellsBlocks.cons
      (.condElse ho (hb.uncomment (by decide)) hbs.uncomment hp hw hc hbody.uncomment he) h
    simp only [List.cons_append, List.append_assoc] at hspells
    -- every body ends in front of a tag
    have hfirm := fun rest => StartsFirm.of_kind hp (by decide) rest
    rwa [uncomment_kind ho (by decide), uncomment_append, uncomment_append, uncomment_kind hp (by decide),
      uncomment_kind hw (by decide), uncomment_kind hc (by decide), uncomment_append, he.uncomment,
      uncomment_of_startsFirm (hbs.startsFirm (hfirm _)), uncomment_of_startsFirm (hfirm _),
      uncomment_of_startsFirm (he.startsFirm us)]
  | _, _, .switch ho hw hv hc hws hcs he, us, bs, h => by
    have hspells := SpellsBlocks.cons (.switch ho hw hv hc (isBlank_uncomment hws) hcs.uncomment he) h
    simp only [List.cons_append, List.append_assoc] at hspells
    rwa [uncomment_kind ho (by decide), uncomment_kind hw (by decide), uncomment_append, hv.uncomment,
      uncomment_kind hc (by decide), uncomment_append, uncomment_append, he.uncomment,
      uncomment_of_startsFirm (hcs.startsFirm (he.startsFirm us)), uncomment_of_startsFirm (he.startsFirm us)]

/-- **Tokens without comments spell the blocks without comments.** -/
theorem SpellsBlocks.uncomment : ∀ {ts : List Lexeme} {bs : List Block}, SpellsBlocks ts bs →
    SpellsBlocks (Lexeme.uncomment ts []) (Block.uncommentList bs)
  | _, _, .nil => .nil
  | _, _, .cons hb hbs => by
    rw [uncomment_append]
    exact hb.uncomment hbs.uncomment

theorem SpellsBranch.uncomment : ∀ {word : TokenKind} {ts : List Lexeme} {b : Expr × List Block},
    SpellsBranch word ts b → word.IsFirm → SpellsBranch word (Lexeme.uncomment ts []) (b.1, Block.uncommentList b.2)
  | _, _, _, .mk hw he hc hbody, hword => by
    rw [uncomment_kind hw hword, uncomment_append, he.uncomment, uncomment_kind hc (by decide)]
    exact .mk hw he hc hbody.uncomment

theorem SpellsElseifs.uncomment : ∀ {ts : List Lexeme} {bs : List (Expr × List Block)}, SpellsElseifs ts bs →
    SpellsElseifs (Lexeme.uncomment ts []) (Block.uncommentBranches bs)
  | _, _, .nil => .nil
  | _, _, .cons ho hb hbs => by
    rw [uncomment_kind ho (by decide), uncomment_append, uncomment_of_startsFirm (hbs.startsFirm .nil)]
    exact .cons ho (hb.uncomment (by decide)) hbs.uncomment

theorem SpellsCases.uncomment : ∀ {ts : List Lexeme} {cs : List (List Expr × List Block)}, SpellsCases ts cs →
    SpellsCases (Lexeme.uncomment ts []) (Block.uncommentCases cs)
  | _, _, .nil => .nil
  | _, _, .cons ho hw hps hc hbody hcs => by
    rw [uncomment_kind ho (by decide), uncomment_kind hw (by decide), uncomment_append, hps.uncomment,
      uncomment_kind hc (by decide), uncomment_append, uncomment_of_startsFirm (hcs.startsFirm .nil)]
    exact .cons ho hw hps hc hbody.uncomment hcs.uncomment

end

end Grammar
end Stencil
