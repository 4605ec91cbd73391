import Stencil.Proofs.Grammar.Parse
import Stencil.Proofs.Source.Lossless
import Stencil.Proofs.Utf8
/-!
# Text — templates in well-formed sources

Every token of a template ends in front of an ASCII byte or consists of ASCII bytes, so scanning cuts a well-formed
source between characters only (`Mode.text_of_scan`).  The texts and strings of a template are well-formed with its
source (`Template.isText_of_parse`).
-/
namespace Stencil

open Byte (IsAscii)
open Utf8 (Text)

/-! ## Tokens -/

theorem TokenKind.isAscii_of_spelling? {k : TokenKind} {w : Bytes} (h : k.spelling? = some w) :
    ∀ b ∈ w, IsAscii b := by
  have hall : w.all (fun b => decide (IsAscii b)) = Bool.true := by cases k <;> cases h <;> decide_cbv
  exact fun b hb => of_decide_eq_true (List.all_eq_true.1 hall b hb)

namespace Lexeme

theorem isAscii_of_spelled {t : Lexeme} (h : t.Spelled) (htext : t.kind ≠ .text) (hcomment : t.kind ≠ .comment)
    (hstring : t.kind ≠ .stringLiteral) (herror : t.kind ≠ .error) : ∀ b ∈ t.text, IsAscii b := by
  obtain ⟨k, w, p⟩ := t
  cases k with
  | text => exact absurd rfl htext
  | comment => exact absurd rfl hcomment
  | stringLiteral => exact absurd rfl hstring
  | error => exact absurd rfl herror
  | eof => exact h.elim
  | identifier =>
    have hname : w.isName = true := h.1
    cases w with
    | nil => cases hname
    | cons b w =>
      rw [Bytes.isName, Bool.and_eq_true, List.all_eq_true] at hname
      intro c hc
      rcases List.mem_cons.1 hc with rfl | hc
      · exact Byte.isAscii_of_isNamePart (by rw [Byte.isNamePart, hname.1, Bool.true_or])
      · exact Byte.isAscii_of_isNamePart (hname.2 c hc)
  | _ => exact TokenKind.isAscii_of_spelling? h

theorem body_of_text {t : Lexeme} {body : Bytes} (h : t.text = Byte.quote :: (body ++ [Byte.quote])) :
    t.body = body := by
  rw [Lexeme.body, h, List.drop_succ_cons, List.drop_zero, List.dropLast_concat]

end Lexeme

namespace Mode

theorem isAscii_of_endsText {s : Bytes} (h : s = [] ∨ endsText s = true) : ∀ b ∈ s.head?, IsAscii b := by
  intro b hb
  cases s with
  | nil => cases hb
  | cons c s =>
    obtain rfl := Option.some.inj hb
    have hend := h.resolve_left (List.cons_ne_nil _ _)
    rw [endsText, List.head?_cons, Bool.or_eq_true, beq_iff_eq, Option.some.injEq] at hend
    rcases hend with rfl | hopens
    · decide
    · unfold opensTag at hopens
      split at hopens
      · rename_i heq
        cases heq
        decide
      · rename_i heq
        cases heq
        decide
      · rename_i heq
        cases heq
        decide
      · cases hopens

theorem isAscii_of_endsComment {s : Bytes} (h : s = [] ∨ endsComment s = true) : ∀ b ∈ s.head?, IsAscii b := by
  intro b hb
  rcases h with rfl | h
  · cases hb
  · unfold endsComment at h
    split at h
    · obtain rfl := Option.some.inj hb
      decide
    · obtain rfl := Option.some.inj hb
      decide
    · cases h

/-- Behind a text or a comment comes an ASCII byte, if anything. -/
theorem isAscii_head?_rest {m : Mode} {s : Bytes} {p : Piece} (h : m.scan s = some p)
    (hk : p.kind = .text ∨ p.kind = .comment) : ∀ b ∈ p.rest.head?, IsAscii b := by
  have hmode := (mode_scan h (by rcases hk with hk | hk <;> rw [hk] <;> exact TokenKind.noConfusion)).1
  cases m with
  | outside =>
    replace h : scanOutside s = some p := h
    unfold scanOutside at h
    split at h <;> cases h
    · rcases hk with hk | hk <;> cases hk
    · rcases hk with hk | hk <;> cases hk
    · rcases hk with hk | hk <;> cases hk
    · exact isAscii_of_endsText (Bytes.stop_cutAt endsText _)
  | tag => rcases hk with hk | hk <;> rw [hk] at hmode <;> cases hmode
  | comment =>
    replace h : scanComment s = some p := h
    unfold scanComment at h
    split at h <;> cases h
    · rcases hk with hk | hk <;> cases hk
    · rcases hk with hk | hk <;> cases hk
    · exact isAscii_of_endsComment (Bytes.stop_cutAt endsComment _)

/-- **A token is cut off between characters.** -/
theorem text_of_scan {m : Mode} {s : Bytes} {p : Piece} (h : m.scan s = some p) (hp : p.kind ≠ .error)
    (hs : Text s) : Text p.text ∧ Text p.rest := by
  have hsplit := (text_append_rest h).2
  have hspelled := spelled_scan h
  rw [← hsplit] at hs
  by_cases hk : p.kind = .text ∨ p.kind = .comment
  · exact hs.split (isAscii_head?_rest h hk)
  · rw [not_or] at hk
    by_cases hstring : p.kind = .stringLiteral
    · obtain ⟨body, hbody, -⟩ : ∃ body, p.text = Byte.quote :: (body ++ [Byte.quote]) ∧ Bytes.Clear endsString body [] := by
        simpa only [Lexeme.Spelled, hstring] using hspelled
      have hquote : IsAscii Byte.quote := by decide
      have hcut : p.text ++ p.rest = (Byte.quote :: body) ++ (Byte.quote :: p.rest) := by
        rw [hbody, List.cons_append, List.append_assoc]
        rfl
      rw [hcut] at hs
      obtain ⟨hfront, hback⟩ := hs.split fun b hb => Option.some.inj hb ▸ hquote
      refine ⟨?_, hback.tail hquote⟩
      rw [hbody, ← List.cons_append]
      exact hfront.append (.ascii fun b hb => List.mem_singleton.1 hb ▸ hquote)
    · have hascii := Lexeme.isAscii_of_spelled hspelled hk.1 hk.2 hstring hp
      exact ⟨.ascii hascii, hs.dropAscii hascii⟩

theorem text_skip {m : Mode} {s : Bytes} (hs : Text s) : Text (m.skip s) := by
  rw [← gap_append_skip m s] at hs
  exact hs.dropAscii fun b hb => Byte.isAscii_of_isBlank (of_mem_gap hb).2

end Mode

theorem Lexer.text_of_mem_tokens : ∀ (m : Mode) (offset : Nat) (s : Bytes), Text s →
    (∀ t ∈ (Lexer.mk m offset s).tokens, t.kind ≠ .error) → ∀ t ∈ (Lexer.mk m offset s).tokens, Text t.text := by
  refine tokens_induction (motive := fun _ _ s ts => Text s → (∀ t ∈ ts, t.kind ≠ .error) → ∀ t ∈ ts, Text t.text)
    (fun _ _ _ _ _ _ _ ht => nomatch ht) ?_
  intro m offset s p h ih hs hproper
  obtain ⟨htext, hrest⟩ := Mode.text_of_scan h (hproper _ List.mem_cons_self) (Mode.text_skip hs)
  intro t ht
  rcases List.mem_cons.1 ht with rfl | ht
  · exact htext
  · exact ih hrest (fun u hu => hproper u (List.mem_cons_of_mem _ hu)) t ht

/-- What a token says is well-formed: a text, and what stands between the quotes of a string. -/
def Lexeme.IsText (t : Lexeme) : Prop := (t.kind = .text → Text t.text) ∧ (t.kind = .stringLiteral → Text t.body)

/-- **The tokens of a well-formed source are well-formed**, if none of them is an error. -/
theorem Lexeme.isText_of_mem {s : Bytes} (hs : Text s) (hproper : ∀ t ∈ Lexeme.ofSource s, t.kind ≠ .error) :
    ∀ t ∈ Lexeme.ofSource s, t.IsText := by
  intro t ht
  have hspelled := Lexeme.spelled_of_mem ht
  obtain ⟨x, hx, rfl⟩ := List.mem_map.1 ht
  have htext := Lexer.text_of_mem_tokens .outside 0 s hs (fun y hy => hproper _ (List.mem_map_of_mem hy)) x hx
  refine ⟨fun _ => htext, fun hk => ?_⟩
  obtain ⟨body, hbody, -⟩ : ∃ body, ((LineIndex.ofSource s).lexeme x).text = Byte.quote :: (body ++ [Byte.quote]) ∧
      Bytes.Clear Mode.endsString body [] := by
    simpa only [Lexeme.Spelled, hk] using hspelled
  rw [Lexeme.body_of_text hbody]
  rw [show x.text = _ from hbody] at htext
  have hquote : IsAscii Byte.quote := by decide
  exact ((htext.tail hquote).split fun b hb => Option.some.inj hb ▸ hquote).1

/-! ## Trees -/

mutual

def Expr.IsText : Expr → Prop
  | .lit (.string body) _ => Text body
  | .lit (.bool _) _ => True
  | .var _ => True
  | .not e _ => e.IsText
  | .binary _ l r => l.IsText ∧ r.IsText
  | .paren e _ => e.IsText
  | .call _ args => Expr.IsTextList args
  | .pipe a _ => a.IsText

def Expr.IsTextList : List Expr → Prop
  | [] => True
  | e :: es => e.IsText ∧ Expr.IsTextList es

end

mutual

/-- The texts in a block and the strings in its expressions are well-formed; a switch writes nothing, and neither does a
comment. -/
def Block.IsText : Block → Prop
  | .text c _ => Text c
  | .comment _ _ => True
  | .render e => e.IsText
  | .cond branches none _ => Block.IsTextBranches branches
  | .cond branches (some body) _ => Block.IsTextBranches branches ∧ Block.IsTextList body
  | .switch _ _ _ => True
termination_by structural b => b

def Block.IsTextList : List Block → Prop
  | [] => True
  | b :: bs => b.IsText ∧ Block.IsTextList bs
termination_by structural bs => bs

def Block.IsTextBranches : List (Expr × List Block) → Prop
  | [] => True
  | (c, body) :: bs => c.IsText ∧ Block.IsTextList body ∧ Block.IsTextBranches bs
termination_by structural bs => bs

end

namespace Grammar

mutual

theorem SpellsExpr.isText : ∀ {p : Stratum} {ts : List Lexeme} {e : Expr}, SpellsExpr p ts e →
    (∀ t ∈ ts, t.IsText) → e.IsText
  | _, _, _, .var _, _ => trivial
  | _, _, _, .string ht, h => (h _ List.mem_cons_self).2 ht
  | _, _, _, .true _, _ => trivial
  | _, _, _, .false _, _ => trivial
  | _, _, _, .paren _ he _, h => by
    simp only [List.forall_mem_cons, List.forall_mem_append] at h
    exact he.isText h.2.1
  | _, _, _, .emptyCall _ _ _, _ => trivial
  | _, _, _, .call _ _ hes _, h => by
    simp only [List.forall_mem_cons, List.forall_mem_append] at h
    exact hes.isText h.2.2.1
  | _, _, _, .not _ he, h => he.isText (List.forall_mem_cons.1 h).2
  | _, _, _, .pipe he _ _, h => he.isText (List.forall_mem_append.1 h).1
  | _, _, _, .binary _ _ hl _ hr, h => by
    simp only [List.forall_mem_cons, List.forall_mem_append] at h
    exact ⟨hl.isText h.1, hr.isText h.2.2⟩
  | _, _, _, .tighter _ he, h => he.isText h

theorem SpellsExprs.isText : ∀ {ts : List Lexeme} {es : List Expr}, SpellsExprs ts es → (∀ t ∈ ts, t.IsText) →
    Expr.IsTextList es
  | _, _, .one he, h => ⟨he.isText h, trivial⟩
  | _, _, .cons he _ hes, h => by
    simp only [List.forall_mem_cons, List.forall_mem_append] at h
    exact ⟨he.isText h.1, hes.isText h.2.2⟩

end

mutual

theorem SpellsBlock.isText : ∀ {ts : List Lexeme} {b : Block}, SpellsBlock ts b → (∀ t ∈ ts, t.IsText) → b.IsText
  | _, _, .text ht, h => (h _ List.mem_cons_self).1 ht
  | _, _, .comment _ _ _, _ => trivial
  | _, _, .emptyComment _ _, _ => trivial
  | _, _, .render _ he _, h => by
    simp only [List.forall_mem_cons, List.forall_mem_append] at h
    exact he.isText h.2.1
  | _, _, @SpellsBlock.cond o ts us vs (c, body) bs _ hb hbs _, h => by
    simp only [List.forall_mem_cons, List.forall_mem_append] at h
    obtain ⟨hc, hbody⟩ := hb.isText h.2.1
    exact ⟨hc, hbody, hbs.isText h.2.2.1⟩
  | _, _, @SpellsBlock.condElse o p w c ts us vs xs (d, body') bs body _ hb hbs _ _ _ hbody _, h => by
    simp only [List.forall_mem_cons, List.forall_mem_append] at h
    obtain ⟨hd, hbody'⟩ := hb.isText h.2.1
    exact ⟨⟨hd, hbody', hbs.isText h.2.2.1⟩, hbody.isText h.2.2.2.2.2.2.1⟩
  | _, _, .switch _ _ _ _ _ _ _, _ => trivial

theorem SpellsBlocks.isText : ∀ {ts : List Lexeme} {bs : List Block}, SpellsBlocks ts bs → (∀ t ∈ ts, t.IsText) →
    Block.IsTextList bs
  | _, _, .nil, _ => trivial
  | _, _, .cons hb hbs, h => by
    obtain ⟨hts, hus⟩ := List.forall_mem_append.1 h
    exact ⟨hb.isText hts, hbs.isText hus⟩

theorem SpellsBranch.isText : ∀ {word : TokenKind} {ts : List Lexeme} {b : Expr × List Block}, SpellsBranch word ts b →
    (∀ t ∈ ts, t.IsText) → b.1.IsText ∧ Block.IsTextList b.2
  | _, _, _, .mk _ he _ hbody, h => by
    simp only [List.forall_mem_cons, List.forall_mem_append] at h
    exact ⟨he.isText h.2.1, hbody.isText h.2.2.2⟩

theorem SpellsElseifs.isText : ∀ {ts : List Lexeme} {bs : List (Expr × List Block)}, SpellsElseifs ts bs →
    (∀ t ∈ ts, t.IsText) → Block.IsTextBranches bs
  | _, _, .nil, _ => trivial
  | _, _, @SpellsElseifs.cons o ts us (c, body) bs _ hb hbs, h => by
    simp only [List.forall_mem_cons, List.forall_mem_append] at h
    obtain ⟨hc, hbody⟩ := hb.isText h.2.1
    exact ⟨hc, hbody, hbs.isText h.2.2⟩

end

end Grammar

/-- **The texts and strings of a template are well-formed with its source.** -/
theorem Template.isText_of_parse {s : Bytes} {t : Template} (hs : Text s) (h : parse s = .ok t) :
    Block.IsTextList t := by
  obtain ⟨hspells, -⟩ := parse_eq_ok.1 h
  exact hspells.isText (Lexeme.isText_of_mem hs fun x hx => (Grammar.kind_ne_of_proper hspells.proper hx).2)

end Stencil
