import Stencil.Proofs.Grammar.Parse
import Stencil.Proofs.Source.Rules
/-!
# Shape — the trees that sources are read as

A tree that was read from a source is not just any tree: its names, literals, texts and comments are such as can be
written down, every condition has a branch and every case a pattern, and no operator stands below one that binds more
tightly without parentheses between them.  `Block.WellFormed` says so of a block and of all that is in it, at every
depth, and `Template.wellFormed_of_parse` that every source is read as well-formed blocks.
-/
namespace Stencil

/-! ## Well-formed trees -/

/-- A name that may be written: a letter or an underscore, then letters, digits and underscores, and not reserved. -/
def Ident.WellFormed (x : Ident) : Prop := x.name.isName = true ∧ x.name ∉ TokenKind.keywords.map Prod.fst

def Literal.WellFormed (v : Literal) : Prop :=
  match v.ty with
  | .bool => v.source = utf8 "true" ∨ v.source = utf8 "false"
  | _ => ∃ body, v.source = Byte.quote :: (body ++ [Byte.quote]) ∧ Byte.quote ∉ body ∧ Byte.newline ∉ body

namespace Expr

def isBinary : Expr → Bool
  | .binary _ _ _ => true
  | _ => false

def isPipe : Expr → Bool
  | .pipe _ _ => true
  | _ => false

end Expr

mutual

/-- An expression in which all names and literals may be written, and whose operands are such as stand there without
parentheses. -/
def Expr.WellFormed : Expr → Prop
  | .lit v _ => v.WellFormed
  | .var x => x.WellFormed
  | .not e _ => e.isBinary = false ∧ e.isPipe = false ∧ e.WellFormed
  | .binary op l r => l.Tight op.precedence ∧ r.Tight (op.precedence + 1) ∧ l.WellFormed ∧ r.WellFormed
  | .paren e _ => e.WellFormed
  | .call f args => f.WellFormed ∧ Expr.WellFormedList args
  | .pipe a f => a.isBinary = false ∧ a.WellFormed ∧ f.WellFormed

def Expr.WellFormedList : List Expr → Prop
  | [] => True
  | e :: es => e.WellFormed ∧ Expr.WellFormedList es

end

namespace Bytes

/-- Bytes that may be one text: at most the first is a newline, and no tag or comment opens among them. -/
structure IsTextBlock (c : Bytes) : Prop where
  ne_nil : c ≠ []
  newline : Byte.newline ∉ c.tail
  opener : ∀ o ∈ Lexical.openers, ¬ o <:+: c

structure IsCommentBlock (c : Bytes) : Prop where
  newline : Byte.newline ∉ c
  closer : ¬ Lexical.commentCloser <:+: c

end Bytes

/-- One block may stand directly in front of another: a text that follows a text begins with a newline. -/
def Block.MayPrecede : Block → Block → Prop
  | .text _ _, .text c _ => c.head? = some Byte.newline
  | _, _ => True

mutual

def Block.WellFormed : Block → Prop
  | .text c _ => c.IsTextBlock
  | .comment c _ => c.IsCommentBlock
  | .render e => e.WellFormed
  | .cond branches none _ => branches ≠ [] ∧ Block.WellFormedBranches branches
  | .cond branches (some body) _ =>
    branches ≠ [] ∧ Block.WellFormedBranches branches ∧ Block.WellFormedList body
  | .switch v cases _ => v.WellFormed ∧ Block.WellFormedCases cases
termination_by structural b => b

def Block.WellFormedList : List Block → Prop
  | [] => True
  | b :: bs => b.WellFormed ∧ (∀ c ∈ bs.head?, b.MayPrecede c) ∧ Block.WellFormedList bs
termination_by structural bs => bs

def Block.WellFormedBranches : List (Expr × List Block) → Prop
  | [] => True
  | (c, body) :: rest => c.WellFormed ∧ Block.WellFormedList body ∧ Block.WellFormedBranches rest
termination_by structural bs => bs

def Block.WellFormedCases : List (List Expr × List Block) → Prop
  | [] => True
  | (ps, body) :: rest =>
    ps ≠ [] ∧ Expr.WellFormedList ps ∧ Block.WellFormedList body ∧ Block.WellFormedCases rest
termination_by structural cs => cs

end

/-! ## Tokens -/

namespace Lexeme

theorem wellFormed_ident {t : Lexeme} (h : t.Spelled) (hk : t.kind = .identifier) : t.ident.WellFormed := by
  simp only [Spelled, hk] at h
  exact ⟨h.1, Lexical.keyword?_eq_none.1 h.2⟩

theorem wellFormed_string {t : Lexeme} (h : t.Spelled) (hk : t.kind = .stringLiteral) :
    (Literal.string t.body).WellFormed := by
  simp only [Spelled, hk] at h
  obtain ⟨body, hbody, hclear⟩ := h
  have heq : t.body = body := by rw [Lexeme.body, hbody, List.drop_succ_cons, List.drop_zero, List.dropLast_concat]
  exact ⟨body, by rw [heq]; rfl, Lexical.clear_endsString_iff.1 hclear⟩

theorem isTextBlock {t : Lexeme} (h : t.Spelled) (hk : t.kind = .text) : t.text.IsTextBlock := by
  simp only [Spelled, hk] at h
  have htext := Lexical.IsText.of_clear h.1 h.2.1 h.2.2 (.inl rfl)
  exact ⟨htext.ne_nil, htext.newline, htext.opener⟩

theorem isCommentBlock {t : Lexeme} (h : t.Spelled) (hk : t.kind = .comment) : t.text.IsCommentBlock := by
  simp only [Spelled, hk] at h
  have hcomment := Lexical.IsComment.of_clear h.1 h.2 (.inl rfl)
  exact ⟨hcomment.newline, hcomment.closer⟩

def TextsMeet (t u : Lexeme) : Prop := t.kind = .text → u.kind = .text → u.text.head? = some Byte.newline

/-- Tokens that are spelled as tokens of their kinds, with a newline at the front of each text that follows a text. -/
structure Written (ts : List Lexeme) : Prop where
  spelled : ∀ t ∈ ts, t.Spelled
  meet : ts.IsChain TextsMeet

namespace Written

variable {t : Lexeme} {ts us : List Lexeme}

theorem head (h : Written (t :: ts)) : t.Spelled := h.spelled t List.mem_cons_self

theorem tail (h : Written (t :: ts)) : Written ts :=
  ⟨fun u hu => h.spelled u (List.mem_cons_of_mem _ hu), h.meet.tail⟩

theorem left (h : Written (ts ++ us)) : Written ts :=
  ⟨fun u hu => h.spelled u (List.mem_append_left _ hu), (List.isChain_append.1 h.meet).1⟩

theorem right (h : Written (ts ++ us)) : Written us :=
  ⟨fun u hu => h.spelled u (List.mem_append_right _ hu), (List.isChain_append.1 h.meet).2.1⟩

end Written

/-- A text that ends where a text starts is followed by a newline: neither is long enough to hold an opener. -/
theorem textsMeet_of_endsAt {t u : Lexeme} (hu : u.Spelled) (h : t.kind = .text → Bytes.EndsAt t.text u.text) :
    TextsMeet t u := by
  intro ht hk
  simp only [Spelled, hk] at hu
  obtain ⟨hne, -, hclear⟩ := hu
  rcases h ht with hnil | hnewline | ⟨hopens, -⟩
  · exact absurd hnil hne
  · exact hnewline
  · obtain ⟨b, w, hw⟩ := List.exists_cons_of_ne_nil hne
    rw [hw] at hopens hclear
    have hnone := hclear.1
    rw [List.append_nil, hopens] at hnone
    cases hnone

theorem isChain_of_seamless {rest : Bytes} : ∀ {ts : List Lexeme}, (∀ t ∈ ts, t.Spelled) → Seamless ts rest →
    ts.IsChain TextsMeet
  | [], _, _ => .nil
  | [t], _, _ => .singleton t
  | t :: u :: ts, hs, ⟨hends, hseam⟩ => by
    obtain ⟨-, hs⟩ := List.forall_mem_cons.1 hs
    exact .cons_cons (textsMeet_of_endsAt (hs u List.mem_cons_self) hends) (isChain_of_seamless hs hseam)

theorem written_ofSource (s : Bytes) : Written (Lexeme.ofSource s) :=
  have hspelled : ∀ t ∈ Lexeme.ofSource s, t.Spelled := fun _ => spelled_of_mem
  ⟨hspelled, isChain_of_seamless hspelled (seamless_ofSource s)⟩

end Lexeme

/-! ## Trees -/

theorem Expr.isBinary_of_tight {e : Expr} (h : e.Tight Stratum.pipe.rank) : e.isBinary = false := by
  cases e with
  | binary op l r => exact absurd h (Nat.not_le.2 op.precedence_lt)
  | _ => rfl

namespace Grammar

theorem SpellsExpr.isPipe : ∀ {p : Stratum} {ts : List Lexeme} {e : Expr}, SpellsExpr p ts e →
    Stratum.unary.rank ≤ p.rank → e.isPipe = Bool.false
  | _, _, _, .pipe _ _ _, h => absurd h (by decide)
  | _, _, _, .tighter hq he, h => he.isPipe (by rw [Stratum.rank_tighter hq]; omega)
  | _, _, _, .var _, _ | _, _, _, .string _, _ | _, _, _, .true _, _ | _, _, _, .false _, _ | _, _, _, .paren .., _
  | _, _, _, .emptyCall .., _ | _, _, _, .call .., _ | _, _, _, .not .., _ | _, _, _, .binary .., _ => rfl

open Lexeme (Written)

mutual

/-- **An expression that tokens spell is well-formed**: its strata keep loose operators out of tight places. -/
theorem SpellsExpr.wellFormed : ∀ {p : Stratum} {ts : List Lexeme} {e : Expr}, SpellsExpr p ts e → Written ts →
    e.WellFormed
  | _, _, _, .var ht, h => Lexeme.wellFormed_ident h.head ht
  | _, _, _, .string ht, h => Lexeme.wellFormed_string h.head ht
  | _, _, _, .true _, _ => .inl rfl
  | _, _, _, .false _, _ => .inr rfl
  | _, _, _, .paren _ he _, h => he.wellFormed h.tail.left
  | _, _, _, .emptyCall hf _ _, h => ⟨Lexeme.wellFormed_ident h.head hf, trivial⟩
  | _, _, _, .call hf _ hes _, h => ⟨Lexeme.wellFormed_ident h.head hf, hes.wellFormed h.tail.tail.left⟩
  | _, _, _, .not _ he, h =>
    ⟨Expr.isBinary_of_tight (he.tight.mono (by decide)), he.isPipe (Nat.le_refl _), he.wellFormed h.tail⟩
  | _, _, _, .pipe he _ hf, h =>
    ⟨Expr.isBinary_of_tight he.tight, he.wellFormed h.left, Lexeme.wellFormed_ident h.right.tail.head hf⟩
  | p, _, .binary op _ _, .binary hp hq hl _ hr, h => by
    have hrank : p.rank = op.precedence := by rw [← hp, op.rank_stratum]
    have hleft := hl.tight
    have hright := hr.tight
    rw [hrank] at hleft
    rw [Stratum.rank_tighter hq, hrank] at hright
    exact ⟨hleft, hright, hl.wellFormed h.left, hr.wellFormed h.right.tail⟩
  | _, _, _, .tighter _ he, h => he.wellFormed h

theorem SpellsExprs.wellFormed : ∀ {ts : List Lexeme} {es : List Expr}, SpellsExprs ts es → Written ts →
    Expr.WellFormedList es
  | _, _, .one he, h => ⟨he.wellFormed h, trivial⟩
  | _, _, .cons he _ hes, h => ⟨he.wellFormed h.left, hes.wellFormed h.right.tail⟩

end

theorem SpellsBlocks.mayPrecede {ts us : List Lexeme} {b : Block} {bs : List Block} (hb : SpellsBlock ts b)
    (hbs : SpellsBlocks us bs) (h : Written (ts ++ us)) : ∀ c ∈ bs.head?, b.MayPrecede c := by
  intro c hc
  cases hb with
  | text ht =>
    cases hbs with
    | nil => cases hc
    | cons hd _ =>
      obtain rfl := Option.some.inj hc
      cases hd with
      | text hu =>
        have hmeet := List.isChain_cons_cons.1 h.meet
        exact hmeet.1 ht hu
      | _ => trivial
  | _ => trivial

mutual

theorem SpellsBlock.wellFormed : ∀ {ts : List Lexeme} {b : Block}, SpellsBlock ts b → Written ts → b.WellFormed
  | _, _, .text ht, h => Lexeme.isTextBlock h.head ht
  | _, _, .comment _ ht _, h => Lexeme.isCommentBlock h.tail.head ht
  | _, _, .emptyComment _ _, _ => ⟨List.not_mem_nil, by decide⟩
  | _, _, .render _ he _, h => he.wellFormed h.tail.left
  | _, _, .cond (b := (_, _)) _ hb hbs _, h =>
    have hfirst := hb.wellFormed h.tail.left
    ⟨List.cons_ne_nil _ _, hfirst.1, hfirst.2, hbs.wellFormed h.tail.right.left⟩
  | _, _, .condElse (b := (_, _)) _ hb hbs _ _ _ hbody _, h =>
    have hfirst := hb.wellFormed h.tail.left
    ⟨List.cons_ne_nil _ _, ⟨hfirst.1, hfirst.2, hbs.wellFormed h.tail.right.left⟩,
      hbody.wellFormed h.tail.right.right.tail.tail.tail.left⟩
  | _, _, .switch _ _ hv _ _ hcs _, h =>
    ⟨hv.wellFormed h.tail.tail.left, hcs.wellFormed h.tail.tail.right.tail.right.left⟩

/-- **Blocks that tokens spell are well-formed**, each in itself and next to the one before it. -/
theorem SpellsBlocks.wellFormed : ∀ {ts : List Lexeme} {bs : List Block}, SpellsBlocks ts bs → Written ts →
    Block.WellFormedList bs
  | _, _, .nil, _ => trivial
  | _, _, .cons hb hbs, h => ⟨hb.wellFormed h.left, hbs.mayPrecede hb h, hbs.wellFormed h.right⟩

theorem SpellsBranch.wellFormed : ∀ {word : TokenKind} {ts : List Lexeme} {b : Expr × List Block},
    SpellsBranch word ts b → Written ts → b.1.WellFormed ∧ Block.WellFormedList b.2
  | _, _, _, .mk _ he _ hbody, h => ⟨he.wellFormed h.tail.left, hbody.wellFormed h.tail.right.tail⟩

theorem SpellsElseifs.wellFormed : ∀ {ts : List Lexeme} {bs : List (Expr × List Block)}, SpellsElseifs ts bs →
    Written ts → Block.WellFormedBranches bs
  | _, _, .nil, _ => trivial
  | _, _, .cons (b := (_, _)) _ hb hbs, h =>
    have hfirst := hb.wellFormed h.tail.left
    ⟨hfirst.1, hfirst.2, hbs.wellFormed h.tail.right⟩

theorem SpellsCases.wellFormed : ∀ {ts : List Lexeme} {cs : List (List Expr × List Block)}, SpellsCases ts cs →
    Written ts → Block.WellFormedCases cs
  | _, _, .nil, _ => trivial
  | _, _, .cons _ _ hps _ hbody hcs, h =>
    ⟨hps.ne_nil, hps.wellFormed h.tail.tail.left, hbody.wellFormed h.tail.tail.right.tail.left,
      hcs.wellFormed h.tail.tail.right.tail.right⟩

end

end Grammar

namespace Template

/-- **Every source is read as a well-formed tree**, at every depth, and constructs nest at most 128 deep in it. -/
theorem wellFormed_of_parse {s : Bytes} {t : Template} (h : parse s = .ok t) :
    Block.WellFormedList t ∧ t.nesting ≤ 128 := by
  obtain ⟨hspells, hdepth⟩ := parse_eq_ok.1 h
  exact ⟨hspells.wellFormed (Lexeme.written_ofSource s), hdepth⟩

/-- Texts in a row, an empty comment, operators of all strengths, and statements in one another. -/
def thicket : Bytes := utf8 "a\n\x7b\x7d\x7b##\x7d\x7b%if !(x or y)|f == \"s\" ~ g()%\x7d\n\n\x7b%elseif true%\x7d" ++
  utf8 "\x7b%switch v%\x7d \x7b%case p, q and h(!r)%\x7d\x7b# c #\x7d\x7b%end%\x7d\x7b%else%\x7d\x7b%end%\x7d"

theorem wellFormed_of_parse_at_thicket : ∃ t, parse thicket = .ok t ∧ t.nesting = 4 ∧ 4 ≤ 128 ∧
    Block.WellFormedList t := by
  obtain ⟨t, h, hnesting⟩ := exists_of_map_eq_ok (s := thicket) (f := nesting) (a := 4) (by cbv)
  obtain ⟨hwell, hle⟩ := wellFormed_of_parse h
  exact ⟨t, h, hnesting, hnesting ▸ hle, hwell⟩

end Template
end Stencil
