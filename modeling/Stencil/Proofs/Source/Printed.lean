import Stencil.Proofs.Source.Blanks
import Stencil.Template.Printer
/-!
# Printed — the words of a printed template

Scanning what is printed for a tree finds the tokens that spelled the tree, but for the white space in front of the
first case of a switch, which the tree does not keep (`Keeps`).  Inside a tag, an expression may be followed by anything that
ends a word (`SpellsExpr.words`); outside, a text block must end where the next block starts, which is what `Seamless`
says of the tokens (`SpellsBlocks.words`).
-/
namespace Stencil

namespace Lexeme

theorem Spelled.text_eq {t : Lexeme} {k : TokenKind} {w : Bytes} (ht : t.Spelled) (hk : t.kind = k)
    (hw : k.spelling? = some w) : t.text = w := by
  subst hk
  rw [Spelled] at ht
  split at ht
  all_goals
    rename_i hk
    first
    | (rw [hk] at hw; cases hw)
    | exact Option.some.inj (ht.symm.trans hw)

end Lexeme

namespace Mode

theorem words_kind {t : Lexeme} {k : TokenKind} {rest : Bytes} (ht : t.Spelled) (hk : t.kind = k)
    (hr : Lexeme.StopsAt ⟨k, t.text, .zero⟩ rest) : k.before.words (t.text ++ rest) = t.erase :: k.after.words rest := by
  subst hk
  exact words_append ht hr

theorem words_fixed {t : Lexeme} {k : TokenKind} {w rest : Bytes} (ht : t.Spelled) (hk : t.kind = k)
    (hw : k.spelling? = some w) (hr : Lexeme.StopsAt ⟨k, w, .zero⟩ rest) :
    k.before.words (w ++ rest) = t.erase :: k.after.words rest := by
  have htext := ht.text_eq hk hw
  subst htext
  exact words_kind ht hk hr

end Mode

namespace Grammar

/-! ## Expressions -/

/-- What an expression starts with: no byte that would make `!` in front of it another operator. -/
def StartsOperand (s : Bytes) : Prop := ∃ b r, s = b :: r ∧ b ≠ Byte.equals

theorem StartsOperand.append {s : Bytes} : StartsOperand s → ∀ rest, StartsOperand (s ++ rest)
  | ⟨b, r, hs, hb⟩, rest => ⟨b, r ++ rest, by rw [hs, List.cons_append], hb⟩

theorem startsOperand_name {s : Bytes} (h : s.isName = true) : StartsOperand s := by
  cases s with
  | nil => cases h
  | cons b r =>
    refine ⟨b, r, rfl, ?_⟩
    rintro rfl
    cases h

theorem startsOperand_text {t : Lexeme} (hs : t.Spelled) (ht : t.kind = .identifier) : StartsOperand t.text := by
  rw [Lexeme.Spelled, ht] at hs
  exact startsOperand_name hs.1

theorem startsOperand_cons {b : UInt8} {r : Bytes} (hb : (b != Byte.equals) = true) : StartsOperand (b :: r) :=
  ⟨b, r, rfl, bne_iff_ne.1 hb⟩

theorem startsOperand_print : ∀ {p : Stratum} {ts : List Lexeme} {e : Expr}, SpellsExpr p ts e →
    (∀ t ∈ ts, t.Spelled) → StartsOperand e.print
  | _, _, _, .var ht, hs => startsOperand_text (hs _ List.mem_cons_self) ht
  | _, _, _, .string _, _ => startsOperand_cons rfl
  | _, _, _, .true _, _ => startsOperand_cons rfl
  | _, _, _, .false _, _ => startsOperand_cons rfl
  | _, _, _, .paren .., _ => startsOperand_cons rfl
  | _, _, _, .emptyCall hf _ _, hs => (startsOperand_text (hs _ List.mem_cons_self) hf).append _
  | _, _, _, .call hf _ _ _, hs => (startsOperand_text (hs _ List.mem_cons_self) hf).append _
  | _, _, _, .not .., _ => startsOperand_cons rfl
  | _, _, _, .pipe he _ _, hs => (startsOperand_print he fun t ht => hs t (List.mem_append_left _ ht)).append _
  | _, _, _, .binary _ _ hl _ _, hs => (startsOperand_print hl fun t ht => hs t (List.mem_append_left _ ht)).append _
  | _, _, _, .tighter _ he, hs => startsOperand_print he hs

theorem words_lparen {t : Lexeme} (ht : t.Spelled) (hk : t.kind = .lParen) (rest : Bytes) :
    Mode.tag.words (Byte.lparen :: rest) = t.erase :: Mode.tag.words rest := Mode.words_fixed ht hk rfl trivial

theorem words_rparen {t : Lexeme} (ht : t.Spelled) (hk : t.kind = .rParen) (rest : Bytes) :
    Mode.tag.words (Byte.rparen :: rest) = t.erase :: Mode.tag.words rest := Mode.words_fixed ht hk rfl trivial

theorem words_bar {t : Lexeme} (ht : t.Spelled) (hk : t.kind = .pipe) (rest : Bytes) :
    Mode.tag.words (Byte.bar :: rest) = t.erase :: Mode.tag.words rest := Mode.words_fixed ht hk rfl trivial

theorem words_comma {t : Lexeme} (ht : t.Spelled) (hk : t.kind = .comma) (rest : Bytes) :
    Mode.tag.words (Byte.comma :: rest) = t.erase :: Mode.tag.words rest := Mode.words_fixed ht hk rfl trivial

theorem words_name {t : Lexeme} {rest : Bytes} (ht : t.Spelled) (hk : t.kind = .identifier)
    (hr : Mode.endsWord rest = true) : Mode.tag.words (t.text ++ rest) = t.erase :: Mode.tag.words rest :=
  Mode.words_kind ht hk hr

theorem words_operator {o : Lexeme} {op : BinOp} (hs : o.Spelled) (ho : o.kind.binOp? = some op) (rest : Bytes) :
    Mode.tag.words (utf8 op.symbol ++ Byte.space :: rest) = o.erase :: Mode.tag.words rest := by
  rw [← Mode.words_space rest]
  cases hk : o.kind <;> rw [hk] at ho <;> cases ho
  · exact Mode.words_fixed hs hk rfl trivial
  · exact Mode.words_fixed hs hk rfl trivial
  · exact Mode.words_fixed hs hk rfl trivial
  · exact Mode.words_fixed hs hk rfl rfl
  · exact Mode.words_fixed hs hk rfl rfl

theorem printList_cons {e : Expr} : ∀ {es : List Expr}, es ≠ [] →
    Expr.printList (e :: es) = e.print ++ (utf8 ", " ++ Expr.printList es)
  | [], h => absurd rfl h
  | _ :: _, _ => rfl

mutual

/-- **Scanning a printed expression finds its tokens.** -/
theorem SpellsExpr.words : ∀ {p : Stratum} {ts : List Lexeme} {e : Expr}, SpellsExpr p ts e → (∀ t ∈ ts, t.Spelled) →
    ∀ {rest : Bytes}, Mode.endsWord rest = true →
      Mode.tag.words (e.print ++ rest) = ts.map Lexeme.erase ++ Mode.tag.words rest
  | _, _, _, @SpellsExpr.var t ht, hs, rest, hr => words_name (hs t List.mem_cons_self) ht hr
  | _, _, _, @SpellsExpr.string t ht, hs, rest, hr => by
    have h := hs t List.mem_cons_self
    have hw := h
    rw [Lexeme.Spelled, ht] at hw
    obtain ⟨body, htext, -⟩ := hw
    have hp : (Expr.lit (.string t.body) t.pos).print = t.text := by
      simp [Expr.print, Literal.source, Lexeme.body, htext]
    rw [hp]
    exact Mode.words_kind h ht trivial
  | _, _, _, @SpellsExpr.true t ht, hs, rest, hr => Mode.words_fixed (hs t List.mem_cons_self) ht rfl hr
  | _, _, _, @SpellsExpr.false t ht, hs, rest, hr => Mode.words_fixed (hs t List.mem_cons_self) ht rfl hr
  | _, _, _, @SpellsExpr.paren o c ts e ho he hc, hs, rest, hr => by
    rw [List.forall_mem_cons, List.forall_mem_append, List.forall_mem_singleton] at hs
    obtain ⟨hso, hse, hsc⟩ := hs
    simp only [Expr.print, List.cons_append, List.append_assoc, List.nil_append]
    rw [words_lparen hso ho, he.words hse rfl, words_rparen hsc hc, List.map_cons, List.map_append, List.cons_append,
      List.append_assoc]
    rfl
  | _, _, _, @SpellsExpr.emptyCall f o c hf ho hc, hs, rest, hr => by
    rw [List.forall_mem_cons, List.forall_mem_cons, List.forall_mem_singleton] at hs
    obtain ⟨hsf, hso, hsc⟩ := hs
    simp only [Expr.print, Expr.printList, Lexeme.ident, List.cons_append, List.append_assoc, List.nil_append]
    rw [words_name hsf hf rfl, words_lparen hso ho, words_rparen hsc hc]
    rfl
  | _, _, _, @SpellsExpr.call f o c ts es hf ho hes hc, hs, rest, hr => by
    rw [List.forall_mem_cons, List.forall_mem_cons, List.forall_mem_append, List.forall_mem_singleton] at hs
    obtain ⟨hsf, hso, hse, hsc⟩ := hs
    simp only [Expr.print, Lexeme.ident, List.cons_append, List.append_assoc, List.nil_append]
    rw [words_name hsf hf rfl, words_lparen hso ho, hes.words hse rfl, words_rparen hsc hc]
    simp
  | _, _, _, @SpellsExpr.not t ts e ht he, hs, rest, hr => by
    rw [List.forall_mem_cons] at hs
    obtain ⟨b, r, hb, hne⟩ := (startsOperand_print he hs.2).append rest
    have hbang : Mode.tag.words (Byte.bang :: (e.print ++ rest)) = t.erase :: Mode.tag.words (e.print ++ rest) := by
      refine Mode.words_fixed hs.1 ht rfl ?_
      show (e.print ++ rest).head? ≠ some Byte.equals
      rw [hb]
      exact fun h => hne (Option.some.inj h)
    rw [Expr.print, List.cons_append, hbang, he.words hs.2 hr]
    rfl
  | _, _, _, @SpellsExpr.pipe b f ts e he hb hf, hs, rest, hr => by
    rw [List.forall_mem_append, List.forall_mem_cons, List.forall_mem_singleton] at hs
    obtain ⟨hse, hsb, hsf⟩ := hs
    have hsep : utf8 " | " = [Byte.space, Byte.bar, Byte.space] := rfl
    simp only [Expr.print, Lexeme.ident, hsep, List.cons_append, List.append_assoc, List.nil_append]
    rw [he.words hse rfl, Mode.words_space, words_bar hsb hb, Mode.words_space, words_name hsf hf hr]
    simp
  | _, _, _, @SpellsExpr.binary p q o op ts us l r hp hq hl ho hr', hs, rest, hr => by
    rw [List.forall_mem_append, List.forall_mem_cons] at hs
    obtain ⟨hsl, hso, hsr⟩ := hs
    simp only [Expr.print, List.cons_append, List.append_assoc]
    rw [hl.words hsl rfl, Mode.words_space, words_operator hso ho, hr'.words hsr hr, List.map_append, List.map_cons,
      List.append_assoc]
    rfl
  | _, _, _, .tighter _ he, hs, rest, hr => he.words hs hr

theorem SpellsExprs.words : ∀ {ts : List Lexeme} {es : List Expr}, SpellsExprs ts es → (∀ t ∈ ts, t.Spelled) →
    ∀ {rest : Bytes}, Mode.endsWord rest = true →
      Mode.tag.words (Expr.printList es ++ rest) = ts.map Lexeme.erase ++ Mode.tag.words rest
  | _, _, .one he, hs, rest, hr => he.words hs hr
  | _, _, @SpellsExprs.cons c ts us e es he hc hes, hs, rest, hr => by
    rw [List.forall_mem_append, List.forall_mem_cons] at hs
    obtain ⟨hse, hsc, hses⟩ := hs
    have hsep : utf8 ", " = [Byte.comma, Byte.space] := rfl
    rw [printList_cons hes.ne_nil, hsep]
    simp only [List.cons_append, List.append_assoc, List.nil_append]
    rw [he.words hse rfl, words_comma hsc hc, Mode.words_space, hes.words hses hr, List.map_append, List.map_cons,
      List.append_assoc]
    rfl

end

/-! ## Tags -/

abbrev tagOpener : Bytes := [Byte.lbrace, Byte.percent]

theorem words_openTag {o : Lexeme} (ho : o.Spelled) (hk : o.kind = .lBracePercent) (rest : Bytes) :
    Mode.outside.words (utf8 "\x7b% " ++ rest) = o.erase :: Mode.tag.words rest := by
  have h : Mode.outside.words (tagOpener ++ Byte.space :: rest) = o.erase :: Mode.tag.words (Byte.space :: rest) :=
    Mode.words_fixed ho hk rfl trivial
  rw [Mode.words_space] at h
  exact h

theorem words_closeTag {c : Lexeme} (hc : c.Spelled) (hk : c.kind = .rBracePercent) (rest : Bytes) :
    Mode.tag.words (utf8 " %\x7d" ++ rest) = c.erase :: Mode.outside.words rest := by
  have h : Mode.tag.words (Byte.percent :: Byte.rbrace :: rest) = c.erase :: Mode.outside.words rest :=
    Mode.words_fixed hc hk rfl trivial
  rw [← Mode.words_space] at h
  exact h

theorem words_keyword {w : Lexeme} {k : TokenKind} {word : String} (hw : w.Spelled) (hk : w.kind = k)
    (hword : (utf8 word, k) ∈ TokenKind.keywords) (rest : Bytes) :
    Mode.tag.words (utf8 word ++ Byte.space :: rest) = w.erase :: Mode.tag.words rest := by
  have hspell : k.spelling? = some (utf8 word) := by
    simp only [TokenKind.keywords, List.mem_cons, Prod.mk.injEq, List.not_mem_nil, or_false] at hword
    rcases hword with h | h | h | h | h | h | h | h | h | h <;> rw [h.2, h.1] <;> rfl
  have hmode := Mode.mode_keyword _ hword
  have hstop : Lexeme.StopsAt ⟨k, utf8 word, .zero⟩ (Byte.space :: rest) := by
    simp only [TokenKind.keywords, List.mem_cons, Prod.mk.injEq, List.not_mem_nil, or_false] at hword
    rcases hword with h | h | h | h | h | h | h | h | h | h <;> rw [h.2] <;> rfl
  have h := Mode.words_fixed hw hk hspell hstop
  rw [hmode.1, hmode.2, Mode.words_space] at h
  exact h

theorem words_wordTag {o w c : Lexeme} {k : TokenKind} {word : String} (hs : o.Spelled ∧ w.Spelled ∧ c.Spelled)
    (ho : o.kind = .lBracePercent) (hw : w.kind = k) (hc : c.kind = .rBracePercent)
    (hword : (utf8 word, k) ∈ TokenKind.keywords) (rest : Bytes) :
    Mode.outside.words (utf8 "\x7b% " ++ (utf8 word ++ (utf8 " %\x7d" ++ rest))) =
      o.erase :: w.erase :: c.erase :: Mode.outside.words rest := by
  have hclose := words_closeTag hs.2.2 hc rest
  have hspace : utf8 " %\x7d" ++ rest = Byte.space :: (Byte.percent :: Byte.rbrace :: rest) := rfl
  rw [hspace, Mode.words_space] at hclose
  rw [words_openTag hs.1 ho, hspace, words_keyword hs.2.1 hw hword, hclose]

theorem SpellsEnd.words {vs : List Lexeme} (h : SpellsEnd vs) (hs : ∀ t ∈ vs, t.Spelled) (rest : Bytes) :
    Mode.outside.words (utf8 "\x7b% end %\x7d" ++ rest) = vs.map Lexeme.erase ++ Mode.outside.words rest := by
  cases h with
  | @mk o w c ho hw hc =>
    rw [List.forall_mem_cons, List.forall_mem_cons, List.forall_mem_singleton] at hs
    have hword : (utf8 "end", .end) ∈ TokenKind.keywords := by decide
    exact words_wordTag hs ho hw hc hword rest

/-! ## Blocks -/

def StartsTag (s : Bytes) : Prop := ∃ r, s = Byte.lbrace :: Byte.percent :: r

theorem startsTag_end (rest : Bytes) : StartsTag (utf8 "\x7b% end %\x7d" ++ rest) := ⟨_, rfl⟩

theorem startsTag_else (rest : Bytes) : StartsTag (utf8 "\x7b% else %\x7d" ++ rest) := ⟨_, rfl⟩

theorem startsTag_printBranches {word : String} {rest : Bytes} (h : StartsTag rest) (bs : List (Expr × List Block)) :
    StartsTag (Block.printBranches word bs ++ rest) := by
  cases bs with
  | nil => exact h
  | cons b bs => exact ⟨_, rfl⟩

theorem startsTag_printCases {rest : Bytes} (h : StartsTag rest) (cs : List (List Expr × List Block)) :
    StartsTag (Block.printCases cs ++ rest) := by
  cases cs with
  | nil => exact h
  | cons c cs => exact ⟨_, rfl⟩

theorem front_append {us : List Lexeme} {rest : Bytes} : ∀ ts : List Lexeme,
    front (ts ++ us) rest = front ts (front us rest)
  | [] => rfl
  | _ :: _ => rfl

theorem front_end {vs : List Lexeme} {rest : Bytes} (h : SpellsEnd vs) (hs : ∀ t ∈ vs, t.Spelled) :
    front vs rest = tagOpener := by
  cases h with
  | mk ho => exact (hs _ List.mem_cons_self).text_eq ho rfl

theorem printBranches_append (word : String) (b : Expr × List Block) (bs : List (Expr × List Block)) (rest : Bytes) :
    Block.printBranches word (b :: bs) ++ rest = utf8 "\x7b% " ++ (utf8 word ++ (Byte.space :: b.1.print ++
      (utf8 " %\x7d" ++ (Block.printList b.2 ++ (Block.printBranches "elseif" bs ++ rest))))) := by
  rw [Block.printBranches]
  simp only [List.append_assoc]

theorem seamless_mono {x y : Bytes} (h : ∀ c : Bytes, c.EndsAt x → c.EndsAt y) :
    ∀ {ts : List Lexeme}, Seamless ts x → Seamless ts y
  | [], _ => trivial
  | [_], ⟨ht, _⟩ => ⟨fun hk => h _ (ht hk), trivial⟩
  | _ :: _ :: _, ⟨ht, hts⟩ => ⟨ht, seamless_mono h hts⟩

theorem seamless_of_tag {ts : List Lexeme} {rest : Bytes} (h : Seamless ts tagOpener) :
    StartsTag rest → Seamless ts rest
  | ⟨r, hr⟩ => seamless_mono (fun _ hc => by rw [hr]; exact hc.append (List.cons_ne_nil _ _) r) h

theorem front_elseifs {ts : List Lexeme} {bs : List (Expr × List Block)} (h : SpellsElseifs ts bs)
    (hs : ∀ t ∈ ts, t.Spelled) : front ts tagOpener = tagOpener := by
  cases h with
  | nil => rfl
  | cons ho => exact (hs _ List.mem_cons_self).text_eq ho rfl

theorem front_cases {ts : List Lexeme} {cs : List (List Expr × List Block)} (h : SpellsCases ts cs)
    (hs : ∀ t ∈ ts, t.Spelled) : front ts tagOpener = tagOpener := by
  cases h with
  | nil => rfl
  | cons ho => exact (hs _ List.mem_cons_self).text_eq ho rfl

/-- What is printed starts with the bytes of the first of the tokens, of which there are some. -/
def StartsWithFirst (ts : List Lexeme) (s : Bytes) : Prop := ∃ t us more, ts = t :: us ∧ s = t.text ++ more ∧ t.text ≠ []

theorem startsWithFirst_of_kind {t : Lexeme} {k : TokenKind} {w more s : Bytes} {ts : List Lexeme} (ht : t.Spelled)
    (hk : t.kind = k) (hw : k.spelling? = some w) (hne : w ≠ []) (hs : s = w ++ more) : StartsWithFirst (t :: ts) s := by
  have htext := ht.text_eq hk hw
  subst htext
  exact ⟨t, ts, more, rfl, hs, hne⟩

theorem SpellsBlock.startsWithFirst {ts : List Lexeme} {b : Block} (h : SpellsBlock ts b) (hs : ∀ t ∈ ts, t.Spelled) :
    StartsWithFirst ts b.print := by
  cases h with
  | @text t ht =>
    have hw := hs t List.mem_cons_self
    rw [Lexeme.Spelled, ht] at hw
    exact ⟨t, [], [], rfl, by rw [Block.print, List.append_nil], hw.1⟩
  | comment ho => exact startsWithFirst_of_kind (hs _ List.mem_cons_self) ho rfl (List.cons_ne_nil _ _) rfl
  | emptyComment ho => exact startsWithFirst_of_kind (hs _ List.mem_cons_self) ho rfl (List.cons_ne_nil _ _) rfl
  | render ho => exact startsWithFirst_of_kind (hs _ List.mem_cons_self) ho rfl (List.cons_ne_nil _ _) rfl
  | cond ho => exact startsWithFirst_of_kind (hs _ List.mem_cons_self) ho rfl (List.cons_ne_nil _ _) rfl
  | condElse ho => exact startsWithFirst_of_kind (hs _ List.mem_cons_self) ho rfl (List.cons_ne_nil _ _) rfl
  | switch ho => exact startsWithFirst_of_kind (hs _ List.mem_cons_self) ho rfl (List.cons_ne_nil _ _) rfl

theorem endsAt_printList {c rest : Bytes} {ts : List Lexeme} {bs : List Block} (h : SpellsBlocks ts bs)
    (hs : ∀ t ∈ ts, t.Spelled) (hc : c.EndsAt (front ts rest)) : c.EndsAt (Block.printList bs ++ rest) := by
  cases h with
  | nil => exact hc
  | @cons ts us b bs hb hbs =>
    rw [List.forall_mem_append] at hs
    obtain ⟨t, us', more, rfl, hp, hne⟩ := hb.startsWithFirst hs.1
    rw [Block.printList, hp, List.append_assoc, List.append_assoc]
    exact Bytes.EndsAt.append hc hne _

mutual

/-- **Scanning a printed block finds its tokens**, but for white space inside a switch; those found spell the block
too. -/
theorem SpellsBlock.words : ∀ {ts : List Lexeme} {b : Block}, SpellsBlock ts b → (∀ t ∈ ts, t.Spelled) →
    ∀ {rest : Bytes}, Seamless ts rest → ∃ us, Keeps .elsewhere .elsewhere ts us ∧ SpellsBlock us b ∧
      Mode.outside.words (b.print ++ rest) = us.map Lexeme.erase ++ Mode.outside.words rest
  | _, _, @SpellsBlock.text t ht, hs, rest, hf => by
    refine ⟨_, .cons_kind ht Spot.noConfusion .nil, .text ht, ?_⟩
    rw [Block.print]
    exact Mode.words_kind (hs t List.mem_cons_self) ht (hf.1 ht)
  | _, _, @SpellsBlock.comment o t c ho ht hc, hs, rest, hf => by
    rw [List.forall_mem_cons, List.forall_mem_cons, List.forall_mem_singleton] at hs
    obtain ⟨hso, hst, hsc⟩ := hs
    have hkeeps : Keeps .elsewhere .elsewhere [o, t, c] [o, t, c] :=
      .cons_kind ho Spot.noConfusion (.cons_kind ht Spot.noConfusion (.cons_kind hc Spot.noConfusion .nil))
    refine ⟨_, hkeeps, .comment ho ht hc, ?_⟩
    have hopen : ∀ x, Mode.outside.words (utf8 "\x7b#" ++ x) = o.erase :: Mode.comment.words x := fun _ =>
      Mode.words_fixed hso ho rfl trivial
    have hbody : ∀ x, Mode.comment.words (t.text ++ (utf8 "#\x7d" ++ x)) =
        t.erase :: Mode.comment.words (utf8 "#\x7d" ++ x) := fun _ => Mode.words_kind hst ht ⟨rfl, rfl⟩
    have hclose : ∀ x, Mode.comment.words (utf8 "#\x7d" ++ x) = c.erase :: Mode.outside.words x := fun _ =>
      Mode.words_fixed hsc hc rfl trivial
    rw [Block.print, List.append_assoc, List.append_assoc, hopen, hbody, hclose]
    rfl
  | _, _, @SpellsBlock.emptyComment o c ho hc, hs, rest, hf => by
    rw [List.forall_mem_cons, List.forall_mem_singleton] at hs
    have hkeeps : Keeps .elsewhere .elsewhere [o, c] [o, c] :=
      .cons_kind ho Spot.noConfusion (.cons_kind hc Spot.noConfusion .nil)
    refine ⟨_, hkeeps, .emptyComment ho hc, ?_⟩
    have hopen : ∀ x, Mode.outside.words (utf8 "\x7b#" ++ x) = o.erase :: Mode.comment.words x := fun _ =>
      Mode.words_fixed hs.1 ho rfl trivial
    have hclose : ∀ x, Mode.comment.words (utf8 "#\x7d" ++ x) = c.erase :: Mode.outside.words x := fun _ =>
      Mode.words_fixed hs.2 hc rfl trivial
    rw [Block.print, List.append_assoc, List.nil_append, hopen, hclose]
    rfl
  | _, _, @SpellsBlock.render o c ts e ho he hc, hs, rest, hf => by
    rw [List.forall_mem_cons, List.forall_mem_append, List.forall_mem_singleton] at hs
    obtain ⟨hso, hse, hsc⟩ := hs
    have hkeeps : Keeps .elsewhere .elsewhere (o :: (ts ++ [c])) (o :: (ts ++ [c])) :=
      .cons_kind ho Spot.noConfusion
        ((Keeps.inside (.inl rfl) he.inside).append (.cons_kind hc Spot.noConfusion .nil))
    refine ⟨_, hkeeps, .render ho he hc, ?_⟩
    have hopen : ∀ x, Mode.outside.words (utf8 "\x7b\x7b " ++ x) = o.erase :: Mode.tag.words x := fun x =>
      (Mode.words_fixed hso ho rfl trivial).trans (congrArg _ (Mode.words_space x))
    have hclose : ∀ x, Mode.tag.words (utf8 " \x7d\x7d" ++ x) = c.erase :: Mode.outside.words x := fun x =>
      (Mode.words_space _).trans (Mode.words_fixed hsc hc rfl trivial)
    rw [Block.print, List.append_assoc, List.append_assoc, hopen, he.words hse rfl, hclose, List.map_cons,
      List.map_append, List.cons_append, List.append_assoc]
    rfl
  | _, _, @SpellsBlock.cond o ts us vs b bs ho hb hbs he, hs, rest, hf => by
    rw [List.forall_mem_cons, List.forall_mem_append, List.forall_mem_append] at hs
    obtain ⟨hso, hsb, hsbs, hse⟩ := hs
    have hf' := seamless_append.1 hf.2
    rw [front_append, front_end he hse, front_elseifs hbs hsbs] at hf'
    have hfs := seamless_append.1 hf'.2
    rw [front_end he hse] at hfs
    have hword : (utf8 "if", .if) ∈ TokenKind.keywords := by decide
    have hend := startsTag_end rest
    obtain ⟨ts', hkeeps, hb', hw⟩ := hb.words hsb hf'.1 hword rfl (startsTag_printBranches hend bs)
    obtain ⟨us', hkeeps', hbs', hw'⟩ := hbs.words hsbs hfs.1 hend
    refine ⟨o :: (ts' ++ (us' ++ vs)), .cons_kind ho Spot.noConfusion (hkeeps.append (hkeeps'.append he.keeps)),
      .cond ho hb' hbs' he, ?_⟩
    rw [Block.print, List.append_assoc, printBranches_append, words_openTag hso ho, hw, hw', he.words hse, List.map_cons,
      List.map_append, List.map_append, List.cons_append, List.append_assoc, List.append_assoc]
  | _, _, @SpellsBlock.condElse o p w c ts us vs xs b bs body ho hb hbs hp hw hc hbody he, hs, rest, hf => by
    rw [List.forall_mem_cons, List.forall_mem_append, List.forall_mem_append, List.forall_mem_cons, List.forall_mem_cons,
      List.forall_mem_cons, List.forall_mem_append] at hs
    obtain ⟨hso, hsb, hsbs, hsp, hsw, hsc, hsx, hse⟩ := hs
    have hf' := seamless_append.1 hf.2
    have hfs := seamless_append.1 hf'.2
    have hfx := seamless_append.1 hfs.2.2.2.2
    have hp' : p.text = tagOpener := hsp.text_eq hp rfl
    rw [front_append, front, hp', front_elseifs hbs hsbs] at hf'
    rw [front, hp'] at hfs
    rw [front_end he hse] at hfx
    have hword : (utf8 "if", .if) ∈ TokenKind.keywords := by decide
    have hword' : (utf8 "else", .else) ∈ TokenKind.keywords := by decide
    have hend := startsTag_end rest
    have helse := startsTag_else (Block.printList body ++ (utf8 "\x7b% end %\x7d" ++ rest))
    obtain ⟨ts', hkeeps, hb', h₁⟩ := hb.words hsb hf'.1 hword rfl (startsTag_printBranches helse bs)
    obtain ⟨us', hkeeps', hbs', h₂⟩ := hbs.words hsbs hfs.1 helse
    obtain ⟨xs', hkeeps'', hbody', h₃⟩ := hbody.words hsx (seamless_of_tag hfx.1 hend)
    have h₄ : ∀ x, Mode.outside.words (utf8 "\x7b% else %\x7d" ++ x) =
        p.erase :: w.erase :: c.erase :: Mode.outside.words x := words_wordTag ⟨hsp, hsw, hsc⟩ hp hw hc hword'
    have hkeepsx : Keeps .elsewhere .elsewhere (p :: w :: c :: (xs ++ vs)) (p :: w :: c :: (xs' ++ vs)) :=
      .cons_kind hp Spot.noConfusion (.cons_kind hw Spot.noConfusion (.cons_kind hc Spot.noConfusion
        (hkeeps''.append he.keeps)))
    refine ⟨o :: (ts' ++ (us' ++ p :: w :: c :: (xs' ++ vs))),
      .cons_kind ho Spot.noConfusion (hkeeps.append (hkeeps'.append hkeepsx)), .condElse ho hb' hbs' hp hw hc hbody' he, ?_⟩
    rw [Block.print, List.append_assoc, List.append_assoc, List.append_assoc, printBranches_append, words_openTag hso ho,
      h₁, h₂, h₄, h₃, he.words hse]
    simp only [List.map_cons, List.map_append, List.cons_append, List.append_assoc]
  | _, _, @SpellsBlock.switch o w c ts ws us vs v cs ho hw hv hc hws hcs he, hs, rest, hf => by
    rw [List.forall_mem_cons, List.forall_mem_cons, List.forall_mem_append, List.forall_mem_cons, List.forall_mem_append,
      List.forall_mem_append] at hs
    obtain ⟨hso, hsw, hsv, hsc, -, hscs, hse⟩ := hs
    have hfs := seamless_append.1 (seamless_append.1 (seamless_append.1 hf.2.2).2.2).2
    rw [front_end he hse] at hfs
    have hword : (utf8 "switch", .switch) ∈ TokenKind.keywords := by decide
    have hend := startsTag_end rest
    obtain ⟨us', hkeeps, hcs', h₁⟩ := hcs.words hscs hfs.1 hend
    have hopen : ∀ x, Mode.outside.words (utf8 "\x7b% switch " ++ x) = o.erase :: w.erase :: Mode.tag.words x := fun x =>
      (words_openTag hso ho _).trans (congrArg _ (words_keyword hsw hw hword x))
    -- the white space in front of the first case is not printed
    have hblanks : Keeps .beforeCases .elsewhere (ws ++ (us ++ vs)) ([] ++ (us' ++ vs)) :=
      (Keeps.blanks hws).append (hcs.keeps_beforeCases he (hkeeps.append he.keeps))
    have htag : Keeps .switchTag .elsewhere (ts ++ c :: (ws ++ (us ++ vs))) (ts ++ c :: ([] ++ (us' ++ vs))) :=
      (Keeps.inside (.inr rfl) hv.inside).append (.cons_kind hc Spot.noConfusion hblanks)
    refine ⟨o :: w :: (ts ++ c :: ([] ++ (us' ++ vs))),
      .cons_kind ho Spot.noConfusion (.cons_kind hw Spot.noConfusion htag), .switch ho hw hv hc (by simp) hcs' he, ?_⟩
    rw [Block.print, List.append_assoc, List.append_assoc, List.append_assoc, List.append_assoc, hopen, hv.words hsv rfl,
      words_closeTag hsc hc, h₁, he.words hse]
    simp only [List.map_cons, List.map_append, List.cons_append, List.append_assoc, List.nil_append]

theorem SpellsBlocks.words : ∀ {ts : List Lexeme} {bs : List Block}, SpellsBlocks ts bs → (∀ t ∈ ts, t.Spelled) →
    ∀ {rest : Bytes}, Seamless ts rest → ∃ us, Keeps .elsewhere .elsewhere ts us ∧ SpellsBlocks us bs ∧
      Mode.outside.words (Block.printList bs ++ rest) = us.map Lexeme.erase ++ Mode.outside.words rest
  | _, _, .nil, hs, rest, hf => ⟨[], .nil, .nil, rfl⟩
  | _, _, @SpellsBlocks.cons ts us b bs hb hbs, hs, rest, hf => by
    rw [List.forall_mem_append] at hs
    rw [seamless_append] at hf
    have hfb : Seamless ts (Block.printList bs ++ rest) := seamless_mono (fun _ => endsAt_printList hbs hs.2) hf.1
    obtain ⟨ts', hkeeps, hb', hw⟩ := hb.words hs.1 hfb
    obtain ⟨us', hkeeps', hbs', hw'⟩ := hbs.words hs.2 hf.2
    refine ⟨ts' ++ us', hkeeps.append hkeeps', .cons hb' hbs', ?_⟩
    rw [Block.printList, List.append_assoc, hw, hw', List.map_append, List.append_assoc]

theorem SpellsBranch.words : ∀ {k : TokenKind} {ts : List Lexeme} {b : Expr × List Block}, SpellsBranch k ts b →
    (∀ t ∈ ts, t.Spelled) → Seamless ts tagOpener → ∀ {word : String}, (utf8 word, k) ∈ TokenKind.keywords →
      Spot.opened.after k = .elsewhere → ∀ {rest : Bytes}, StartsTag rest →
        ∃ us, Keeps .opened .elsewhere ts us ∧ SpellsBranch k us b ∧
        Mode.tag.words (utf8 word ++ (Byte.space :: b.1.print ++ (utf8 " %\x7d" ++ (Block.printList b.2 ++ rest)))) =
          us.map Lexeme.erase ++ Mode.outside.words rest
  | _, _, _, @SpellsBranch.mk k w c ts us e body hw he hc hbody, hs, hf, word, hk, hspot, rest, hr => by
    rw [List.forall_mem_cons, List.forall_mem_append, List.forall_mem_cons] at hs
    obtain ⟨hsw, hse, hsc, hsb⟩ := hs
    obtain ⟨us', hkeeps, hbody', hw'⟩ := hbody.words hsb (seamless_of_tag (seamless_append.1 hf.2).2.2 hr)
    have hcond : Keeps .elsewhere .elsewhere (ts ++ c :: us) (ts ++ c :: us') :=
      (Keeps.inside (.inl rfl) he.inside).append (.cons_kind hc Spot.noConfusion hkeeps)
    refine ⟨w :: (ts ++ c :: us'), .cons_kind hw Spot.noConfusion (hspot ▸ hcond), .mk hw he hc hbody', ?_⟩
    dsimp only
    rw [List.cons_append, words_keyword hsw hw hk, he.words hse rfl, words_closeTag hsc hc, hw', List.map_cons,
      List.map_append, List.map_cons, List.cons_append, List.append_assoc, List.cons_append]

theorem SpellsElseifs.words : ∀ {ts : List Lexeme} {bs : List (Expr × List Block)}, SpellsElseifs ts bs →
    (∀ t ∈ ts, t.Spelled) → Seamless ts tagOpener → ∀ {rest : Bytes}, StartsTag rest →
      ∃ us, Keeps .elsewhere .elsewhere ts us ∧ SpellsElseifs us bs ∧
        Mode.outside.words (Block.printBranches "elseif" bs ++ rest) = us.map Lexeme.erase ++ Mode.outside.words rest
  | _, _, .nil, hs, hf, rest, hr => ⟨[], .nil, .nil, rfl⟩
  | _, _, @SpellsElseifs.cons o ts us b bs ho hb hbs, hs, hf, rest, hr => by
    rw [List.forall_mem_cons, List.forall_mem_append] at hs
    obtain ⟨hso, hsb, hsbs⟩ := hs
    have hf' := seamless_append.1 hf.2
    rw [front_elseifs hbs hsbs] at hf'
    have hword : (utf8 "elseif", .elseif) ∈ TokenKind.keywords := by decide
    obtain ⟨ts', hkeeps, hb', hw⟩ := hb.words hsb hf'.1 hword rfl (startsTag_printBranches hr bs)
    obtain ⟨us', hkeeps', hbs', hw'⟩ := hbs.words hsbs hf'.2 hr
    refine ⟨o :: (ts' ++ us'), .cons_kind ho Spot.noConfusion (hkeeps.append hkeeps'), .cons ho hb' hbs', ?_⟩
    rw [printBranches_append, words_openTag hso ho, hw, hw', List.map_cons, List.map_append, List.cons_append,
      List.append_assoc]

theorem SpellsCases.words : ∀ {ts : List Lexeme} {cs : List (List Expr × List Block)}, SpellsCases ts cs →
    (∀ t ∈ ts, t.Spelled) → Seamless ts tagOpener → ∀ {rest : Bytes}, StartsTag rest →
      ∃ us, Keeps .elsewhere .elsewhere ts us ∧ SpellsCases us cs ∧
        Mode.outside.words (Block.printCases cs ++ rest) = us.map Lexeme.erase ++ Mode.outside.words rest
  | _, _, .nil, hs, hf, rest, hr => ⟨[], .nil, .nil, rfl⟩
  | _, _, @SpellsCases.cons o w c ts us vs ps body cs ho hw hps hc hbody hcs, hs, hf, rest, hr => by
    rw [List.forall_mem_cons, List.forall_mem_cons, List.forall_mem_append, List.forall_mem_cons,
      List.forall_mem_append] at hs
    obtain ⟨hso, hsw, hsps, hsc, hsb, hscs⟩ := hs
    have hfs := seamless_append.1 (seamless_append.1 hf.2.2).2.2
    rw [front_cases hcs hscs] at hfs
    have hword : (utf8 "case", .case) ∈ TokenKind.keywords := by decide
    obtain ⟨us', hkeeps, hbody', h₁⟩ := hbody.words hsb (seamless_of_tag hfs.1 (startsTag_printCases hr cs))
    obtain ⟨vs', hkeeps', hcs', h₂⟩ := hcs.words hscs hfs.2 hr
    have hopen : ∀ x, Mode.outside.words (utf8 "\x7b% case " ++ x) = o.erase :: w.erase :: Mode.tag.words x := fun x =>
      (words_openTag hso ho _).trans (congrArg _ (words_keyword hsw hw hword x))
    have htag : Keeps .elsewhere .elsewhere (ts ++ c :: (us ++ vs)) (ts ++ c :: (us' ++ vs')) :=
      (Keeps.inside (.inl rfl) hps.inside).append (.cons_kind hc Spot.noConfusion (hkeeps.append hkeeps'))
    refine ⟨o :: w :: (ts ++ c :: (us' ++ vs')),
      .cons_kind ho Spot.noConfusion (.cons_kind hw Spot.noConfusion htag), .cons ho hw hps hc hbody' hcs', ?_⟩
    rw [Block.printCases, List.append_assoc, List.append_assoc, List.append_assoc, List.append_assoc, hopen,
      hps.words hsps rfl, words_closeTag hsc hc, h₁, h₂]
    simp only [List.map_cons, List.map_append, List.cons_append, List.append_assoc]

end

end Grammar
end Stencil
