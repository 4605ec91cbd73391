import Mathlib
import Stencil.Proofs.Source.Prefix
/-!
# Rules — the lexical grammar

What the tokens of a source are, said without a scanner.  `Proper` says in each mode which tokens may stand in front of a
rest of the source, and `Rule` adds the errors: strings that are not closed, and bytes at which no token starts.  Tokens
in a row, with blanks between them inside tags, are `IsLexed`.  Every source is lexed in exactly one way
(`Token.ofSource_eq_iff`).
-/
namespace Stencil
namespace Lexical

def openings : List (TokenKind × Bytes × Mode) :=
  [(.lDoubleBrace, [Byte.lbrace, Byte.lbrace], .tag), (.lBracePercent, [Byte.lbrace, Byte.percent], .tag),
   (.lBracePound, [Byte.lbrace, Byte.pound], .comment)]

def openers : List Bytes := openings.map fun o => o.2.1

def closings : List (TokenKind × Bytes) :=
  [(.rDoubleBrace, [Byte.rbrace, Byte.rbrace]), (.rBracePercent, [Byte.percent, Byte.rbrace])]

def commentCloser : Bytes := [Byte.pound, Byte.rbrace]

/-- The marks of a tag that nothing can make longer. -/
def marks : List (TokenKind × Bytes) :=
  [(.lParen, [Byte.lparen]), (.rParen, [Byte.rparen]), (.comma, [Byte.comma]), (.pipe, [Byte.bar]),
   (.tilde, [Byte.tilde]), (.notEq, [Byte.bang, Byte.equals]), (.eqEq, [Byte.equals, Byte.equals])]

def Opens (s : Bytes) : Prop := ∃ o ∈ openers, o <+: s

def EndsLine (rest : Bytes) : Prop := rest = [] ∨ rest.head? = some Byte.newline

/-- Text in front of `rest`: up to the first newline or opener, where only its first byte may be a newline. -/
structure IsText (text rest : Bytes) : Prop where
  ne_nil : text ≠ []
  newline : Byte.newline ∉ text.tail
  opener : ∀ o ∈ openers, ¬ o <:+: text
  ends : EndsLine rest ∨ Opens rest
  first : ∀ u v, text = u ++ v → v ≠ [] → ¬ Opens (v ++ rest)

/-- The body of a comment in front of `rest`: up to the first newline or closer. -/
structure IsComment (text rest : Bytes) : Prop where
  ne_nil : text ≠ []
  newline : Byte.newline ∉ text
  closer : ¬ commentCloser <:+: text
  ends : EndsLine rest ∨ commentCloser <+: rest

def IsBody (body : Bytes) : Prop := Byte.quote ∉ body ∧ Byte.newline ∉ body

def WordEnds (rest : Bytes) : Prop := ∀ b ∈ rest.head?, Byte.isNamePart b = false

/-- A token in front of a rest of the source, with the modes before and after it. -/
inductive Proper : Mode → TokenKind → Bytes → Bytes → Mode → Prop
  | opening {k : TokenKind} {w rest : Bytes} {m : Mode} : (k, w, m) ∈ openings → Proper .outside k w rest m
  | text {w rest : Bytes} : IsText w rest → Proper .outside .text w rest .outside
  | closing {k : TokenKind} {w rest : Bytes} : (k, w) ∈ closings → Proper .tag k w rest .outside
  | mark {k : TokenKind} {w rest : Bytes} : (k, w) ∈ marks → Proper .tag k w rest .tag
  | bang {rest : Bytes} : rest.head? ≠ some Byte.equals → Proper .tag .bang [Byte.bang] rest .tag
  | keyword {k : TokenKind} {w rest : Bytes} : (w, k) ∈ TokenKind.keywords → WordEnds rest → Proper .tag k w rest .tag
  | identifier {w rest : Bytes} : w.isName = true → w ∉ TokenKind.keywords.map Prod.fst → WordEnds rest →
      Proper .tag .identifier w rest .tag
  | string {body rest : Bytes} : IsBody body →
      Proper .tag .stringLiteral (Byte.quote :: (body ++ [Byte.quote])) rest .tag
  | comment {w rest : Bytes} : IsComment w rest → Proper .comment .comment w rest .comment
  | commentEnd {rest : Bytes} : Proper .comment .rBracePound commentCloser rest .outside

/-- At this byte of a tag starts no token, and it is no blank. -/
structure IsStray (b : UInt8) (rest : Bytes) : Prop where
  blank : Byte.isBlank b = false
  quote : b ≠ Byte.quote
  token : ∀ k w r m, w ++ r = b :: rest → ¬ Proper .tag k w r m

inductive Rule : Mode → TokenKind → Bytes → Bytes → Mode → Prop
  | proper {m m' : Mode} {k : TokenKind} {w rest : Bytes} : Proper m k w rest m' → Rule m k w rest m'
  | unterminated {body rest : Bytes} : IsBody body → EndsLine rest → Rule .tag .error (Byte.quote :: body) rest .tag
  | stray {b : UInt8} {rest : Bytes} : IsStray b rest → Rule .tag .error [b] rest .tag
  | newline {rest : Bytes} : Rule .comment .error [Byte.newline] rest .comment

/-- Bytes that may stand between tokens: the blanks of tags. -/
def IsGap : Mode → Bytes → Prop
  | .tag, g => ∀ b ∈ g, Byte.isBlank b = true
  | _, g => g = []

/-- A source that starts at `offset` in a mode is these tokens in a row. -/
inductive IsLexed : Mode → Nat → Bytes → List Token → Prop
  | nil {m : Mode} {offset : Nat} {g : Bytes} : IsGap m g → IsLexed m offset g []
  | cons {m m' : Mode} {offset : Nat} {g w rest : Bytes} {k : TokenKind} {ts : List Token} : IsGap m g →
      Rule m k w rest m' → IsLexed m' (offset + g.length + w.length) rest ts →
      IsLexed m offset (g ++ (w ++ rest)) (⟨k, offset + g.length, w⟩ :: ts)

/-! ## The stops of the scanner -/

theorem opens_cons {b c : UInt8} {r : Bytes} : Opens (b :: c :: r) ↔
    b = Byte.lbrace ∧ (c = Byte.lbrace ∨ c = Byte.percent ∨ c = Byte.pound) := by
  simp [Opens, openers, openings, List.cons_prefix_cons, eq_comm, ← and_or_left]

theorem opensTag_iff {s : Bytes} : Mode.opensTag s = true ↔ Opens s := by
  match s with
  | [] => simp [Mode.opensTag, Opens, openers, openings]
  | [b] => simp [Opens, openers, openings]
  | b :: c :: r => simp [Mode.opensTag_cons, opens_cons, or_assoc]

theorem endsComment_iff {s : Bytes} :
    Mode.endsComment s = true ↔ s.head? = some Byte.newline ∨ commentCloser <+: s := by
  match s with
  | [] => simp [Mode.endsComment, commentCloser]
  | [b] => simp [commentCloser]
  | b :: c :: r =>
    have hcloser : commentCloser <+: b :: c :: r ↔ b = Byte.pound ∧ c = Byte.rbrace := by
      simp [commentCloser, List.cons_prefix_cons, eq_comm]
    simp [Mode.endsComment_cons, hcloser]

theorem endsWord_iff {s : Bytes} : Mode.endsWord s = true ↔ WordEnds s := by
  cases s with
  | nil => simp [Mode.endsWord, WordEnds]
  | cons b r => simp [Mode.endsWord, WordEnds]

end Lexical

theorem Bytes.clear_iff {stop : Bytes → Bool} {rest : Bytes} : ∀ {w : Bytes},
    Bytes.Clear stop w rest ↔ ∀ u v, w = u ++ v → v ≠ [] → stop (v ++ rest) = false
  | [] => by
    refine ⟨fun _ u v h hv => ?_, fun _ => trivial⟩
    exact absurd (List.append_eq_nil_iff.1 h.symm).2 hv
  | b :: w => by
    rw [Bytes.Clear, Bytes.clear_iff]
    constructor
    · rintro ⟨hb, hw⟩ u v h hv
      cases u with
      | nil =>
        rw [List.nil_append] at h
        rw [← h]
        exact hb
      | cons c u =>
        rw [List.cons_append, List.cons.injEq] at h
        exact hw u v h.2 hv
    · intro h
      refine ⟨h [] (b :: w) rfl (List.cons_ne_nil _ _), fun u v hw hv => ?_⟩
      exact h (b :: u) v (by rw [hw]; rfl) hv

namespace Lexical

theorem clear_endsString_iff {body rest : Bytes} : Bytes.Clear Mode.endsString body rest ↔ IsBody body := by
  unfold IsBody
  induction body with
  | nil => simp [Bytes.Clear]
  | cons b body ih =>
    rw [Bytes.Clear, ih]
    simp [Mode.endsString, eq_comm (a := b)]
    exact and_and_and_comm

theorem IsText.clear {w rest : Bytes} (h : IsText w rest) : Bytes.Clear Mode.opensTag w rest :=
  Bytes.clear_iff.2 fun u v hw hv => by
    rw [Bool.eq_false_iff]
    exact fun ho => h.first u v hw hv (opensTag_iff.1 ho)

theorem not_infix_of_clear {w rest o : Bytes} (hc : Bytes.Clear Mode.opensTag w rest) (ho : o ∈ openers) :
    ¬ o <:+: w := by
  rintro ⟨u, v, rfl⟩
  have hne : o ++ v ≠ [] := fun hnil => by
    rw [(List.append_eq_nil_iff.1 hnil).1] at ho
    exact absurd ho (by decide)
  have hclear := Bytes.clear_iff.1 hc u (o ++ v) (List.append_assoc u o v) hne
  rw [Bool.eq_false_iff] at hclear
  exact hclear (opensTag_iff.2 ⟨o, ho, by rw [List.append_assoc]; exact List.prefix_append o _⟩)

theorem IsText.of_clear {w rest : Bytes} (hne : w ≠ []) (hn : Byte.newline ∉ w.tail)
    (hc : Bytes.Clear Mode.opensTag w rest) (hr : rest = [] ∨ Mode.endsText rest = true) : IsText w rest where
  ne_nil := hne
  newline := hn
  opener := fun _ => not_infix_of_clear hc
  ends := by
    rcases hr with hr | hr
    · exact .inl (.inl hr)
    · rw [Mode.endsText, Bool.or_eq_true, beq_iff_eq] at hr
      exact hr.imp .inr opensTag_iff.1
  first := fun u v hw hv ho => by
    have hclear := Bytes.clear_iff.1 hc u v hw hv
    rw [opensTag_iff.2 ho] at hclear
    cases hclear

theorem IsComment.clear {w rest : Bytes} (h : IsComment w rest) : Bytes.Clear Mode.endsComment w rest := by
  refine Bytes.clear_iff.2 fun u v hw hv => ?_
  rw [Bool.eq_false_iff]
  intro he
  have hmem : ∀ b ∈ v, b ∈ w := fun b hb => hw ▸ List.mem_append_right u hb
  rcases endsComment_iff.1 he with he | he
  · cases v with
    | nil => exact hv rfl
    | cons b v => exact h.newline (hmem _ (Option.some.inj he ▸ List.mem_cons_self))
  · obtain ⟨r, hr⟩ := he
    match v, hw, hv with
    | b :: c :: v, hw, _ =>
      -- the closer stands inside the body
      obtain ⟨rfl, rfl, -⟩ : Byte.pound = b ∧ Byte.rbrace = c ∧ r = v ++ rest := by
        simpa [commentCloser] using hr
      exact h.closer ⟨u, v, by rw [hw]; simp [commentCloser]⟩
    | [b], hw, _ =>
      -- its second byte would be the first of what follows
      have hr : rest.head? = some Byte.rbrace := by
        obtain ⟨-, rfl⟩ : Byte.pound = b ∧ Byte.rbrace :: r = rest := by simpa [commentCloser] using hr
        rfl
      rcases h.ends with (hends | hends) | hends
      · rw [hends] at hr
        cases hr
      · rw [hends] at hr
        cases hr
      · obtain ⟨r, rfl⟩ := hends
        cases hr

theorem IsComment.of_clear {w rest : Bytes} (hne : w ≠ []) (hc : Bytes.Clear Mode.endsComment w rest)
    (hr : rest = [] ∨ Mode.endsComment rest = true) : IsComment w rest where
  ne_nil := hne
  newline := fun hmem => by
    obtain ⟨u, v, rfl⟩ := List.append_of_mem hmem
    have hclear := Bytes.clear_iff.1 hc u (Byte.newline :: v) rfl (List.cons_ne_nil _ _)
    cases hclear
  closer := by
    rintro ⟨u, v, rfl⟩
    have hclear := Bytes.clear_iff.1 hc u (commentCloser ++ v) (List.append_assoc u _ v) (List.cons_ne_nil _ _)
    cases hclear
  ends := by
    rcases hr with hr | hr
    · exact .inl (.inl hr)
    · exact (endsComment_iff.1 hr).imp .inr id

theorem keyword?_eq_none {w : Bytes} : TokenKind.keyword? w = none ↔ w ∉ TokenKind.keywords.map Prod.fst := by
  rw [TokenKind.keyword?, List.lookup_eq_none_iff, List.mem_map]
  simp only [bne_iff_ne]
  exact ⟨fun h ⟨x, hx, hw⟩ => h x hx hw.symm, fun h x hx hw => h ⟨x, hx, hw.symm⟩⟩

/-! ## The rules and the scanner -/

/-- **A token that the rules allow is scanned.** -/
theorem Proper.scan {m m' : Mode} {k : TokenKind} {w rest : Bytes} (h : Proper m k w rest m') :
    m.scan (w ++ rest) = some ⟨k, w, rest, m'⟩ := by
  cases h with
  | opening hk =>
    simp only [openings, List.mem_cons, List.not_mem_nil, or_false, Prod.mk.injEq] at hk
    rcases hk with ⟨rfl, rfl, rfl⟩ | ⟨rfl, rfl, rfl⟩ | ⟨rfl, rfl, rfl⟩ <;> rfl
  | text ht =>
    cases w with
    | nil => exact absurd rfl ht.ne_nil
    | cons b w =>
      obtain ⟨hb, hw⟩ := ht.clear
      have hend : rest = [] ∨ Mode.endsText rest = true := by
        rcases ht.ends with (hr | hr) | hr
        · exact .inl hr
        · exact .inr (by rw [Mode.endsText, hr]; rfl)
        · exact .inr (by rw [Mode.endsText, opensTag_iff.2 hr, Bool.or_true])
      have hcut := Bytes.cutAt_clear hend (Mode.clear_endsText.2 ⟨ht.newline, hw⟩)
      rw [List.tail_cons] at hcut
      show Mode.scanOutside (b :: (w ++ rest)) = _
      rw [Mode.scanOutside_of_not_opensTag hb, hcut]
  | closing hk =>
    simp only [closings, List.mem_cons, List.not_mem_nil, or_false, Prod.mk.injEq] at hk
    rcases hk with ⟨rfl, rfl⟩ | ⟨rfl, rfl⟩ <;> rfl
  | mark hk =>
    simp only [marks, List.mem_cons, List.not_mem_nil, or_false, Prod.mk.injEq] at hk
    rcases hk with ⟨rfl, rfl⟩ | ⟨rfl, rfl⟩ | ⟨rfl, rfl⟩ | ⟨rfl, rfl⟩ | ⟨rfl, rfl⟩ | ⟨rfl, rfl⟩ | ⟨rfl, rfl⟩ <;> rfl
  | bang hr => exact Mode.scanTag_bang hr
  | keyword hk hr => exact Mode.scanTag_keyword hk (endsWord_iff.2 hr)
  | identifier hn hk hr =>
    show Mode.scanTag (w ++ rest) = _
    rw [Mode.scanTag_word hn (endsWord_iff.2 hr), keyword?_eq_none.2 hk]
    rfl
  | string hb => exact Mode.scanTag_string (clear_endsString_iff.2 hb) rest
  | comment hc =>
    cases w with
    | nil => exact absurd rfl hc.ne_nil
    | cons b w =>
      obtain ⟨hb, hw⟩ := hc.clear
      have hend : rest = [] ∨ Mode.endsComment rest = true := by
        rcases hc.ends with (hr | hr) | hr
        · exact .inl hr
        · exact .inr (endsComment_iff.2 (.inl hr))
        · exact .inr (endsComment_iff.2 (.inr hr))
      show Mode.scanComment (b :: (w ++ rest)) = _
      rw [Mode.scanComment_of_not_endsComment hb, Bytes.cutAt_clear hend hw]
  | commentEnd => rfl

theorem Proper.of_scanOutside {s : Bytes} {p : Piece} (h : Mode.scanOutside s = some p) :
    Proper .outside p.kind p.text p.rest p.mode := by
  cases ho : Mode.opensTag s with
  | true =>
    obtain ⟨k, w, r, hk, hw, hs⟩ := Mode.scanOutside_of_opensTag ho
    rw [hs, Option.some.injEq] at h
    subst h
    refine .opening ?_
    rcases hk with rfl | rfl | rfl <;> cases hw <;> simp [openings, TokenKind.after]
  | false =>
    cases s with
    | nil => cases h
    | cons b r =>
      rw [Mode.scanOutside_of_not_opensTag ho, Option.some.injEq] at h
      subst h
      exact .text (.of_clear (List.cons_ne_nil _ _) (Mode.clear_endsText.1 (Bytes.clear_cutAt Mode.endsText r)).1
        (Mode.clear_scanOutside ho) (Bytes.stop_cutAt Mode.endsText r))

theorem wordEnds_cutAt (r : Bytes) : WordEnds (Bytes.cutAt Mode.endsWord r).2 := by
  rcases Bytes.stop_cutAt Mode.endsWord r with h | h
  · rw [h]
    exact fun b hb => by cases hb
  · exact endsWord_iff.1 h

theorem Proper.of_scanWord {b : UInt8} (hb : Byte.isNameStart b = true) (r : Bytes) :
    Proper .tag (Mode.scanWord b r).kind (Mode.scanWord b r).text (Mode.scanWord b r).rest .tag := by
  simp only [Mode.scanWord]
  cases hk : TokenKind.keyword? (b :: (Bytes.cutAt Mode.endsWord r).1) with
  | some k => exact .keyword (TokenKind.mem_of_keyword? hk) (wordEnds_cutAt r)
  | none =>
    refine .identifier ?_ (keyword?_eq_none.1 hk) (wordEnds_cutAt r)
    rw [Bytes.isName, hb, Bool.true_and]
    exact Mode.clear_endsWord.1 (Bytes.clear_cutAt Mode.endsWord r)

theorem Rule.of_scanString (r : Bytes) : Rule .tag (Mode.scanString r).kind (Mode.scanString r).text
    (Mode.scanString r).rest (Mode.scanString r).mode := by
  have hbody := clear_endsString_iff.1 (Bytes.clear_cutAt Mode.endsString r)
  have hstop := Bytes.stop_cutAt Mode.endsString r
  unfold Mode.scanString
  split
  · exact .proper (.string hbody)
  · rename_i hq
    refine .unterminated hbody (hstop.imp id fun h => ?_)
    rw [Mode.endsString, Bool.or_eq_true, beq_iff_eq, beq_iff_eq] at h
    refine h.resolve_left fun h => ?_
    obtain ⟨r', hr'⟩ := List.head?_eq_some_iff.1 h
    exact hq r' hr'

theorem Proper.kind_ne_error {m m' : Mode} {k : TokenKind} {w rest : Bytes} (h : Proper m k w rest m') :
    k ≠ .error := by
  have hopen : ∀ x ∈ openings, x.1 ≠ .error := by decide
  have hclose : ∀ x ∈ closings, x.1 ≠ .error := by decide
  have hmark : ∀ x ∈ marks, x.1 ≠ .error := by decide
  have hword : ∀ x ∈ TokenKind.keywords, x.2 ≠ .error := by decide
  cases h with
  | opening hk => exact hopen _ hk
  | closing hk => exact hclose _ hk
  | mark hk => exact hmark _ hk
  | keyword hk => exact hword _ hk
  | text | bang | identifier | string | comment | commentEnd => exact TokenKind.noConfusion

theorem IsStray.of_scan {b : UInt8} {rest : Bytes} (h : Mode.scanTag (b :: rest) = some ⟨.error, [b], rest, .tag⟩)
    (hb : Byte.isBlank b = false) (hq : b ≠ Byte.quote) : IsStray b rest := by
  refine ⟨hb, hq, fun k w r m hw hp => ?_⟩
  have hk := hp.scan
  rw [hw] at hk
  cases hk.symm.trans h
  exact hp.kind_ne_error rfl

theorem Rule.of_scanTag {s : Bytes} {p : Piece} (h : Mode.scanTag s = some p)
    (hs : ∀ b ∈ s.head?, Byte.isBlank b = false) : Rule .tag p.kind p.text p.rest p.mode := by
  have hscan := h
  unfold Mode.scanTag at h
  split at h <;> cases h
  case h_2 | h_3 => exact .proper (.closing (by simp [closings]))
  case h_4 | h_5 | h_7 | h_8 | h_9 | h_10 | h_11 => exact .proper (.mark (by simp [marks]))
  case h_6 r hr =>
    refine .proper (.bang fun heq => ?_)
    obtain ⟨r', rfl⟩ := List.head?_eq_some_iff.1 heq
    exact hr r' rfl
  case h_12 r => exact Rule.of_scanString r
  case h_13 b r _ _ _ _ _ _ _ _ _ _ hq =>
    by_cases hb : Byte.isNameStart b = true
    · rw [if_pos hb]
      exact .proper (.of_scanWord hb r)
    · rw [if_neg hb] at hscan ⊢
      exact .stray (.of_scan hscan (hs b rfl) hq)

theorem Rule.of_scanComment {s : Bytes} {p : Piece} (h : Mode.scanComment s = some p) :
    Rule .comment p.kind p.text p.rest p.mode := by
  unfold Mode.scanComment at h
  split at h <;> cases h
  · exact .proper .commentEnd
  · exact .newline
  · rename_i b r hc hn
    have hb : Mode.endsComment (b :: r) = false := by
      unfold Mode.endsComment
      split <;> simp_all
    refine .proper (.comment (.of_clear (List.cons_ne_nil _ _) ⟨?_, Bytes.clear_cutAt Mode.endsComment r⟩
      (Bytes.stop_cutAt Mode.endsComment r)))
    rw [Bytes.cutAt_append]
    exact hb

/-- **What is scanned behind the blanks follows the rules.** -/
theorem Rule.of_scan {m : Mode} {s : Bytes} {p : Piece} (h : m.scan (m.skip s) = some p) :
    Rule m p.kind p.text p.rest p.mode := by
  cases m with
  | outside => exact .proper (.of_scanOutside h)
  | comment => exact .of_scanComment h
  | tag =>
    refine .of_scanTag h fun b hb => ?_
    have hd := List.head?_dropWhile_not Byte.isBlank s
    rw [show (s.dropWhile Byte.isBlank).head? = some b from hb] at hd
    exact hd

/-- **What the rules allow is scanned**, and no blank stands in front of it. -/
theorem Rule.scan {m m' : Mode} {k : TokenKind} {w rest : Bytes} (h : Rule m k w rest m') :
    m.scan (w ++ rest) = some ⟨k, w, rest, m'⟩ ∧ m.skip (w ++ rest) = w ++ rest := by
  cases h with
  | proper hp => exact ⟨hp.scan, Mode.skip_of_scan hp.scan hp.kind_ne_error⟩
  | @unterminated body _ hb hr =>
    have hend : rest = [] ∨ Mode.endsString rest = true := hr.imp id fun hr => by
      rw [Mode.endsString, hr]
      rfl
    have hcut := Bytes.cutAt_clear hend (clear_endsString_iff.2 hb)
    refine ⟨?_, rfl⟩
    show some (Mode.scanString (body ++ rest)) = _
    unfold Mode.scanString
    rw [hcut]
    rcases hr with rfl | hr
    · rfl
    · obtain ⟨r, rfl⟩ := List.head?_eq_some_iff.1 hr
      rfl
  | @stray b _ hb =>
    refine ⟨?_, List.dropWhile_cons_of_neg (by rw [hb.blank]; exact Bool.false_ne_true)⟩
    show Mode.scanTag (b :: rest) = _
    cases h : Mode.scanTag (b :: rest) with
    | none => cases Mode.eq_nil_of_scan (m := .tag) h
    | some p =>
      obtain ⟨k, w, r, m⟩ := p
      have happ : w ++ r = b :: rest := (Mode.text_append_rest_scanTag h).2
      have hrule : Rule .tag k w r m := .of_scanTag h fun c hc => by
        cases hc
        exact hb.blank
      cases hrule with
      | proper hp => exact absurd hp (hb.token _ _ _ _ happ)
      | unterminated => exact absurd (List.cons.inj happ).1.symm hb.quote
      | stray =>
        cases happ
        rfl
  | newline => exact ⟨rfl, rfl⟩

theorem IsGap.skip_append {m : Mode} {g s : Bytes} (hg : IsGap m g) (hs : m.skip s = s) :
    m.gap (g ++ s) = g ∧ m.skip (g ++ s) = s := by
  have hskip : m.skip (g ++ s) = s := by
    cases m with
    | tag => exact (List.dropWhile_append_of_pos hg).trans hs
    | outside | comment =>
      cases hg
      exact hs
  have happ := Mode.gap_append_skip m (g ++ s)
  rw [hskip] at happ
  exact ⟨List.append_cancel_right happ, hskip⟩

theorem isGap_gap (m : Mode) (s : Bytes) : IsGap m (m.gap s) := by
  cases m with
  | tag => exact fun b hb => (Mode.of_mem_gap hb).2
  | outside | comment => rfl

/-! ## The tokens of a source -/

theorem isLexed_tokens : ∀ (m : Mode) (offset : Nat) (s : Bytes), IsLexed m offset s (Lexer.mk m offset s).tokens := by
  refine Lexer.tokens_induction (motive := IsLexed) (fun m offset s h => ?_) fun m offset s p h ih => ?_
  · rw [← Mode.gap_of_end h]
    exact .nil (isGap_gap m s)
  · have hlexed := IsLexed.cons (isGap_gap m s) (Rule.of_scan h) ih
    rwa [Mode.gap_append_text h] at hlexed

theorem IsLexed.tokens_eq {m : Mode} {offset : Nat} {s : Bytes} {ts : List Token} (h : IsLexed m offset s ts) :
    (Lexer.mk m offset s).tokens = ts := by
  induction h with
  | @nil m offset g hg =>
    have hnil : m.skip [] = [] := by cases m <;> rfl
    have hskip := (hg.skip_append hnil).2
    rw [List.append_nil] at hskip
    exact Lexer.tokens_of_end (by rw [hskip]; cases m <;> rfl) offset
  | @cons m m' offset g w rest k ts hg hr _ ih =>
    obtain ⟨hscan, hskip⟩ := hr.scan
    obtain ⟨hgap, hskip⟩ := hg.skip_append hskip
    have htokens := Lexer.tokens_of_scan (hskip.symm ▸ hscan) offset
    rw [hgap, ih] at htokens
    exact htokens

theorem singleton_prefix {b : UInt8} {s : Bytes} : [b] <+: s ↔ s.head? = some b := by
  cases s with
  | nil => simp
  | cons c s => simp [List.cons_prefix_cons, eq_comm]

theorem isStray_of {b : UInt8} {rest : Bytes} (hblank : Byte.isBlank b = false) (hname : Byte.isNameStart b = false)
    (hquote : b ≠ Byte.quote) (hbang : b ≠ Byte.bang) (hclose : ∀ x ∈ closings, ¬ x.2 <+: b :: rest)
    (hmark : ∀ x ∈ marks, ¬ x.2 <+: b :: rest) : IsStray b rest := by
  have hword : ∀ w r : Bytes, w ++ r = b :: rest → w.isName = false := by
    intro w r hw
    cases w with
    | nil => rfl
    | cons c w => rw [Bytes.isName, (List.cons.inj hw).1, hname, Bool.false_and]
  refine ⟨hblank, hquote, fun k w r m hw hp => ?_⟩
  cases hp with
  | closing hk => exact hclose _ hk ⟨r, hw⟩
  | mark hk => exact hmark _ hk ⟨r, hw⟩
  | bang => exact hbang (List.cons.inj hw).1.symm
  | string => exact hquote (List.cons.inj hw).1.symm
  | keyword hk =>
    have hn := (Mode.isName_keyword _ hk).1
    rw [hword w r hw] at hn
    cases hn
  | identifier hn =>
    rw [hword w r hw] at hn
    cases hn

end Lexical

/-- **The tokens of a source are the ones that the lexical rules fix**: they follow the rules, and no other tokens do.  A
newline inside a tag is a stray byte, and so are an equals sign, a percent sign and a brace that stand alone. -/
theorem Token.ofSource_eq_iff (source : Bytes) :
    (∀ ts, Token.ofSource source = ts ++ [.eof source.length] ↔ Lexical.IsLexed .outside 0 source ts) ∧
      ∀ rest : Bytes, Lexical.IsStray Byte.newline rest ∧
        (rest.head? ≠ some Byte.equals → Lexical.IsStray Byte.equals rest) ∧
        (rest.head? ≠ some Byte.rbrace → Lexical.IsStray Byte.percent rest ∧ Lexical.IsStray Byte.rbrace rest) := by
  refine ⟨fun ts => ?_, fun rest => ⟨?_, fun h => ?_, fun h => ⟨?_, ?_⟩⟩⟩
  · rw [Token.ofSource, List.append_cancel_right_eq]
    exact ⟨fun h => h ▸ Lexical.isLexed_tokens .outside 0 source, Lexical.IsLexed.tokens_eq⟩
  all_goals
    refine Lexical.isStray_of rfl rfl (by decide) (by decide) ?_ ?_ <;>
      simp_all +decide [Lexical.closings, Lexical.marks, List.cons_prefix_cons, Lexical.singleton_prefix]

/-- A comment of number signs, a brace in front of an opener, and errors between words. -/
theorem Token.ofSource_eq_iff_at_braces :
    Lexical.IsLexed .outside 0 (utf8 "\x7b###\x7da\x7b\x7b\x7b=orb==%\x7d")
      [⟨.lBracePound, 0, utf8 "\x7b#"⟩, ⟨.comment, 2, utf8 "#"⟩, ⟨.rBracePound, 3, utf8 "#\x7d"⟩, ⟨.text, 5, utf8 "a"⟩,
       ⟨.lDoubleBrace, 6, utf8 "\x7b\x7b"⟩, ⟨.error, 8, utf8 "\x7b"⟩, ⟨.error, 9, utf8 "="⟩, ⟨.identifier, 10, utf8 "orb"⟩,
       ⟨.eqEq, 13, utf8 "=="⟩, ⟨.rBracePercent, 15, utf8 "%\x7d"⟩] ∧
      Lexical.IsStray Byte.equals (utf8 "orb==%\x7d") :=
  ⟨((Token.ofSource_eq_iff _).1 _).1 (by decide_cbv), ((Token.ofSource_eq_iff []).2 _).2.1 (by decide)⟩

end Stencil
