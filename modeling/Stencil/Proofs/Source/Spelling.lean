import Stencil.Template.Parser
/-!
# Spelling — how the tokens of each kind are written

Every scanned token is spelled as its kind demands (`spelled_scan`), and a token that is spelled so is found again where
its bytes are followed by something that cannot go on with it (`scan_append`): scanning inverts writing.
-/
namespace Stencil

namespace Bytes

/-- Nowhere in `u` is there an ending that satisfies `stop`, when `v` follows. -/
def Clear (stop : Bytes → Bool) : Bytes → Bytes → Prop
  | [], _ => True
  | b :: u, v => stop (b :: (u ++ v)) = false ∧ Clear stop u v

theorem clear_append {stop : Bytes → Bool} {v w : Bytes} : ∀ {u : Bytes},
    Clear stop (u ++ v) w ↔ Clear stop u (v ++ w) ∧ Clear stop v w
  | [] => (iff_of_eq (true_and _)).symm
  | b :: u => by
    rw [List.cons_append, Clear, Clear, clear_append, List.append_assoc, and_assoc]

theorem cutAt_clear {stop : Bytes → Bool} {v : Bytes} (hv : v = [] ∨ stop v = true) :
    ∀ {u : Bytes}, Clear stop u v → cutAt stop (u ++ v) = (u, v)
  | [], _ => by
    cases v with
    | nil => rfl
    | cons b v =>
      rcases hv with hv | hv
      · cases hv
      · rw [List.nil_append, cutAt, if_pos hv]
  | b :: u, h => by
    have hb : ¬ stop (b :: (u ++ v)) = true := by
      rw [h.1]
      exact Bool.false_ne_true
    rw [List.cons_append, cutAt, if_neg hb, cutAt_clear hv h.2]

theorem clear_cutAt (stop : Bytes → Bool) : ∀ s : Bytes, Clear stop (cutAt stop s).1 (cutAt stop s).2
  | [] => trivial
  | b :: r => by
    rw [cutAt]
    split
    · trivial
    · rename_i h
      refine ⟨?_, clear_cutAt stop r⟩
      rw [cutAt_append, Bool.eq_false_iff]
      exact h

theorem stop_cutAt (stop : Bytes → Bool) : ∀ s : Bytes, (cutAt stop s).2 = [] ∨ stop (cutAt stop s).2 = true
  | [] => .inl rfl
  | b :: r => by
    rw [cutAt]
    split
    · rename_i h
      exact .inr h
    · exact stop_cutAt stop r

end Bytes

namespace TokenKind

def spelling? : TokenKind → Option Bytes
  | .lDoubleBrace => some [Byte.lbrace, Byte.lbrace]
  | .rDoubleBrace => some [Byte.rbrace, Byte.rbrace]
  | .lBracePercent => some [Byte.lbrace, Byte.percent]
  | .rBracePercent => some [Byte.percent, Byte.rbrace]
  | .lBracePound => some [Byte.lbrace, Byte.pound]
  | .rBracePound => some [Byte.pound, Byte.rbrace]
  | .lParen => some [Byte.lparen]
  | .rParen => some [Byte.rparen]
  | .comma => some [Byte.comma]
  | .bang => some [Byte.bang]
  | .notEq => some [Byte.bang, Byte.equals]
  | .eqEq => some [Byte.equals, Byte.equals]
  | .pipe => some [Byte.bar]
  | .tilde => some [Byte.tilde]
  | .and => some (utf8 "and")
  | .or => some (utf8 "or")
  | .if => some (utf8 "if")
  | .elseif => some (utf8 "elseif")
  | .else => some (utf8 "else")
  | .end => some (utf8 "end")
  | .true => some (utf8 "true")
  | .false => some (utf8 "false")
  | .switch => some (utf8 "switch")
  | .case => some (utf8 "case")
  | .identifier | .stringLiteral | .text | .comment | .eof | .error => none

def before : TokenKind → Mode
  | .lDoubleBrace | .lBracePercent | .lBracePound | .text => .outside
  | .rBracePound | .comment => .comment
  | _ => .tag

def after : TokenKind → Mode
  | .rDoubleBrace | .rBracePercent | .rBracePound | .text => .outside
  | .lBracePound | .comment => .comment
  | _ => .tag

def IsInside (k : TokenKind) : Prop := k.before = .tag ∧ k.after = .tag

theorem IsInside.of_eq {k l : TokenKind} (h : k = l) (hl : l.IsInside) : k.IsInside := h ▸ hl

theorem isInside_of_binOp? {k : TokenKind} {op : BinOp} (h : k.binOp? = some op) : k.IsInside := by
  cases k <;> cases h <;> exact ⟨rfl, rfl⟩

theorem mem_of_keyword? {w : Bytes} {k : TokenKind} (h : keyword? w = some k) : (w, k) ∈ keywords := by
  obtain ⟨l₁, l₂, hl, -⟩ := List.lookup_eq_some_iff.1 h
  rw [hl]
  exact List.mem_append_right l₁ List.mem_cons_self

end TokenKind

def Mode.afterAll (m : Mode) (ks : List TokenKind) : Mode := ks.foldl (fun _ k => k.after) m

@[simp] theorem Mode.afterAll_nil (m : Mode) : m.afterAll [] = m := rfl

@[simp] theorem Mode.afterAll_cons (m : Mode) (k : TokenKind) (ks : List TokenKind) :
    m.afterAll (k :: ks) = k.after.afterAll ks := rfl

/-- Text ends before `rest`: at a newline, or at an opener that does not start with the last byte of the text. -/
def Bytes.EndsAt (c rest : Bytes) : Prop :=
  rest = [] ∨ rest.head? = some Byte.newline ∨ (Mode.opensTag rest = true ∧ c.getLast? ≠ some Byte.lbrace)

namespace Lexeme

def erase (t : Lexeme) : Lexeme := ⟨t.kind, t.text, .zero⟩

def Spelled (t : Lexeme) : Prop :=
  match t.kind with
  | .identifier => t.text.isName = true ∧ TokenKind.keyword? t.text = none
  | .stringLiteral => ∃ body, t.text = Byte.quote :: (body ++ [Byte.quote]) ∧ Bytes.Clear Mode.endsString body []
  | .text => t.text ≠ [] ∧ Byte.newline ∉ t.text.tail ∧ Bytes.Clear Mode.opensTag t.text []
  | .comment => t.text ≠ [] ∧ Bytes.Clear Mode.endsComment t.text []
  | .error => True
  | .eof => False
  | k => k.spelling? = some t.text

/-- A token ends where `rest` starts: no longer token of its mode begins with the same bytes. -/
def StopsAt (t : Lexeme) (rest : Bytes) : Prop :=
  match t.kind with
  | .bang => rest.head? ≠ some Byte.equals
  | .text => Bytes.EndsAt t.text rest
  | .comment => Mode.endsComment rest = true ∧ rest.head? = some Byte.pound
  | .and | .or | .if | .elseif | .else | .end | .true | .false | .switch | .case | .identifier => Mode.endsWord rest = true
  | .error | .eof => False
  | _ => True

end Lexeme

namespace Mode

@[simp] theorem opensTag_singleton (b : UInt8) : opensTag [b] = false := by
  unfold opensTag
  split <;> simp_all

theorem opensTag_cons (b c : UInt8) (r : Bytes) : opensTag (b :: c :: r) =
    (b == Byte.lbrace && (c == Byte.lbrace || c == Byte.percent || c == Byte.pound)) := by
  unfold opensTag
  split
  · simp_all
  · simp_all
  · simp_all
  · by_cases hb : b = Byte.lbrace
    · subst hb
      simp_all
    · simp [hb]

@[simp] theorem endsComment_singleton (b : UInt8) : endsComment [b] = (b == Byte.newline) := by
  unfold endsComment
  split <;> simp_all

theorem endsComment_cons (b c : UInt8) (r : Bytes) :
    endsComment (b :: c :: r) = (b == Byte.newline || (b == Byte.pound && c == Byte.rbrace)) := by
  unfold endsComment
  split
  · simp_all
  · simp_all
  · by_cases hb : b = Byte.pound
    · subst hb
      simp_all
    · simp_all

/-! ## What may follow a token -/

theorem clear_endsText {v : Bytes} : ∀ {u : Bytes},
    Bytes.Clear endsText u v ↔ Byte.newline ∉ u ∧ Bytes.Clear opensTag u v
  | [] => by simp [Bytes.Clear]
  | b :: u => by
    rw [Bytes.Clear, Bytes.Clear, clear_endsText, endsText, List.head?_cons, Bool.or_eq_false_iff, List.mem_cons, not_or]
    simp only [beq_eq_false_iff_ne, ne_eq, Option.some.injEq, eq_comm (a := b)]
    exact ⟨fun h => ⟨⟨h.1.1, h.2.1⟩, h.1.2, h.2.2⟩, fun h => ⟨⟨h.1.1, h.2.1⟩, h.1.2, h.2.2⟩⟩

theorem clear_opensTag_nil {v : Bytes} : ∀ {u : Bytes}, Bytes.Clear opensTag u v → Bytes.Clear opensTag u []
  | [], _ => trivial
  | [b], _ => ⟨opensTag_singleton b, trivial⟩
  | b :: c :: u, ⟨hb, hu⟩ => by
    refine ⟨?_, clear_opensTag_nil hu⟩
    rw [List.cons_append, opensTag_cons] at hb ⊢
    exact hb

theorem clear_opensTag {rest : Bytes} : ∀ {u : Bytes}, Bytes.Clear opensTag u [] → Bytes.EndsAt u rest →
    Bytes.Clear opensTag u rest
  | [], _, _ => trivial
  | [b], _, h => by
    refine ⟨?_, trivial⟩
    cases rest with
    | nil => exact opensTag_singleton b
    | cons c rest =>
      rw [List.nil_append, opensTag_cons]
      rcases h with h | h | ⟨-, h⟩
      · cases h
      · rw [List.head?_cons, Option.some.injEq] at h
        subst h
        exact Bool.and_false _
      · have hne : (b == Byte.lbrace) = false := by simpa using h
        rw [hne, Bool.false_and]
  | b :: c :: u, ⟨hb, hc⟩, h => by
    refine ⟨?_, clear_opensTag hc (by simpa only [Bytes.EndsAt, List.getLast?_cons_cons] using h)⟩
    rw [List.cons_append, opensTag_cons] at hb ⊢
    exact hb

theorem getLast?_ne_of_clear {v : Bytes} (hv : opensTag v = true) : ∀ {u : Bytes}, Bytes.Clear opensTag u v →
    u.getLast? ≠ some Byte.lbrace
  | [], _ => by simp
  | [b], ⟨hb, _⟩ => by
    match v, hv with
    | c :: d :: v, hv =>
      rw [opensTag_cons, Bool.and_eq_true, beq_iff_eq] at hv
      rw [List.nil_append, opensTag_cons, hv.1] at hb
      simpa using hb
    | [c], hv => simp at hv
  | b :: c :: u, ⟨_, hc⟩ => by
    rw [List.getLast?_cons_cons]
    exact getLast?_ne_of_clear hv hc

theorem clear_endsComment {rest : Bytes} (h : rest.head? = some Byte.pound) : ∀ {u : Bytes},
    Bytes.Clear endsComment u [] → Bytes.Clear endsComment u rest
  | [], _ => trivial
  | [b], ⟨hb, _⟩ => by
    refine ⟨?_, trivial⟩
    cases rest with
    | nil => cases h
    | cons c rest =>
      rw [List.head?_cons, Option.some.injEq] at h
      subst h
      rw [List.append_nil, endsComment_singleton] at hb
      rw [List.nil_append, endsComment_cons, hb]
      exact Bool.and_false _
  | b :: c :: u, ⟨hb, hc⟩ => by
    refine ⟨?_, clear_endsComment h hc⟩
    rw [List.cons_append, endsComment_cons] at hb ⊢
    exact hb

theorem clear_endsComment_nil {v : Bytes} : ∀ {u : Bytes}, Bytes.Clear endsComment u v → Bytes.Clear endsComment u []
  | [], _ => trivial
  | [b], ⟨hb, _⟩ => by
    refine ⟨?_, trivial⟩
    rw [List.append_nil, endsComment_singleton]
    cases v with
    | nil => simpa using hb
    | cons c v =>
      rw [List.nil_append, endsComment_cons, Bool.or_eq_false_iff] at hb
      exact hb.1
  | b :: c :: u, ⟨hb, hu⟩ => by
    refine ⟨?_, clear_endsComment_nil hu⟩
    rw [List.cons_append, endsComment_cons] at hb ⊢
    exact hb

theorem clear_endsString {v w : Bytes} : ∀ {u : Bytes}, Bytes.Clear endsString u v → Bytes.Clear endsString u w
  | [], _ => trivial
  | _ :: _, ⟨hb, hu⟩ => ⟨hb, clear_endsString hu⟩

theorem clear_endsWord {v : Bytes} : ∀ {u : Bytes}, Bytes.Clear endsWord u v ↔ u.all Byte.isNamePart = true
  | [] => by simp [Bytes.Clear]
  | b :: u => by
    rw [Bytes.Clear, clear_endsWord, endsWord, Bool.not_eq_false', List.all_cons, Bool.and_eq_true]

/-! ## What is scanned -/

theorem scanOutside_of_opensTag {s : Bytes} (h : opensTag s = true) : ∃ k w r,
    (k = .lDoubleBrace ∨ k = .lBracePercent ∨ k = .lBracePound) ∧ k.spelling? = some w ∧
      scanOutside s = some ⟨k, w, r, k.after⟩ := by
  unfold opensTag at h
  split at h
  · rename_i r
    exact ⟨.lDoubleBrace, _, r, .inl rfl, rfl, rfl⟩
  · rename_i r
    exact ⟨.lBracePercent, _, r, .inr (.inl rfl), rfl, rfl⟩
  · rename_i r
    exact ⟨.lBracePound, _, r, .inr (.inr rfl), rfl, rfl⟩
  · cases h

theorem scanOutside_of_not_opensTag {b : UInt8} {r : Bytes} (h : opensTag (b :: r) = false) :
    scanOutside (b :: r) = some ⟨.text, b :: (Bytes.cutAt endsText r).1, (Bytes.cutAt endsText r).2, .outside⟩ := by
  unfold scanOutside
  split
  · rename_i heq
    cases heq
  · rename_i heq
    rw [heq] at h
    cases h
  · rename_i heq
    rw [heq] at h
    cases h
  · rename_i heq
    rw [heq] at h
    cases h
  · rename_i heq
    cases heq
    rfl

theorem clear_scanOutside {b : UInt8} {r : Bytes} (h : opensTag (b :: r) = false) :
    Bytes.Clear opensTag (b :: (Bytes.cutAt endsText r).1) (Bytes.cutAt endsText r).2 := by
  refine ⟨?_, (clear_endsText.1 (Bytes.clear_cutAt endsText r)).2⟩
  rw [Bytes.cutAt_append]
  exact h

theorem spelled_scanOutside {s : Bytes} {p : Piece} (h : scanOutside s = some p) :
    Lexeme.Spelled ⟨p.kind, p.text, .zero⟩ := by
  cases ho : opensTag s with
  | true =>
    obtain ⟨k, w, r, hk, hw, hs⟩ := scanOutside_of_opensTag ho
    rw [hs, Option.some.injEq] at h
    subst h
    rcases hk with rfl | rfl | rfl <;> exact hw
  | false =>
    cases s with
    | nil => cases h
    | cons b r =>
      rw [scanOutside_of_not_opensTag ho, Option.some.injEq] at h
      subst h
      exact ⟨List.cons_ne_nil _ _, (clear_endsText.1 (Bytes.clear_cutAt endsText r)).1,
        clear_opensTag_nil (clear_scanOutside ho)⟩

theorem spelled_scanString (r : Bytes) : Lexeme.Spelled ⟨(scanString r).kind, (scanString r).text, .zero⟩ := by
  unfold scanString
  split
  · exact ⟨_, rfl, clear_endsString (Bytes.clear_cutAt endsString r)⟩
  · trivial

theorem spelled_keyword {w : Bytes} {k : TokenKind} (h : TokenKind.keyword? w = some k) :
    Lexeme.Spelled ⟨k, w, .zero⟩ := by
  have hmem := TokenKind.mem_of_keyword? h
  simp only [TokenKind.keywords, List.mem_cons, Prod.mk.injEq, List.not_mem_nil, or_false] at hmem
  rcases hmem with h | h | h | h | h | h | h | h | h | h <;> obtain ⟨rfl, rfl⟩ := h <;> rfl

theorem spelled_scanWord {b : UInt8} (hb : Byte.isNameStart b = true) (r : Bytes) :
    Lexeme.Spelled ⟨(scanWord b r).kind, (scanWord b r).text, .zero⟩ := by
  simp only [scanWord]
  cases hk : TokenKind.keyword? (b :: (Bytes.cutAt endsWord r).1) with
  | some k => exact spelled_keyword hk
  | none =>
    refine ⟨?_, hk⟩
    rw [Bytes.isName, hb, Bool.true_and]
    exact clear_endsWord.1 (Bytes.clear_cutAt endsWord r)

theorem spelled_scanTag {s : Bytes} {p : Piece} (h : scanTag s = some p) : Lexeme.Spelled ⟨p.kind, p.text, .zero⟩ := by
  unfold scanTag at h
  split at h <;> cases h
  case h_12 r => exact spelled_scanString r
  case h_13 b r _ _ _ _ _ _ _ _ _ _ _ =>
    split
    · rename_i hb
      exact spelled_scanWord hb r
    · trivial
  all_goals rfl

theorem spelled_scanComment {s : Bytes} {p : Piece} (h : scanComment s = some p) :
    Lexeme.Spelled ⟨p.kind, p.text, .zero⟩ := by
  unfold scanComment at h
  split at h <;> cases h
  case h_2 => rfl
  case h_3 => trivial
  case h_4 b r h₁ h₂ =>
    refine ⟨List.cons_ne_nil _ _, clear_endsComment_nil (v := (Bytes.cutAt endsComment r).2) ⟨?_, ?_⟩⟩
    · rw [Bytes.cutAt_append]
      unfold endsComment
      split
      · simp_all
      · simp_all
      · rfl
    · exact Bytes.clear_cutAt endsComment r

/-- **Every scanned token is spelled as its kind demands.** -/
theorem spelled_scan {m : Mode} {s : Bytes} {p : Piece} (h : m.scan s = some p) :
    Lexeme.Spelled ⟨p.kind, p.text, .zero⟩ := by
  cases m with
  | outside => exact spelled_scanOutside h
  | tag => exact spelled_scanTag h
  | comment => exact spelled_scanComment h

theorem mode_keyword : ∀ x ∈ TokenKind.keywords, x.2.before = .tag ∧ x.2.after = .tag := by decide

theorem mode_scanTag {s : Bytes} {p : Piece} (h : scanTag s = some p) (hp : p.kind ≠ .error) :
    p.kind.before = .tag ∧ p.kind.after = p.mode := by
  unfold scanTag at h
  split at h <;> cases h
  case h_12 r =>
    unfold scanString at hp ⊢
    split
    · exact ⟨rfl, rfl⟩
    · rename_i hq
      split at hp
      · rename_i heq
        exact absurd heq (hq _)
      · exact absurd rfl hp
  case h_13 b r _ _ _ _ _ _ _ _ _ _ _ =>
    split
    · simp only [scanWord]
      cases hk : TokenKind.keyword? (b :: (Bytes.cutAt endsWord r).1) with
      | none => exact ⟨rfl, rfl⟩
      | some k => exact mode_keyword _ (TokenKind.mem_of_keyword? hk)
    · rename_i hb
      rw [if_neg hb] at hp
      exact absurd rfl hp
  all_goals exact ⟨rfl, rfl⟩

theorem mode_scan {m : Mode} {s : Bytes} {p : Piece} (h : m.scan s = some p) (hp : p.kind ≠ .error) :
    p.kind.before = m ∧ p.kind.after = p.mode := by
  cases m with
  | outside =>
    replace h : scanOutside s = some p := h
    unfold scanOutside at h
    split at h <;> cases h <;> exact ⟨rfl, rfl⟩
  | tag => exact mode_scanTag h hp
  | comment =>
    replace h : scanComment s = some p := h
    unfold scanComment at h
    split at h <;> cases h
    case h_3 => exact absurd rfl hp
    all_goals exact ⟨rfl, rfl⟩

/-! ## Scanning what is spelled -/

theorem scanTag_of_isNameStart {b : UInt8} (hb : Byte.isNameStart b = true) (r : Bytes) :
    scanTag (b :: r) = some (scanWord b r) := by
  unfold scanTag
  split
  case h_13 heq =>
    cases heq
    rw [if_pos hb]
  all_goals
    rename_i heq
    cases heq
    try exact absurd hb (by decide)

theorem scanTag_word {w rest : Bytes} (hw : w.isName = true) (hr : endsWord rest = true) :
    scanTag (w ++ rest) = some ⟨(TokenKind.keyword? w).getD .identifier, w, rest, .tag⟩ := by
  cases w with
  | nil => cases hw
  | cons b w =>
    rw [Bytes.isName, Bool.and_eq_true] at hw
    rw [List.cons_append, scanTag_of_isNameStart hw.1, scanWord,
      Bytes.cutAt_clear (.inr hr) (clear_endsWord.2 hw.2)]

theorem isName_keyword : ∀ x ∈ TokenKind.keywords, x.1.isName = true ∧ TokenKind.keyword? x.1 = some x.2 := by decide

theorem scanTag_keyword {k : TokenKind} {w rest : Bytes} (hw : (w, k) ∈ TokenKind.keywords)
    (hr : endsWord rest = true) : scanTag (w ++ rest) = some ⟨k, w, rest, .tag⟩ := by
  obtain ⟨hn, hk⟩ := isName_keyword _ hw
  rw [scanTag_word hn hr, hk]
  rfl

theorem scanTag_string {body : Bytes} (h : Bytes.Clear endsString body []) (rest : Bytes) :
    scanTag (Byte.quote :: (body ++ [Byte.quote]) ++ rest) =
      some ⟨.stringLiteral, Byte.quote :: (body ++ [Byte.quote]), rest, .tag⟩ := by
  have hq : endsString (Byte.quote :: rest) = true := rfl
  have hs : scanString (body ++ Byte.quote :: rest) =
      ⟨.stringLiteral, Byte.quote :: (body ++ [Byte.quote]), rest, .tag⟩ := by
    rw [scanString, Bytes.cutAt_clear (.inr hq) (clear_endsString h)]
    rfl
  rw [List.cons_append, List.append_assoc, List.singleton_append]
  exact congrArg some hs

theorem scanComment_of_not_endsComment {b : UInt8} {r : Bytes} (h : endsComment (b :: r) = false) :
    scanComment (b :: r) =
      some ⟨.comment, b :: (Bytes.cutAt endsComment r).1, (Bytes.cutAt endsComment r).2, .comment⟩ := by
  unfold scanComment
  split
  · rename_i heq
    cases heq
  · rename_i heq
    rw [heq] at h
    cases h
  · rename_i heq
    rw [heq] at h
    cases h
  · rename_i heq
    cases heq
    rfl

theorem scanTag_bang {rest : Bytes} (h : rest.head? ≠ some Byte.equals) :
    scanTag (Byte.bang :: rest) = some ⟨.bang, [Byte.bang], rest, .tag⟩ := by
  cases rest with
  | nil => rfl
  | cons b rest =>
    have hb : b ≠ Byte.equals := fun hb => h (by rw [hb]; rfl)
    unfold scanTag
    split
    case h_4 heq =>
      cases heq
      exact absurd rfl hb
    case h_6 heq =>
      cases heq
      rfl
    case h_13 => simp_all
    all_goals
      rename_i heq
      cases heq

/-- **A token is found where its bytes are followed by something that cannot go on with it.** -/
theorem scan_append {t : Lexeme} {rest : Bytes} (ht : t.Spelled) (hr : t.StopsAt rest) :
    t.kind.before.scan (t.text ++ rest) = some ⟨t.kind, t.text, rest, t.kind.after⟩ := by
  obtain ⟨k, w, pos⟩ := t
  cases k with
  | identifier =>
    have h := scanTag_word ht.1 hr
    rw [ht.2] at h
    exact h
  | stringLiteral =>
    obtain ⟨body, rfl, hb⟩ := ht
    exact scanTag_string hb rest
  | text =>
    obtain ⟨hne, hnl, ho⟩ := ht
    cases w with
    | nil => exact absurd rfl hne
    | cons b w =>
      obtain ⟨hb, hw⟩ := clear_opensTag ho hr
      have hend : rest = [] ∨ endsText rest = true := by
        rcases hr with hr | hr | hr
        · exact .inl hr
        · exact .inr (by rw [endsText, hr]; rfl)
        · exact .inr (by rw [endsText, hr.1, Bool.or_true])
      show scanOutside (b :: (w ++ rest)) = _
      have hcut := Bytes.cutAt_clear hend (clear_endsText.2 ⟨hnl, hw⟩)
      rw [List.tail_cons] at hcut
      rw [scanOutside_of_not_opensTag hb, hcut]
      rfl
  | comment =>
    obtain ⟨hne, hc⟩ := ht
    cases w with
    | nil => exact absurd rfl hne
    | cons b w =>
      obtain ⟨hb, hw⟩ := clear_endsComment hr.2 hc
      show scanComment (b :: (w ++ rest)) = _
      rw [scanComment_of_not_endsComment hb, Bytes.cutAt_clear (.inr hr.1) hw]
      rfl
  | bang =>
    cases ht
    exact scanTag_bang hr
  | and | or | «if» | «elseif» | «else» | «end» | true | false | switch | case =>
    refine scanTag_keyword ?_ hr
    cases ht
    dsimp only
    decide
  | error | eof => exact hr.elim
  | _ =>
    cases ht
    rfl

theorem skip_of_scan {m : Mode} {s : Bytes} {p : Piece} (h : m.scan s = some p) (hp : p.kind ≠ .error) :
    m.skip s = s := by
  cases m with
  | outside => rfl
  | comment => rfl
  | tag =>
    cases s with
    | nil => rfl
    | cons b r =>
      cases hb : Byte.isBlank b with
      | false => rw [skip, List.dropWhile_cons_of_neg (by rw [hb]; exact Bool.false_ne_true)]
      | true =>
        simp only [Byte.isBlank, Bool.or_eq_true, beq_iff_eq] at hb
        rcases hb with (rfl | rfl) | rfl <;> cases h <;> exact absurd rfl hp

end Mode
end Stencil
