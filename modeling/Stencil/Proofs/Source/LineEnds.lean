import Stencil.Proofs.RoundTrip
/-!
# LineEnds — what a comparison blind to line ends can tell

A comparison that takes no notice of how line ends are written cannot confuse a source with its canonical form: blanks
inside tags are never next to a newline, and the white space that formatting takes out from in front of the cases of a
switch is followed by a tag (`Leads`).  So a source is in canonical form as soon as it is up to line ends
(`Template.print_eq_of_sameUpToLineEnds`).
-/
namespace Stencil

namespace Bytes

theorem normalizeNewlines_cons (b : UInt8) (s : Bytes) : normalizeNewlines (b :: s) =
    if b = Byte.carriageReturn ∧ s.head? = some Byte.newline then normalizeNewlines s
    else b :: normalizeNewlines s := by
  cases s with
  | nil => simp [normalizeNewlines]
  | cons c r =>
    by_cases h : b = Byte.carriageReturn ∧ c = Byte.newline
    · obtain ⟨rfl, rfl⟩ := h
      rw [if_pos ⟨rfl, rfl⟩]
      cases r with
      | nil => rfl
      | cons d r =>
        have hne : Byte.newline = Byte.carriageReturn → d = Byte.newline → False := fun h => absurd h (by decide)
        exact (normalizeNewlines.eq_3 (d :: r)).trans (normalizeNewlines.eq_4 _ _ _ hne).symm
    · rw [if_neg (by simpa using h), normalizeNewlines]
      simpa using h

theorem normalizeNewlines_cons_of_ne {b : UInt8} (hb : b ≠ Byte.carriageReturn) (s : Bytes) :
    normalizeNewlines (b :: s) = b :: normalizeNewlines s := by
  rw [normalizeNewlines_cons, if_neg fun h => hb h.1]

theorem head?_normalizeNewlines_of_space {b : UInt8} (hb : Byte.isSpace b = true) (s : Bytes) :
    ∃ c, (normalizeNewlines (b :: s)).head? = some c ∧ Byte.isSpace c = true := by
  rw [normalizeNewlines_cons]
  split
  · rename_i h
    obtain ⟨r, rfl⟩ := List.head?_eq_some_iff.1 h.2
    rw [normalizeNewlines_cons_of_ne (by decide)]
    exact ⟨Byte.newline, rfl, rfl⟩
  · exact ⟨b, rfl, hb⟩

theorem normalizeNewlines_ne_of_space {b : UInt8} (hb : Byte.isSpace b = true) {o : Bytes}
    (ho : o = [] ∨ o.head? = some Byte.lbrace) (s : Bytes) : normalizeNewlines (b :: s) ≠ normalizeNewlines o := by
  intro h
  obtain ⟨c, hc, hspace⟩ := head?_normalizeNewlines_of_space hb s
  rw [h] at hc
  rcases ho with rfl | ho
  · cases hc
  · obtain ⟨r, rfl⟩ := List.head?_eq_some_iff.1 ho
    rw [normalizeNewlines_cons_of_ne (by decide)] at hc
    cases hc
    cases hspace

theorem normalizeNewlines_append_cancel {x y : Bytes} : ∀ {w : Bytes},
    normalizeNewlines (w ++ x) = normalizeNewlines (w ++ y) → normalizeNewlines x = normalizeNewlines y
  | [], h => h
  | b :: c :: w, h => by
    rw [List.cons_append, List.cons_append, List.cons_append, List.cons_append, normalizeNewlines_cons,
      normalizeNewlines_cons b] at h
    by_cases hb : b = Byte.carriageReturn ∧ c = Byte.newline
    · rw [if_pos (by simpa using hb), if_pos (by simpa using hb)] at h
      exact normalizeNewlines_append_cancel (w := c :: w) h
    · rw [if_neg (by simpa using hb), if_neg (by simpa using hb), List.cons.injEq] at h
      exact normalizeNewlines_append_cancel (w := c :: w) h.2
  | [b], h => by
    -- one carriage return may be dropped and the other kept only if a newline equals a carriage return
    have hnewline : ∀ {u : Bytes}, u.head? = some Byte.newline → (normalizeNewlines u).head? = some Byte.newline := by
      intro u hu
      obtain ⟨r, rfl⟩ := List.head?_eq_some_iff.1 hu
      rw [normalizeNewlines_cons_of_ne (by decide)]
      rfl
    rw [List.singleton_append, List.singleton_append, normalizeNewlines_cons, normalizeNewlines_cons b] at h
    split at h <;> split at h
    · exact h
    · rename_i hx _
      have hhead := hnewline hx.2
      rw [h, hx.1] at hhead
      cases hhead
    · rename_i _ hy
      have hhead := hnewline hy.2
      rw [← h, hy.1] at hhead
      cases hhead
    · exact (List.cons.inj h).2

theorem normalizeNewlines_blanks {g s : Bytes} (hg : ∀ b ∈ g, Byte.isBlank b = true)
    (hs : s.head? ≠ some Byte.newline) : normalizeNewlines (g ++ s) = g ++ normalizeNewlines s := by
  induction g with
  | nil => rfl
  | cons b g ih =>
    have hg' : ∀ b ∈ g, Byte.isBlank b = true := fun c hc => hg c (List.mem_cons_of_mem b hc)
    have hne : (g ++ s).head? ≠ some Byte.newline := by
      cases g with
      | nil => exact hs
      | cons c g =>
        rintro h
        have hc := hg' c List.mem_cons_self
        rw [Option.some.inj h] at hc
        cases hc
    rw [List.cons_append, normalizeNewlines_cons, if_neg fun h => hne h.2, ih hg', List.cons_append]

theorem blanks_eq_of_normalizeNewlines {g g' x y : Bytes} {b : UInt8} (hg : ∀ c ∈ g, Byte.isBlank c = true)
    (hg' : ∀ c ∈ g', Byte.isBlank c = true) (hb : Byte.isBlank b = false) (hn : b ≠ Byte.newline)
    (h : normalizeNewlines (g ++ b :: x) = normalizeNewlines (g' ++ b :: y)) : g = g' := by
  have hhead : ∀ r : Bytes, (b :: r).head? ≠ some Byte.newline := fun r hr => hn (Option.some.inj hr)
  have hcr : b ≠ Byte.carriageReturn := by
    rintro rfl
    cases hb
  rw [normalizeNewlines_blanks hg (hhead x), normalizeNewlines_blanks hg' (hhead y),
    normalizeNewlines_cons_of_ne hcr, normalizeNewlines_cons_of_ne hcr] at h
  have htake := congrArg (List.takeWhile Byte.isBlank) h
  rwa [List.takeWhile_append_of_pos hg, List.takeWhile_append_of_pos hg', List.takeWhile_cons_of_neg (by simp [hb]),
    List.takeWhile_cons_of_neg (by simp [hb]), List.append_nil, List.append_nil] at htake

end Bytes

/-! ## In front of the cases of a switch -/

open Grammar (IsBlank)

/-- Tokens lead from one spot to another, and nothing but blank text stands between the tag of a switch and the tag
after it. -/
inductive Leads : Spot → List Lexeme → Spot → Prop
  | nil {p : Spot} : Leads p [] p
  | cons {p q : Spot} {t : Lexeme} {ts : List Lexeme} : (p = .beforeCases → IsBlank t ∨ t.kind = .lBracePercent) →
      Leads (p.after t.kind) ts q → Leads p (t :: ts) q

namespace Leads

variable {p q r : Spot} {t : Lexeme} {ts us : List Lexeme}

theorem append (h : Leads p ts q) (h' : Leads q us r) : Leads p (ts ++ us) r := by
  induction h with
  | nil => exact h'
  | cons hp _ ih => exact .cons hp (ih h')

theorem cons_kind {k : TokenKind} (ht : t.kind = k) (hp : p ≠ .beforeCases) (h : Leads (p.after k) ts q) :
    Leads p (t :: ts) q := .cons (fun hb => absurd hb hp) (ht ▸ h)

theorem blanks (h : ∀ t ∈ ts, IsBlank t) : Leads .beforeCases ts .beforeCases := by
  induction ts with
  | nil => exact .nil
  | cons t ts ih =>
    have ht := h t List.mem_cons_self
    refine .cons (fun _ => .inl ht) ?_
    rw [ht.1]
    exact ih fun u hu => h u (List.mem_cons_of_mem t hu)

theorem stay (hp : p ≠ .beforeCases) (h : ∀ t ∈ ts, p.after t.kind = p) : Leads p ts p := by
  induction ts with
  | nil => exact .nil
  | cons t ts ih =>
    refine .cons (fun hb => absurd hb hp) ?_
    rw [h t List.mem_cons_self]
    exact ih fun u hu => h u (List.mem_cons_of_mem t hu)

theorem inside (hp : p = .elsewhere ∨ p = .switchTag) (h : ∀ t ∈ ts, t.kind.IsInside) : Leads p ts p := by
  rcases hp with rfl | rfl
  · exact stay Spot.noConfusion fun t ht => (Spot.after_of_isInside (h t ht)).1
  · exact stay Spot.noConfusion fun t ht => (Spot.after_of_isInside (h t ht)).2

theorem beforeCases (ht : t.kind = .lBracePercent) (h : Leads .elsewhere (t :: ts) q) :
    Leads .beforeCases (t :: ts) q := by
  cases h with
  | cons _ h =>
    refine .cons (fun _ => .inr ht) ?_
    rw [ht] at h ⊢
    exact h

theorem map_erase (h : Leads p ts q) : Leads p (ts.map Lexeme.erase) q := by
  induction h with
  | nil => exact .nil
  | cons hp _ ih => exact .cons hp ih

theorem head?_withoutBlanks (h : Leads .beforeCases ts q) :
    ∀ t ∈ (withoutBlanks .beforeCases ts).head?, t.kind = .lBracePercent := by
  induction ts with
  | nil => exact fun t ht => by cases ht
  | cons t ts ih =>
    cases h with
    | cons hp h =>
      rw [withoutBlanks]
      by_cases hb : IsBlank t
      · rw [if_pos ⟨rfl, hb⟩]
        rw [hb.1] at h ⊢
        exact ih h
      · rw [if_neg fun hb' => hb hb'.2]
        intro u hu
        cases hu
        exact (hp rfl).resolve_left hb

end Leads

namespace Grammar

theorem SpellsEnd.leads {vs : List Lexeme} (h : SpellsEnd vs) : Leads .elsewhere vs .elsewhere := by
  cases h with
  | mk ho hw hc =>
    exact .cons_kind ho Spot.noConfusion (.cons_kind hw Spot.noConfusion (.cons_kind hc Spot.noConfusion .nil))

theorem SpellsCases.leads_beforeCases {us vs : List Lexeme} {cs : List (List Expr × List Block)}
    (hcs : SpellsCases us cs) (he : SpellsEnd vs) (h : Leads .elsewhere (us ++ vs) .elsewhere) :
    Leads .beforeCases (us ++ vs) .elsewhere := by
  cases hcs with
  | nil =>
    cases he with
    | mk ho => exact h.beforeCases ho
  | cons ho => exact h.beforeCases ho

theorem SpellsExpr.leads {p : Stratum} {ts : List Lexeme} {e : Expr} (h : SpellsExpr p ts e) :
    Leads .elsewhere ts .elsewhere := .inside (.inl rfl) h.inside

mutual

theorem SpellsBlock.leads : ∀ {ts : List Lexeme} {b : Block}, SpellsBlock ts b → Leads .elsewhere ts .elsewhere
  | _, _, .text ht => .cons_kind ht Spot.noConfusion .nil
  | _, _, .comment ho ht hc =>
    .cons_kind ho Spot.noConfusion (.cons_kind ht Spot.noConfusion (.cons_kind hc Spot.noConfusion .nil))
  | _, _, .emptyComment ho hc => .cons_kind ho Spot.noConfusion (.cons_kind hc Spot.noConfusion .nil)
  | _, _, .render ho he hc =>
    .cons_kind ho Spot.noConfusion (he.leads.append (.cons_kind hc Spot.noConfusion .nil))
  | _, _, .cond ho hb hbs he =>
    .cons_kind ho Spot.noConfusion ((hb.leads rfl).append (hbs.leads.append he.leads))
  | _, _, .condElse ho hb hbs hp hw hc hbody he =>
    .cons_kind ho Spot.noConfusion ((hb.leads rfl).append (hbs.leads.append (.cons_kind hp Spot.noConfusion
      (.cons_kind hw Spot.noConfusion (.cons_kind hc Spot.noConfusion (hbody.leads.append he.leads))))))
  | _, _, .switch ho hw hv hc hws hcs he =>
    have hcases := hcs.leads_beforeCases he (hcs.leads.append he.leads)
    .cons_kind ho Spot.noConfusion (.cons_kind hw Spot.noConfusion ((Leads.inside (.inr rfl) hv.inside).append
      (.cons_kind hc Spot.noConfusion ((Leads.blanks hws).append hcases))))

theorem SpellsBlocks.leads : ∀ {ts : List Lexeme} {bs : List Block}, SpellsBlocks ts bs → Leads .elsewhere ts .elsewhere
  | _, _, .nil => .nil
  | _, _, .cons hb hbs => hb.leads.append hbs.leads

theorem SpellsBranch.leads : ∀ {k : TokenKind} {ts : List Lexeme} {b : Expr × List Block}, SpellsBranch k ts b →
    Spot.opened.after k = .elsewhere → Leads .opened ts .elsewhere
  | _, _, _, .mk hw he hc hbody, hk =>
    .cons_kind hw Spot.noConfusion (hk ▸ he.leads.append (.cons_kind hc Spot.noConfusion hbody.leads))

theorem SpellsElseifs.leads : ∀ {ts : List Lexeme} {bs : List (Expr × List Block)}, SpellsElseifs ts bs →
    Leads .elsewhere ts .elsewhere
  | _, _, .nil => .nil
  | _, _, .cons ho hb hbs => .cons_kind ho Spot.noConfusion ((hb.leads rfl).append hbs.leads)

theorem SpellsCases.leads : ∀ {ts : List Lexeme} {cs : List (List Expr × List Block)}, SpellsCases ts cs →
    Leads .elsewhere ts .elsewhere
  | _, _, .nil => .nil
  | _, _, .cons ho hw hps hc hbody hcs =>
    .cons_kind ho Spot.noConfusion (.cons_kind hw Spot.noConfusion ((Leads.inside (.inl rfl) hps.inside).append
      (.cons_kind hc Spot.noConfusion (hbody.leads.append hcs.leads))))

end

end Grammar

/-! ## A source and its canonical form -/

namespace Mode

theorem head_of_scanTag {s : Bytes} {p : Piece} (h : tag.scan (tag.skip s) = some p) (hp : p.kind ≠ .error) :
    ∃ b w, p.text = b :: w ∧ Byte.isBlank b = false ∧ b ≠ Byte.newline := by
  obtain ⟨b, w, hw⟩ := List.exists_cons_of_ne_nil (text_append_rest h).1
  have hs : tag.skip s = b :: (w ++ p.rest) := by
    rw [← (text_append_rest h).2, hw]
    rfl
  refine ⟨b, w, hw, ?_, ?_⟩
  · have hd := List.head?_dropWhile_not Byte.isBlank s
    rw [show s.dropWhile Byte.isBlank = b :: (w ++ p.rest) from hs] at hd
    exact hd
  · rintro rfl
    have hstray : p = ⟨.error, [Byte.newline], w ++ p.rest, .tag⟩ := Option.some.inj ((hs ▸ h).symm.trans rfl)
    rw [hstray] at hp
    exact hp rfl

theorem head?_of_words {s : Bytes} (h : ∀ t ∈ (outside.words s).head?, t.kind = .lBracePercent) :
    s = [] ∨ s.head? = some Byte.lbrace := by
  cases hs : outside.scan (outside.skip s) with
  | none => exact .inl (eq_nil_of_scan hs)
  | some p =>
    rw [words_of_scan hs] at h
    have htext := (spelled_scan hs).text_eq (h _ rfl) rfl
    have happ : p.text ++ p.rest = s := (text_append_rest hs).2
    rw [show p.text = _ from htext] at happ
    exact .inr (happ ▸ rfl)

theorem normalizeNewlines_of_end {m : Mode} {s : Bytes} (h : m.scan (m.skip s) = none) : s.normalizeNewlines = s := by
  have hblank : ∀ b ∈ s, Byte.isBlank b = true := fun b hb => (of_mem_gap (gap_of_end h ▸ hb)).2
  have hs := Bytes.normalizeNewlines_blanks (s := []) hblank (by simp)
  rwa [List.append_nil, Bytes.normalizeNewlines, List.append_nil] at hs

/-- In front of the same token stand the same blanks, and behind it is what is the same up to line ends. -/
theorem gap_eq_of_normalizeNewlines {m : Mode} {s o : Bytes} {x y : Piece} (hs : m.scan (m.skip s) = some x)
    (ho : m.scan (m.skip o) = some y) (hx : x.kind ≠ .error) (htext : x.text = y.text)
    (h : s.normalizeNewlines = o.normalizeNewlines) :
    m.gap s = m.gap o ∧ x.rest.normalizeNewlines = y.rest.normalizeNewlines := by
  rw [← gap_append_text hs, ← gap_append_text ho, ← htext] at h
  have hgap : m.gap s = m.gap o := by
    cases m with
    | outside | comment => rfl
    | tag =>
      obtain ⟨b, w, hw, hb, hn⟩ := head_of_scanTag hs hx
      rw [hw] at h
      exact Bytes.blanks_eq_of_normalizeNewlines (fun c hc => (of_mem_gap hc).2) (fun c hc => (of_mem_gap hc).2) hb hn h
  rw [hgap] at h
  exact ⟨hgap, Bytes.normalizeNewlines_append_cancel (Bytes.normalizeNewlines_append_cancel h)⟩

/-- **Nothing but line ends is the same up to line ends**: a source and what is left of it when the blanks of tags are
written anew and the white space in front of cases is taken out are equal if they differ only in their line ends. -/
theorem eq_of_normalizeNewlines : ∀ (s : Bytes) {m : Mode} {p q : Spot} {o : Bytes},
    (∀ t ∈ m.words s, t.kind ≠ .error) → Leads p (m.words s) q → m.words o = withoutBlanks p (m.words s) →
      s.normalizeNewlines = o.normalizeNewlines → s = o := by
  intro s m p q o herr hleads hwords hnorm
  cases hs : m.scan (m.skip s) with
  | none =>
    -- nothing but blanks on both sides
    rw [words_of_end hs, withoutBlanks] at hwords
    cases ho : m.scan (m.skip o) with
    | none => rwa [normalizeNewlines_of_end hs, normalizeNewlines_of_end ho] at hnorm
    | some y =>
      rw [words_of_scan ho] at hwords
      cases hwords
  | some x =>
    have hlt := length_rest_lt hs
    rw [words_of_scan hs] at herr hleads hwords
    have hx : x.kind ≠ .error := herr _ List.mem_cons_self
    obtain ⟨hbefore, hafter⟩ := mode_scan hs hx
    cases hleads with
    | cons _ hleads =>
      rw [withoutBlanks] at hwords
      split at hwords
      · -- white space in front of the cases: what is left starts with a tag
        rename_i hdrop
        obtain ⟨rfl, hkind, hblank⟩ := hdrop
        dsimp only at hkind hblank
        rw [hkind] at hbefore hafter hleads hwords
        subst hbefore
        rw [← hafter] at hleads hwords
        obtain ⟨b, w, hw⟩ := List.exists_cons_of_ne_nil (text_append_rest hs).1
        have hb : Byte.isSpace b = true := List.all_eq_true.1 hblank b (hw ▸ List.mem_cons_self)
        have hsw : s = b :: (w ++ x.rest) := by
          rw [← gap_append_text hs, hw]
          rfl
        have ho := head?_of_words (hwords ▸ hleads.head?_withoutBlanks)
        exact absurd (hsw ▸ hnorm) (Bytes.normalizeNewlines_ne_of_space hb ho _)
      · -- the same token is next on both sides
        cases ho : m.scan (m.skip o) with
        | none =>
          rw [words_of_end ho] at hwords
          cases hwords
        | some y =>
          rw [words_of_scan ho, List.cons.injEq, Lexeme.mk.injEq] at hwords
          obtain ⟨⟨hkind, htext, -⟩, hwords⟩ := hwords
          have hmode : y.mode = x.mode := by rw [← hafter, ← (mode_scan ho (hkind ▸ hx)).2, hkind]
          rw [hmode] at hwords
          obtain ⟨hgap, hrest⟩ := gap_eq_of_normalizeNewlines hs ho hx htext.symm hnorm
          have hsame := eq_of_normalizeNewlines x.rest (fun t ht => herr t (List.mem_cons_of_mem _ ht)) hleads hwords hrest
          rw [← gap_append_text hs, ← gap_append_text ho, hgap, htext, hsame]
termination_by s => s.length

end Mode

namespace Template

/-- **A source is in canonical form as soon as it is up to line ends.** -/
theorem print_eq_of_sameUpToLineEnds {s : Bytes} {t : Template} (h : parse s = .ok t)
    (hsame : t.print.sameUpToLineEnds s = true) : t.print = s := by
  obtain ⟨hb, -⟩ := parse_eq_ok.1 h
  obtain ⟨us, hkeeps, -, hwords⟩ := words_print h
  rw [Bytes.sameUpToLineEnds, beq_iff_eq] at hsame
  refine (Mode.eq_of_normalizeNewlines s (m := .outside) (p := .elsewhere) (q := .elsewhere) ?_ ?_ ?_ hsame.symm).symm
  · intro t ht
    rw [← Lexeme.map_erase_ofSource] at ht
    obtain ⟨x, hx, rfl⟩ := List.mem_map.1 ht
    exact (Grammar.kind_ne_of_proper hb.proper hx).2
  · rw [← Lexeme.map_erase_ofSource]
    exact hb.leads.map_erase
  · rw [← Lexeme.map_erase_ofSource, ← Lexeme.map_erase_ofSource, withoutBlanks_map_erase, hwords, hkeeps.eq]

end Template
end Stencil
