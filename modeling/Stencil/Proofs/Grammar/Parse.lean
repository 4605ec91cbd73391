import Mathlib
import Stencil.Proofs.Grammar.Body
import Stencil.Proofs.Grammar.Progress
import Stencil.Proofs.Source.Words
/-!
# Parse — the parser against the grammar

Reading tokens as a template succeeds exactly when the grammar spells a template with them that nests no deeper than
allowed (`Parser.runTemplate_iff`), so tokens spell at most one such template (`SpellsBlocks.unique`).
`Template.parse_iff` says the same of sources.
-/
namespace Stencil

/-- Whether a token of this kind may stand in a template: neither the end of a source nor what is no token. -/
def TokenKind.isProper (k : TokenKind) : Bool := k != .eof && k != .error

namespace Grammar

def proper (ts : List Lexeme) : Bool := ts.all (·.kind.isProper)

@[simp] theorem proper_nil : proper [] = true := rfl

@[simp] theorem proper_cons (t : Lexeme) (ts : List Lexeme) :
    proper (t :: ts) = (t.kind.isProper && proper ts) := rfl

@[simp] theorem proper_append (ts us : List Lexeme) : proper (ts ++ us) = (proper ts && proper us) := List.all_append

mutual

theorem SpellsExpr.proper : ∀ {p : Stratum} {ts : List Lexeme} {e : Expr}, SpellsExpr p ts e → proper ts = true
  | _, _, _, .var h => by simp [h, TokenKind.isProper]
  | _, _, _, .string h => by simp [h, TokenKind.isProper]
  | _, _, _, .true h => by simp [h, TokenKind.isProper]
  | _, _, _, .false h => by simp [h, TokenKind.isProper]
  | _, _, _, .paren ho he hc => by simp [ho, hc, he.proper, TokenKind.isProper]
  | _, _, _, .emptyCall hf ho hc => by simp [hf, ho, hc, TokenKind.isProper]
  | _, _, _, .call hf ho hes hc => by simp [hf, ho, hc, hes.proper, TokenKind.isProper]
  | _, _, _, .not ht he => by simp [ht, he.proper, TokenKind.isProper]
  | _, _, _, .pipe he hb hf => by simp [hb, hf, he.proper, TokenKind.isProper]
  | _, _, _, @SpellsExpr.binary _ _ o _ _ _ _ _ _ _ hl ho hr => by
    have hk : o.kind.isProper = true := by
      cases hk : o.kind <;> rw [hk] at ho <;> first | rfl | cases ho
    simp [hk, hl.proper, hr.proper]
  | _, _, _, .tighter _ he => he.proper

theorem SpellsExprs.proper : ∀ {ts : List Lexeme} {es : List Expr}, SpellsExprs ts es → proper ts = true
  | _, _, .one he => he.proper
  | _, _, .cons he hc hes => by simp [hc, he.proper, hes.proper, TokenKind.isProper]

end

theorem SpellsEnd.proper {ts : List Lexeme} : SpellsEnd ts → proper ts = true
  | .mk ho hw hc => by simp [ho, hw, hc, TokenKind.isProper]

theorem proper_blanks {ws : List Lexeme} (h : ∀ t ∈ ws, IsBlank t) : proper ws = true :=
  List.all_eq_true.2 fun t ht => by rw [(h t ht).1]; rfl

mutual

theorem SpellsBlock.proper : ∀ {ts : List Lexeme} {b : Block}, SpellsBlock ts b → proper ts = true
  | _, _, .text ht => by simp [ht, TokenKind.isProper]
  | _, _, .comment ho ht hc => by simp [ho, ht, hc, TokenKind.isProper]
  | _, _, .emptyComment ho hc => by simp [ho, hc, TokenKind.isProper]
  | _, _, .render ho he hc => by simp [ho, hc, he.proper, TokenKind.isProper]
  | _, _, .cond ho hb hbs he => by simp [ho, hb.proper rfl, hbs.proper, he.proper, TokenKind.isProper]
  | _, _, .condElse ho hb hbs hp hw hc hbody he => by
    simp [ho, hp, hw, hc, hb.proper rfl, hbs.proper, hbody.proper, he.proper, TokenKind.isProper]
  | _, _, .switch ho hw hv hc hws hcs he => by
    simp [ho, hw, hc, hv.proper, proper_blanks hws, hcs.proper, he.proper, TokenKind.isProper]

theorem SpellsBlocks.proper : ∀ {ts : List Lexeme} {bs : List Block}, SpellsBlocks ts bs → proper ts = true
  | _, _, .nil => rfl
  | _, _, .cons hb hbs => by simp [hb.proper, hbs.proper]

theorem SpellsBranch.proper : ∀ {word : TokenKind} {ts : List Lexeme} {b : Expr × List Block}, SpellsBranch word ts b →
    word.isProper = true → proper ts = true
  | _, _, _, .mk hw he hc hbody, h => by
    rw [proper_cons, hw, h]
    simp [hc, he.proper, hbody.proper, TokenKind.isProper]

theorem SpellsElseifs.proper : ∀ {ts : List Lexeme} {bs : List (Expr × List Block)}, SpellsElseifs ts bs →
    proper ts = true
  | _, _, .nil => rfl
  | _, _, .cons ho hb hbs => by simp [ho, hb.proper rfl, hbs.proper, TokenKind.isProper]

theorem SpellsCases.proper : ∀ {ts : List Lexeme} {cs : List (List Expr × List Block)}, SpellsCases ts cs →
    proper ts = true
  | _, _, .nil => rfl
  | _, _, .cons ho hw hps hc hbody hcs => by
    simp [ho, hw, hc, hps.proper, hbody.proper, hcs.proper, TokenKind.isProper]

end

theorem kind_ne_of_proper {ts : List Lexeme} {t : Lexeme} (h : proper ts = true) (ht : t ∈ ts) :
    t.kind ≠ .eof ∧ t.kind ≠ .error := by
  have hk := List.all_eq_true.1 h t ht
  simpa [TokenKind.isProper] using hk

end Grammar

open Grammar

/-- **A template is read from exactly the tokens that spell it**, when it nests no deeper than allowed. -/
theorem Parser.runTemplate_iff {eof : Lexeme} {base : Nat} {ts : List Lexeme} {tpl : Template}
    (heof : eof.kind = .eof) (hts : ∀ t ∈ ts, t.kind ≠ .eof) (hbase : base ≤ maxDepth) :
    (runTemplate eof base .start ts).1 = .ok tpl ↔ SpellsBlocks ts tpl ∧ base + tpl.nesting ≤ maxDepth := by
  constructor
  · intro h
    obtain ⟨us, vs, p, rfl, hrun, hacc⟩ := runTemplate_ok (Prod.ext h rfl)
    obtain ⟨hkind, -⟩ := step_eq_accept hacc
    -- only the end of the tokens is accepted, so nothing is left over
    have hvs : vs = [] := by
      cases vs with
      | nil => rfl
      | cons v vs => exact absurd hkind (hts v (List.mem_append_right us List.mem_cons_self))
    rw [hvs, List.append_nil]
    exact ((SpellsProgress.start hbase).after hrun).accept hacc
  · rintro ⟨hb, hd⟩
    have hrun := hb.read base [] [] [] (show base + 0 + Block.nestingList tpl ≤ maxDepth from hd)
    rw [List.append_nil, List.append_nil, Progress.after?_nil] at hrun
    have hstep : Progress.step base ⟨.body, tpl.reverse, []⟩ eof = .accept tpl := by
      simp only [Progress.step, Progress.stepBody, heof, List.reverse_reverse]
    rw [← List.append_nil ts, Progress.start, runTemplate_append hrun, runTemplate, hstep]

/-- **Tokens spell at most one template** that nests no deeper than allowed. -/
theorem Grammar.SpellsBlocks.unique {ts : List Lexeme} {b c : Template} (hb : SpellsBlocks ts b)
    (hc : SpellsBlocks ts c) (hbd : b.nesting ≤ maxDepth) (hcd : c.nesting ≤ maxDepth) : b = c := by
  have heof : (⟨.eof, [], .zero⟩ : Lexeme).kind = .eof := rfl
  have hts : ∀ t ∈ ts, t.kind ≠ .eof := fun t ht => (kind_ne_of_proper hb.proper ht).1
  have h₁ := (Parser.runTemplate_iff heof hts (Nat.zero_le maxDepth)).2 ⟨hb, by omega⟩
  have h₂ := (Parser.runTemplate_iff heof hts (Nat.zero_le maxDepth)).2 ⟨hc, by omega⟩
  rw [h₁, Except.ok.injEq] at h₂
  exact h₂

namespace Template

theorem parse_eq_ok {s : Bytes} {t : Template} :
    parse s = .ok t ↔ SpellsBlocks (Lexeme.ofSource s) t ∧ t.nesting ≤ maxDepth := by
  have heof : ((LineIndex.ofSource s).lexeme (.eof s.length)).kind = .eof := rfl
  have hts : ∀ t ∈ Lexeme.ofSource s, t.kind ≠ .eof := fun _ => Lexeme.kind_ne_eof
  have h := @Parser.runTemplate_iff _ _ _ t heof hts (Nat.zero_le maxDepth)
  rwa [Nat.zero_add] at h

theorem exists_of_map_eq_ok {s : Bytes} {α : Type} {f : Template → α} {a : α} (h : (parse s).map f = .ok a) :
    ∃ t, parse s = .ok t ∧ f t = a := by
  cases hp : parse s with
  | error e =>
    rw [hp] at h
    cases h
  | ok t =>
    rw [hp] at h
    exact ⟨t, rfl, Except.ok.inj h⟩

/-- **The parser accepts exactly its grammar, and builds the grammar's tree.**  No source with a token that the scanner
could not make sense of is accepted. -/
theorem parse_iff (s : Bytes) :
    (∀ t, parse s = .ok t ↔ SpellsBlocks (Lexeme.ofSource s) t ∧ t.nesting ≤ maxDepth) ∧
      ∀ x ∈ Lexeme.ofSource s, x.kind = .error → ∃ e, parse s = .error e := by
  refine ⟨fun _ => parse_eq_ok, fun x hx hk => ?_⟩
  cases h : parse s with
  | error e => exact ⟨e, rfl⟩
  | ok t =>
    obtain ⟨hb, -⟩ := parse_eq_ok.1 h
    exact absurd hk (kind_ne_of_proper hb.proper hx).2

/-- A pipe binds more tightly than any operator, `~` more tightly than `==`; a stray `^` is rejected. -/
theorem parse_iff_at_operators :
    (SpellsBlocks (Lexeme.ofSource (utf8 "{{ a ~ b | f == !c }}")) [.render (.binary .eq
      (.binary .concat (.var ⟨utf8 "a", ⟨0, 3⟩⟩) (.pipe (.var ⟨utf8 "b", ⟨0, 7⟩⟩) ⟨utf8 "f", ⟨0, 11⟩⟩))
      (.not (.var ⟨utf8 "c", ⟨0, 17⟩⟩) ⟨0, 16⟩))]) ∧
    ⟨.error, [0x5E], ⟨0, 5⟩⟩ ∈ Lexeme.ofSource (utf8 "{{ a ^ b }}") ∧
    ∃ e, parse (utf8 "{{ a ^ b }}") = .error e := by
  have hx : ⟨.error, [0x5E], ⟨0, 5⟩⟩ ∈ Lexeme.ofSource (utf8 "{{ a ^ b }}") := by decide_cbv
  refine ⟨(((parse_iff _).1 _).1 ?_).1, hx, (parse_iff _).2 _ hx rfl⟩
  cbv

end Template
end Stencil
