import Stencil.Proofs.Grammar.Opened
import Stencil.Proofs.Grammar.Parse
/-!
# Calls — one parser, asked many times

A parser can be asked for templates and expressions in any order, after errors too.  Then it may stand in the middle of a
tag, and it goes on counting the constructs that were open at the errors, maybe more than `maxDepth` of them.  Every call
still ends within the tokens that are left, moves forward only, and gives the count back as it was, or higher after an
error; and an expression that is read is one of the grammar, with nothing behind it that would go on with it
(`Parser.calls_consistent`).
-/
namespace Stencil

/-! ## Fewer constructs around an expression -/

namespace Reading

variable {base b : Nat} {frames : List Frame} {level : Level} {t : Lexeme}

/-- A step that does not fail is also taken where fewer constructs are open around the expression. -/
def Step.Persists (s s' : Step) : Prop := (∃ e depth standing, s = .fail e depth standing) ∨ s' = s

theorem persists_fail {e : ParseError} {n : Nat} {standing : Standing} {s : Step} : (Step.fail e n standing).Persists s :=
  .inl ⟨e, n, standing, rfl⟩

theorem enter_persists (hb : b ≤ base) {pos : Position} {r : Reading} :
    (enter base pos r).Persists (enter b pos r) := by
  unfold enter
  split
  · exact persists_fail
  · rw [if_neg (by omega)]
    exact .inr rfl

theorem stepOperand_persists (hb : b ≤ base) :
    (stepOperand base level frames t).Persists (stepOperand b level frames t) := by
  unfold stepOperand
  split
  · exact enter_persists hb
  · exact enter_persists hb
  case h_7 => exact persists_fail
  all_goals exact .inr rfl

theorem stepEnd_persists {e : Expr} : (stepEnd base frames e t).Persists (stepEnd b frames e t) := by
  unfold stepEnd
  split
  case h_5 => exact persists_fail
  all_goals exact .inr rfl

theorem stepComplete_persists {pending : Option (Expr × BinOp)} {e : Expr} :
    (stepComplete base pending frames e t).Persists (stepComplete b pending frames e t) := by
  unfold stepComplete
  split
  · exact .inr rfl
  · split
    · exact .inr rfl
    · exact stepEnd_persists

theorem step_persists (hb : b ≤ base) (r : Reading) (t : Lexeme) : (r.step base t).Persists (r.step b t) := by
  obtain ⟨phase, level, frames⟩ := r
  cases phase with
  | operand => exact stepOperand_persists hb
  | complete e => exact stepComplete_persists
  | firstArg =>
    simp only [step, stepFirstArg]
    split
    · exact .inr rfl
    · exact stepOperand_persists hb
  | named x =>
    simp only [step, stepNamed]
    split
    · exact enter_persists hb
    · exact stepComplete_persists
  | function e =>
    simp only [step, stepFunction]
    split
    · exact .inr rfl
    · exact persists_fail

theorem after?_of_le (hb : b ≤ base) : ∀ {us : List Lexeme} {r r' : Reading}, r.after? base us = some r' →
    r.after? b us = some r'
  | [], _, _, h => h
  | t :: us, r, r', h => by
    rw [after?_cons, Option.bind_eq_some_iff] at h
    obtain ⟨r₁, hr, h⟩ := h
    have hstep : r.shift? b t = some r₁ := by
      rcases step_persists hb r t with ⟨e, n, standing, hf⟩ | hs
      · rw [shift?_eq_some, hf] at hr
        cases hr
      · rw [shift?_eq_some, hs]
        exact shift?_eq_some.1 hr
    rw [after?_cons, hstep]
    exact after?_of_le hb h

end Reading

open Grammar

theorem Grammar.SpellsReading.after {base : Nat} : ∀ {us ts : List Lexeme} {r r' : Reading}, SpellsReading base r ts →
    r.after? base us = some r' → SpellsReading base r' (ts ++ us)
  | [], _, _, _, h, hr => by
    cases hr
    rwa [List.append_nil]
  | t :: us, ts, r, r', h, hr => by
    rw [Reading.after?_cons, Option.bind_eq_some_iff] at hr
    obtain ⟨r₁, hs, hr⟩ := hr
    rw [List.append_cons]
    exact (h.shift (Reading.shift?_eq_some.1 hs)).after hr

/-- **An expression that is read is spelled by the tokens that were shifted**, however many constructs were counted before
it, and nests no deeper than these allow. -/
theorem Reading.spells_of_accept {base : Nat} {us : List Lexeme} {t : Lexeme} {r : Reading} {e : Expr}
    (h : start.after? base us = some r) (ha : r.step base t = .accept e) :
    SpellsExpr .or us e ∧ e.nesting ≤ maxDepth - base := by
  -- a parser may count more than `maxDepth` constructs; reading goes as if it counted just as many
  have hb : min base maxDepth ≤ base := Nat.min_le_left _ _
  have hacc : r.step (min base maxDepth) t = .accept e := by
    rcases step_persists hb r t with ⟨e', n, standing, hf⟩ | hs
    · rw [hf] at ha
      cases ha
    · rw [hs, ha]
  obtain ⟨hspell, hd⟩ := ((SpellsReading.start (Nat.min_le_right _ _)).after (after?_of_le hb h)).accept hacc
  exact ⟨hspell, by omega⟩

/-! ## Runs -/

/-- What a run leaves of a parser that counted `base` constructs and had `ts` in front of it. -/
structure Parser.Leaves {α : Type} (eof : Lexeme) (base : Nat) (ts : List Lexeme) (run : Except ParseError α × Parser) :
    Prop where
  eof_eq : run.2.eof = eof
  rest : run.2.rest <:+ ts
  balanced : ∀ a, run.1 = .ok a → run.2.depth = base
  counted : ∀ e, run.1 = .error e → base ≤ run.2.depth

namespace Parser

variable {α : Type} {eof t : Lexeme} {base depth : Nat} {ts us : List Lexeme} {e : ParseError} {standing : Standing}

theorem Leaves.mono {run : Except ParseError α × Parser} (h : Leaves eof base ts run) (hts : ts <:+ us) :
    Leaves eof base us run :=
  { h with rest := h.rest.trans hts }

theorem leaves_ok {a : α} (hd : depth = base) : Leaves eof base ts (.ok a, ⟨ts, eof, depth⟩) where
  eof_eq := rfl
  rest := List.suffix_refl ts
  balanced _ _ := hd
  counted _ h := nomatch h

theorem leaves_error (hd : base ≤ depth) (h : standingAt standing ts <:+ us) :
    @Leaves α eof base us (.error e, ⟨standingAt standing ts, eof, depth⟩) where
  eof_eq := rfl
  rest := h
  balanced _ h := nomatch h
  counted _ _ := hd

theorem Leaves.map {β : Type} {run : Except ParseError α × Parser} (h : Leaves eof base ts run) (f : α → β) :
    Leaves eof base ts (run.1.map f, run.2) := by
  obtain ⟨result, q⟩ := run
  cases result with
  | ok a => exact ⟨h.eof_eq, h.rest, fun _ _ => h.balanced a rfl, fun _ he => nomatch he⟩
  | error e => exact ⟨h.eof_eq, h.rest, fun _ ha => (nomatch ha), fun _ _ => h.counted e rfl⟩

theorem standingAt_suffix {opener? : Option Lexeme} (h : standing.Fits opener? t) (ts : List Lexeme) :
    standingAt standing ts <:+ opener?.toList ++ ts := by
  cases standing with
  | behind => exact (List.tail_suffix ts).trans (List.suffix_append _ _)
  | inFront => exact List.suffix_append _ _
  | atTag o =>
    rw [show opener? = some o from h]
    exact List.suffix_refl _

/-- **Nothing is left open where an expression is accepted.** -/
theorem framesDepth_of_accept {r : Reading} {a : Expr} (h : r.step base t = .accept a) :
    base + Reading.framesDepth r.frames = base := by
  rw [(Reading.step_eq_accept h).1, Reading.framesDepth, Nat.add_zero]

/-- **Nothing is left open where a template is accepted.** -/
theorem depth_of_accept {p : Progress} {tpl : Template} (h : p.step base t = .accept tpl) : base + p.depth = base := by
  obtain ⟨-, blocks, rfl, -⟩ := step_eq_accept h
  rfl

theorem runExpr_leaves (heof : eof.kind = .eof) : ∀ (ts : List Lexeme) (r : Reading),
    Leaves eof base ts (runExpr eof base r ts)
  | [], r => by
    have hr := r.step_keeps base eof
    rw [runExpr]
    split
    · rename_i heq
      exact leaves_ok (framesDepth_of_accept heq)
    · rename_i heq
      rw [heq] at hr
      exact leaves_error hr.1 (standingAt_suffix hr.2 [])
    · rename_i heq
      rw [heq] at hr
      exact absurd heof hr.1
  | t :: ts, r => by
    have hr := r.step_keeps base t
    rw [runExpr]
    split
    · exact (runExpr_leaves heof ts _).mono (List.suffix_cons t ts)
    · rename_i heq
      exact leaves_ok (framesDepth_of_accept heq)
    · rename_i heq
      rw [heq] at hr
      exact leaves_error hr.1 (standingAt_suffix hr.2 _)

/-- After an error, the opener of a tag may still be in front of the parser. -/
theorem runTemplate_leaves (heof : eof.kind = .eof) : ∀ (ts : List Lexeme) (p : Progress),
    Leaves eof base (p.place.opener?.toList ++ ts) (runTemplate eof base p ts)
  | [], p => by
    have hp := p.step_keeps base eof
    rw [runTemplate]
    split
    · rename_i heq
      exact (leaves_ok (depth_of_accept heq)).mono List.nil_suffix
    · rename_i heq
      rw [heq] at hp
      exact leaves_error hp.1 (standingAt_suffix hp.2 [])
    · rename_i heq
      rw [heq] at hp
      exact absurd heof hp.1
  | t :: ts, p => by
    have hp := p.step_keeps base t
    rw [runTemplate]
    split
    · rename_i q heq
      rw [heq] at hp
      obtain ⟨-, -, hopener⟩ := hp
      refine (runTemplate_leaves heof ts q).mono (List.IsSuffix.trans ?_ (List.suffix_append _ _))
      rcases hopener with ho | ho <;> rw [ho]
      · exact List.suffix_cons t ts
      · exact List.suffix_refl _
    · rename_i heq
      exact (leaves_ok (depth_of_accept heq)).mono (List.suffix_append _ _)
    · rename_i heq
      rw [heq] at hp
      exact leaves_error hp.1 (standingAt_suffix hp.2 _)

def next (p : Parser) : Lexeme := p.rest.headD p.eof

/-- **What an expression read in full says about the run**: some of the tokens were shifted, and the next one was
accepted. -/
theorem runExpr_ok {e : Expr} {q : Parser} : ∀ {ts : List Lexeme} {r : Reading}, runExpr eof base r ts = (.ok e, q) →
    ∃ us r', ts = us ++ q.rest ∧ r.after? base us = some r' ∧ r'.step base q.next = .accept e
  | [], r, h => by
    rw [runExpr] at h
    split at h
    · rename_i e' ha
      cases h
      exact ⟨[], r, rfl, rfl, ha⟩
    · cases h
    · cases h
  | t :: ts, r, h => by
    rw [runExpr] at h
    split at h
    · rename_i r₁ hr
      obtain ⟨us, r', rfl, hrun, hacc⟩ := runExpr_ok h
      refine ⟨t :: us, r', rfl, ?_, hacc⟩
      rw [Reading.after?_cons, Reading.shift?_eq_some.2 hr]
      exact hrun
    · rename_i e' ha
      cases h
      exact ⟨[], r, rfl, rfl, ha⟩
    · cases h

end Parser

/-! ## Calls -/

namespace Parser

inductive Request
  | template
  | expr

inductive Answer
  | template (t : Template)
  | expr (e : Expr)

def call (p : Parser) : Request → Except ParseError Answer × Parser
  | .template => (p.template.1.map .template, p.template.2)
  | .expr => (p.expr.1.map .expr, p.expr.2)

def after (p : Parser) (rs : List Request) : Parser := rs.foldl (fun p r => (p.call r).2) p

/-- How far a call has come. -/
inductive Reached
  | template (p : Progress)
  | expr (r : Reading)

namespace Reached

def start : Request → Reached
  | .template => .template .start
  | .expr => .expr .start

def shift? (base : Nat) : Reached → Lexeme → Option Reached
  | .template p, t => (p.shift? base t).map .template
  | .expr r, t => (r.shift? base t).map .expr

def depth : Reached → Nat
  | .template p => p.depth
  | .expr r => r.depth

def opened : Reached → List Position
  | .template p => p.opened
  | .expr r => r.opened

theorem length_opened : ∀ c : Reached, c.opened.length = c.depth
  | .template p => p.length_opened
  | .expr r => r.length_opened

/-- **What one token does in a call.** -/
theorem shift?_keeps : ∀ {c c' : Reached}, c.shift? base t = some c' → t.kind ≠ .eof ∧ Nests c.opened c'.opened
  | .template p, c', h => by
    obtain ⟨q, hq, rfl⟩ := Option.map_eq_some_iff.1 h
    have hp := p.step_keeps base t
    rw [Progress.shift?_eq_some.1 hq] at hp
    exact ⟨hp.1, hp.2.1⟩
  | .expr r, c', h => by
    obtain ⟨r', hr', rfl⟩ := Option.map_eq_some_iff.1 h
    have hr := r.step_keeps base t
    rwa [Reading.shift?_eq_some.1 hr'] at hr

end Reached

/-- How far a call comes with tokens that are all shifted. -/
def reached? (p : Parser) (r : Request) (us : List Lexeme) : Option Reached := us.foldlM (Reached.shift? p.depth) (.start r)

theorem reached?_append {p : Parser} {r : Request} {vs : List Lexeme} :
    p.reached? r (us ++ vs) = (p.reached? r us).bind (vs.foldlM (Reached.shift? p.depth)) := List.foldlM_append

theorem reached?_snoc {p : Parser} {r : Request} {c : Reached} :
    p.reached? r (us ++ [t]) = some c ↔ ∃ c₀, p.reached? r us = some c₀ ∧ c₀.shift? p.depth t = some c := by
  rw [reached?_append, Option.bind_eq_some_iff]
  simp

/-- Tokens that are not all shifted are split at the first one that is not. -/
theorem exists_stop {p : Parser} {r : Request} : ∀ {vs us : List Lexeme}, (p.reached? r us).isSome →
    p.reached? r (us ++ vs) = none →
    ∃ us' k vs', us ++ vs = us' ++ k :: vs' ∧ (p.reached? r us').isSome ∧ p.reached? r (us' ++ [k]) = none
  | [], us, hs, hn => by
    rw [List.append_nil] at hn
    rw [hn] at hs
    cases hs
  | k :: vs, us, hs, hn => by
    cases hk : p.reached? r (us ++ [k]) with
    | none => exact ⟨us, k, vs, rfl, hs, hk⟩
    | some c =>
      rw [List.append_cons] at hn ⊢
      exact exists_stop (by rw [hk]; rfl) hn

/-- **A call ends within the tokens that are left**, at their end at the latest. -/
theorem exists_stop_of_eof {p : Parser} (r : Request) (heof : p.eof.kind = .eof) :
    ∃ us k vs, p.rest ++ [p.eof] = us ++ k :: vs ∧ (p.reached? r us).isSome ∧ p.reached? r (us ++ [k]) = none := by
  have hstart : (p.reached? r []).isSome := rfl
  -- the end is never shifted
  have hend : p.reached? r ([] ++ (p.rest ++ [p.eof])) = none := by
    refine Option.eq_none_iff_forall_ne_some.2 fun c hc => ?_
    obtain ⟨c₀, -, hshift⟩ := reached?_snoc.1 hc
    exact (Reached.shift?_keeps hshift).1 heof
  obtain ⟨us, k, vs, hsplit, hstop⟩ := exists_stop hstart hend
  exact ⟨us, k, vs, hsplit, hstop⟩

theorem call_leaves {p : Parser} (r : Request) (heof : p.eof.kind = .eof) : Leaves p.eof p.depth p.rest (p.call r) := by
  cases r with
  | template => exact (runTemplate_leaves heof p.rest .start).map Answer.template
  | expr => exact (runExpr_leaves heof p.rest .start).map Answer.expr

theorem after_suffix : ∀ (rs : List Request) {p : Parser}, p.eof.kind = .eof →
    (p.after rs).eof = p.eof ∧ (p.after rs).rest <:+ p.rest
  | [], _, _ => ⟨rfl, List.suffix_refl _⟩
  | r :: rs, p, heof => by
    have hcall := call_leaves r heof
    obtain ⟨heq, hsuffix⟩ := after_suffix rs (p := (p.call r).2) (by rw [hcall.eof_eq]; exact heof)
    exact ⟨heq.trans hcall.eof_eq, hsuffix.trans hcall.rest⟩

theorem call_expr {p : Parser} {r : Request} {e : Expr} (h : (p.call r).1 = .ok (.expr e)) :
    r = .expr ∧ p.expr.1 = .ok e := by
  cases r with
  | template =>
    simp only [call] at h
    cases ht : p.template.1 <;> rw [ht] at h <;> cases h
  | expr =>
    simp only [call] at h
    cases he : p.expr.1 <;> rw [he] at h <;> cases h
    exact ⟨rfl, rfl⟩

/-- **A parser stays consistent over any calls.**  After any requests on a parser of a source, whatever came of them, one
more call ends at one of the tokens that are left, or at their end; it does not move back and leaves the end where it is;
it gives the count of open constructs back as it found it, or no lower after an error, since on the way a construct is
closed only where it was opened in the call.  An expression that is read is spelled by the tokens between the parser
before and after, nests no deeper than the count leaves room for, and no pipe or operator comes after it. -/
theorem calls_consistent (s : Bytes) (rs : List Request) (r : Request) :
    let p := (ofSource s).after rs
    let q := (p.call r).2
    (∃ us k vs, p.rest ++ [p.eof] = us ++ k :: vs ∧ (p.reached? r us).isSome ∧ p.reached? r (us ++ [k]) = none) ∧
    (p.rest <:+ Lexeme.ofSource s ∧ q.rest <:+ p.rest ∧ q.eof = (ofSource s).eof) ∧
    (∀ a, (p.call r).1 = .ok a → q.depth = p.depth) ∧ (∀ e, (p.call r).1 = .error e → p.depth ≤ q.depth) ∧
    (∀ us t c, p.reached? r (us ++ [t]) = some c → ∃ c₀, p.reached? r us = some c₀ ∧ c.opened.length = c.depth ∧
      (c.opened <:+ c₀.opened ∨ ∃ pos, c.opened = pos :: c₀.opened)) ∧
    ∀ e, (p.call r).1 = .ok (.expr e) → ∃ us, p.rest = us ++ q.rest ∧ SpellsExpr .or us e ∧
      e.nesting ≤ maxDepth - p.depth ∧ q.next.kind ≠ .pipe ∧ q.next.kind.binOp? = none := by
  intro p q
  obtain ⟨heof, hrest⟩ := after_suffix rs (p := ofSource s) rfl
  have hkind : p.eof.kind = .eof := by rw [heof]; rfl
  have hleaves := call_leaves r hkind
  refine ⟨exists_stop_of_eof r hkind, ⟨hrest, hleaves.rest, hleaves.eof_eq.trans heof⟩, hleaves.balanced,
    hleaves.counted, fun us t c hc => ?_, fun e he => ?_⟩
  · obtain ⟨c₀, hc₀, hshift⟩ := reached?_snoc.1 hc
    exact ⟨c₀, hc₀, c.length_opened, (Reached.shift?_keeps hshift).2⟩
  · obtain ⟨rfl, hexpr⟩ := call_expr he
    obtain ⟨us, r', hus, hrun, hacc⟩ := runExpr_ok (Prod.ext hexpr rfl)
    obtain ⟨hspell, hd⟩ := Reading.spells_of_accept hrun hacc
    obtain ⟨-, hpipe, hop, -⟩ := Reading.step_eq_accept hacc
    exact ⟨us, hus, hspell, hd, hpipe, hop⟩

/-- A parser that has failed in a parenthesis. -/
def inParen : Parser := (ofSource (utf8 "{{ (a b | f }}")).after [.template]

/-- It goes on with an expression there, and still counts the parenthesis. -/
theorem calls_consistent_inParen : inParen.depth = 1 ∧ (inParen.call .expr).2.depth = 1 ∧
    ∃ us, inParen.rest = us ++ (inParen.call .expr).2.rest ∧
      SpellsExpr .or us (.pipe (.var ⟨utf8 "b", ⟨0, 6⟩⟩) ⟨utf8 "f", ⟨0, 10⟩⟩) := by
  have hdepth : inParen.depth = 1 := by cbv
  have hcall : (inParen.call .expr).1 = .ok (.expr (.pipe (.var ⟨utf8 "b", ⟨0, 6⟩⟩) ⟨utf8 "f", ⟨0, 10⟩⟩)) := by cbv
  obtain ⟨-, -, hbalanced, -, -, hexpr⟩ := calls_consistent (utf8 "{{ (a b | f }}") [.template] .expr
  obtain ⟨us, hus, hspell, -⟩ := hexpr _ hcall
  exact ⟨hdepth, (hbalanced _ hcall).trans hdepth, us, hus, hspell⟩

end Parser
end Stencil
