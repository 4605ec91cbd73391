import Mathlib
import Stencil.Proofs.Soundness
/-!
# Alarms — a problem that is found is a problem that is met

All problems that analysis finds in one expression, but for the comparison of two bare names, are alarms.  None of them
is false: where something is wrong with an expression of which a type is wanted, it has no value of that type in any
scope (`Expr.ty_ne_of_alarming`).  So rendering fails whenever it comes to such an expression
(`Reaches.writeList_eq_error`).

The argument goes against the evaluation.  What a value of an expression says about the values of its parts
(`Expr.eval_binary_eq_ok`, `Expr.eval_call_eq_ok`) leaves no room for any of the alarms.
-/
namespace Stencil

/-- A problem inside one expression; that two bare names are compared is none. -/
def Finding.IsAlarm : Finding → Prop
  | .usage .. => False
  | .problem (.crossVar ..) _ => False
  | .problem .. => True

def Alarming (fs : List Finding) : Prop := ∃ x ∈ fs, x.IsAlarm

theorem alarming_append {fs gs : List Finding} : Alarming (fs ++ gs) ↔ Alarming fs ∨ Alarming gs := by
  simp only [Alarming, List.mem_append, or_and_right, exists_or]

theorem not_alarming_nil : ¬ Alarming [] := fun ⟨_, hx, _⟩ => by cases hx

theorem not_alarming_usage {name : Bytes} {ty : Ty} {p : Position} : ¬ Alarming [.usage name ty p] := fun ⟨x, hx, ha⟩ => by
  rw [List.mem_singleton.1 hx] at ha
  exact ha

theorem not_alarming_crossVar {x y : Bytes} {p : Position} : ¬ Alarming [.problem (.crossVar x y) p] := fun ⟨z, hz, ha⟩ => by
  rw [List.mem_singleton.1 hz] at ha
  exact ha

theorem ne_of_alarming_check {got want : Ty} {p : Position} (h : Alarming (Finding.check got (some want) p)) :
    got ≠ want := by
  rintro rfl
  rw [Finding.check, if_pos rfl] at h
  exact not_alarming_nil h

theorem ne_of_alarming_checkSides {l r : Ty} {p : Position} (h : Alarming (Finding.checkSides l r p)) : l ≠ r := by
  rintro rfl
  rw [Finding.checkSides, if_pos rfl] at h
  exact not_alarming_nil h

theorem ne_of_alarming_checkArgCount {f : Ident} {want got : Nat} (h : Alarming (Finding.checkArgCount f want got)) :
    want ≠ got := by
  rintro rfl
  rw [Finding.checkArgCount, if_pos rfl] at h
  exact not_alarming_nil h

/-! ## What a value says about the values of the parts -/

/-- All registered functions give values of their result types for arguments of their parameter types. -/
def Registry.ResultsTyped (r : Registry) : Prop :=
  ∀ {name : Bytes} {b : Builtin}, r.find? name = some b → ∀ vs : List Value, vs.map Value.ty = b.params →
    (b.run vs).ty = b.result

theorem Registry.Sound.resultsTyped {r : Registry} (h : r.Sound) : r.ResultsTyped := fun hb => (h hb).result

def Expr.Yields (s : Scope) (e : Expr) (ty : Ty) : Prop := ∃ v, e.eval s = .ok v ∧ v.ty = ty

def BinOp.resultTy : BinOp → Ty
  | .concat => .string
  | .eq | .ne | .and | .or => .bool

def BinOp.operandTy? : BinOp → Option Ty
  | .concat => some .string
  | .and | .or => some .bool
  | .eq | .ne => none

/-- **An operator takes operands of one type**, its own where it has one. -/
theorem BinOp.apply_eq_ok {op : BinOp} {a b v : Value} {p : Position} (h : op.apply a b p = .ok v) :
    v.ty = op.resultTy ∧ a.ty = b.ty ∧ ∀ ty, op.operandTy? = some ty → a.ty = ty := by
  cases op <;> cases a <;> cases b <;> cases h <;> exact ⟨rfl, rfl, fun _ ht => by cases ht <;> rfl⟩

variable {s : Scope}

theorem Expr.eval_not_eq_ok {e : Expr} {p : Position} {v : Value} (h : (Expr.not e p).eval s = .ok v) :
    e.Yields s .bool ∧ v.ty = .bool := by
  rw [Expr.eval] at h
  cases he : e.eval s with
  | error err =>
    rw [he] at h
    cases h
  | ok u =>
    rw [he] at h
    cases u with
    | string => cases h
    | bool b =>
      cases h
      exact ⟨⟨.bool b, he, rfl⟩, rfl⟩

theorem Expr.eval_binary_eq_ok {op : BinOp} {l r : Expr} {v : Value} (h : (Expr.binary op l r).eval s = .ok v) :
    ∃ a b, l.eval s = .ok a ∧ r.eval s = .ok b ∧ op.apply a b l.pos = .ok v := by
  rw [Expr.eval] at h
  cases hl : l.eval s with
  | error err =>
    rw [hl] at h
    cases h
  | ok a =>
    rw [hl] at h
    cases hr : r.eval s with
    | error err =>
      rw [hr] at h
      cases h
    | ok b =>
      rw [hr] at h
      exact ⟨a, b, rfl, rfl, h⟩

theorem Value.asArgument_eq_ok {v w : Value} {n : Nat} {func : Bytes} {want : Ty} {p : Position}
    (h : v.asArgument n func want p = .ok w) : v = w ∧ v.ty = want := by
  rw [Value.asArgument] at h
  split at h
  · rename_i hty
    cases h
    exact ⟨rfl, hty⟩
  · cases h

theorem Expr.evalArgs_eq_ok {func : Bytes} : ∀ {n : Nat} {es : List Expr} {params : List Ty} {vs : List Value},
    params.length = es.length → Expr.evalArgs s func n es params = .ok vs →
      vs.map Value.ty = params ∧ List.Forall₂ (Expr.Yields s) es params
  | _, [], [], _, _, h => by
    cases h
    exact ⟨rfl, .nil⟩
  | n, e :: es, want :: params, vs, hl, h => by
    rw [Expr.evalArgs] at h
    cases he : e.eval s with
    | error err =>
      rw [he] at h
      cases h
    | ok v =>
      rw [he] at h
      dsimp only at h
      cases ha : v.asArgument n func want e.pos with
      | error err =>
        rw [ha] at h
        cases h
      | ok w =>
        obtain ⟨rfl, hty⟩ := Value.asArgument_eq_ok ha
        rw [ha] at h
        dsimp only at h
        cases hes : Expr.evalArgs s func (n + 1) es params with
        | error err =>
          rw [hes] at h
          cases h
        | ok ws =>
          rw [hes] at h
          cases h
          obtain ⟨hws, hall⟩ := Expr.evalArgs_eq_ok (Nat.succ.inj hl) hes
          exact ⟨by rw [List.map_cons, hty, hws], .cons ⟨v, he, hty⟩ hall⟩

/-- **A call with a value calls a function with arguments of its parameter types.** -/
theorem Expr.eval_call_eq_ok {f : Ident} {args : List Expr} {v : Value} (h : (Expr.call f args).eval s = .ok v) :
    ∃ b vs, s.registry.find? f.name = some b ∧ b.params.length = args.length ∧
      List.Forall₂ (Expr.Yields s) args b.params ∧ vs.map Value.ty = b.params ∧ v = b.run vs := by
  rw [Expr.eval] at h
  cases hb : s.callee f args.length with
  | error err =>
    rw [hb] at h
    cases h
  | ok b =>
    obtain ⟨hfind, hlen⟩ := Scope.callee_eq_ok hb
    rw [hb] at h
    dsimp only at h
    cases hes : Expr.evalArgs s f.name 1 args b.params with
    | error err =>
      rw [hes] at h
      cases h
    | ok vs =>
      rw [hes] at h
      cases h
      obtain ⟨hvs, hall⟩ := Expr.evalArgs_eq_ok hlen hes
      exact ⟨b, vs, hfind, hlen, hall, hvs, rfl⟩

/-! ## Types without names -/

/-- **The type of an expression that does not depend on names is the type of its value**, also where something is wrong
with its parts. -/
theorem Expr.ty_of_staticTy? (hr : s.registry.ResultsTyped) : ∀ {e : Expr} {ty : Ty} {v : Value},
    e.staticTy? s.registry = some ty → e.eval s = .ok v → v.ty = ty
  | .lit l _, ty, v, ht, h => by
    cases ht
    cases h
    exact l.ty_value
  | .not e p, ty, v, ht, h => by
    cases ht
    exact (Expr.eval_not_eq_ok h).2
  | .binary op l r, ty, v, ht, h => by
    obtain ⟨a, b, -, -, hv⟩ := Expr.eval_binary_eq_ok h
    rw [(BinOp.apply_eq_ok hv).1]
    cases op <;> cases ht <;> rfl
  | .paren e _, ty, v, ht, h => Expr.ty_of_staticTy? (e := e) hr ht h
  | .call f args, ty, v, ht, h => by
    obtain ⟨b, vs, hb, -, -, hvs, rfl⟩ := Expr.eval_call_eq_ok h
    rw [Expr.staticTy?, hb] at ht
    cases ht
    exact hr hb vs hvs
  | .pipe a f, ty, v, ht, h => by
    rw [Expr.eval_pipe] at h
    obtain ⟨b, vs, hb, -, -, hvs, rfl⟩ := Expr.eval_call_eq_ok h
    rw [Expr.staticTy?, hb] at ht
    cases ht
    exact hr hb vs hvs

/-- An expression that has a value, but no type without names, is a bare name: nothing is wrong with it. -/
theorem Expr.not_alarming_of_staticTy?_eq_none : ∀ {e : Expr} {want : Option Ty} {v : Value},
    e.staticTy? s.registry = none → e.eval s = .ok v → ¬ Alarming (e.findings s.registry want)
  | .var x, some ty, _, _, _ => not_alarming_usage
  | .var x, none, _, _, _ => not_alarming_nil
  | .binary op _ _, _, _, ht, _ => by cases op <;> cases ht
  | .paren e _, want, v, ht, h => Expr.not_alarming_of_staticTy?_eq_none (e := e) ht h
  | .call f args, want, v, ht, h => by
    obtain ⟨b, -, hb, -⟩ := Expr.eval_call_eq_ok h
    rw [Expr.staticTy?, hb] at ht
    cases ht
  | .pipe a f, want, v, ht, h => by
    rw [Expr.eval_pipe] at h
    obtain ⟨b, -, hb, -⟩ := Expr.eval_call_eq_ok h
    rw [Expr.staticTy?, hb] at ht
    cases ht

/-! ## Expressions -/

/-- **Two sides that can be compared raise no alarm**, given that neither side raises one at the type of its value. -/
theorem Expr.not_alarming_comparison (hr : s.registry.ResultsTyped) {op : BinOp} (hop : op = .eq ∨ op = .ne)
    {l r : Expr} {a b : Value} {w : Ty} (hl : l.eval s = .ok a) (hr' : r.eval s = .ok b) (hab : a.ty = b.ty)
    (hw : w = .bool) (ihl : ¬ Alarming (l.findings s.registry (some a.ty)))
    (ihr : ¬ Alarming (r.findings s.registry (some b.ty))) :
    ¬ Alarming ((Expr.binary op l r).findings s.registry (some w)) := by
  have hsl : ∀ ty, l.staticTy? s.registry = some ty → a.ty = ty := fun ty h => Expr.ty_of_staticTy? hr h hl
  have hsr : ∀ ty, r.staticTy? s.registry = some ty → b.ty = ty := fun ty h => Expr.ty_of_staticTy? hr h hr'
  rcases hop with rfl | rfl
  all_goals
    rw [Expr.findings, alarming_append]
    rintro (h | h)
    · split at h
      · rename_i x y hx hy
        rw [alarming_append, alarming_append, ← hsl x hx, ← hsr y hy] at h
        rcases h with (h | h) | h
        · exact ne_of_alarming_checkSides h hab
        · exact ihl h
        · exact ihr h
      · rename_i x hx hy
        rw [alarming_append, ← hsl x hx] at h
        exact h.elim ihl (hab ▸ ihr)
      · rename_i y hx hy
        rw [alarming_append, ← hsr y hy] at h
        exact h.elim (hab ▸ ihl) ihr
      · rename_i hx hy
        split at h
        · exact not_alarming_crossVar h
        · rw [alarming_append] at h
          exact h.elim (Expr.not_alarming_of_staticTy?_eq_none hx hl) (Expr.not_alarming_of_staticTy?_eq_none hy hr')
    · exact ne_of_alarming_check h hw.symm

mutual

/-- **An expression raises no alarm at the type of its value.** -/
theorem Expr.not_alarming_of_eval (hr : s.registry.ResultsTyped) : ∀ (e : Expr) {v : Value}, e.eval s = .ok v →
    ¬ Alarming (e.findings s.registry (some v.ty))
  | .lit l _, v, h => by
    cases h
    exact fun ha => ne_of_alarming_check ha l.ty_value.symm
  | .var _, _, _ => not_alarming_usage
  | .not e p, v, h => by
    obtain ⟨⟨u, hu, hty⟩, hv⟩ := Expr.eval_not_eq_ok h
    have ih := Expr.not_alarming_of_eval hr e hu
    rw [hty] at ih
    rw [Expr.findings, alarming_append, hv]
    exact fun ha => ha.elim ih fun ha => ne_of_alarming_check ha rfl
  | .binary op l r, v, h => by
    obtain ⟨a, b, hl, hr', hv⟩ := Expr.eval_binary_eq_ok h
    obtain ⟨hty, hab, hop⟩ := BinOp.apply_eq_ok hv
    have ihl := Expr.not_alarming_of_eval hr l hl
    have ihr := Expr.not_alarming_of_eval hr r hr'
    cases op with
    | eq => exact Expr.not_alarming_comparison hr (.inl rfl) hl hr' hab hty ihl ihr
    | ne => exact Expr.not_alarming_comparison hr (.inr rfl) hl hr' hab hty ihl ihr
    | and | or | concat =>
      rw [← hab, hop _ rfl] at ihr
      rw [hop _ rfl] at ihl
      rw [Expr.findings, alarming_append, alarming_append, hty]
      rintro ((ha | ha) | ha)
      · exact ihl ha
      · exact ihr ha
      · exact ne_of_alarming_check ha rfl
  | .paren e _, v, h => Expr.not_alarming_of_eval hr e h
  | .call f args, v, h => by
    obtain ⟨b, vs, hb, hlen, hargs, hvs, rfl⟩ := Expr.eval_call_eq_ok h
    rw [Expr.findings, hb]
    dsimp only
    rw [alarming_append, alarming_append, hr hb vs hvs]
    rintro ((ha | ha) | ha)
    · exact ne_of_alarming_checkArgCount ha hlen
    · exact Expr.not_alarming_of_args hr args hargs ha
    · exact ne_of_alarming_check ha rfl
  | .pipe a f, v, h => by
    rw [Expr.eval_pipe] at h
    obtain ⟨b, vs, hb, hlen, hargs, hvs, rfl⟩ := Expr.eval_call_eq_ok h
    rw [Expr.findings, hb]
    dsimp only
    rw [alarming_append, alarming_append, hr hb vs hvs]
    rintro ((ha | ha) | ha)
    · exact ne_of_alarming_checkArgCount ha hlen
    · generalize b.params = params at hargs ha
      cases hargs with
      | cons harg =>
        obtain ⟨u, hu, rfl⟩ := harg
        exact Expr.not_alarming_of_eval hr a hu ha
    · exact ne_of_alarming_check ha rfl

theorem Expr.not_alarming_of_args (hr : s.registry.ResultsTyped) : ∀ (es : List Expr) {params : List Ty},
    List.Forall₂ (Expr.Yields s) es params → ¬ Alarming (Expr.findingsArgs s.registry es params)
  | [], _, _ => not_alarming_nil
  | e :: es, _, .cons he hes => by
    obtain ⟨v, hv, rfl⟩ := he
    rw [Expr.findingsArgs, alarming_append]
    exact fun ha => ha.elim (Expr.not_alarming_of_eval hr e hv) (Expr.not_alarming_of_args hr es hes)

end

/-- **An expression that raises an alarm has no value of the type that is wanted of it.** -/
theorem Expr.ty_ne_of_alarming (hr : s.registry.ResultsTyped) {e : Expr} {w : Ty} {v : Value}
    (h : Alarming (e.findings s.registry (some w))) (hv : e.eval s = .ok v) : v.ty ≠ w := by
  rintro rfl
  exact Expr.not_alarming_of_eval hr e hv h

/-! ## Blocks -/

theorem Expr.output_eq_error (hr : s.registry.ResultsTyped) {e : Expr}
    (h : Alarming (e.findings s.registry (some .string))) : ∃ err, e.output s = .error err := by
  rw [Expr.output]
  cases hv : e.eval s with
  | error err => exact ⟨err, rfl⟩
  | ok v =>
    cases v with
    | string b => exact absurd rfl (Expr.ty_ne_of_alarming hr h hv)
    | bool b => exact ⟨_, rfl⟩

theorem Expr.holds_eq_error (hr : s.registry.ResultsTyped) {e : Expr}
    (h : Alarming (e.findings s.registry (some .bool))) : ∃ err, e.holds s = .error err := by
  rw [Expr.holds]
  cases hv : e.eval s with
  | error err => exact ⟨err, rfl⟩
  | ok v =>
    cases v with
    | string b => exact ⟨_, rfl⟩
    | bool b => exact absurd rfl (Expr.ty_ne_of_alarming hr h hv)

variable {σ : Type} {sink : Sink σ}

def NoneHolds (s : Scope) (branches : List (Expr × List Block)) : Prop := ∀ b ∈ branches, b.1.holds s = .ok false

/-- Rendering blocks comes to an expression, of which it needs a value of a type. -/
inductive Reaches (sink : Sink σ) (s : Scope) : List Block → σ → Expr → Ty → Prop
  | render {e : Expr} {bs : List Block} {st : σ} : Reaches sink s (.render e :: bs) st e .string
  | cond {before more : List (Expr × List Block)} {c : Expr} {body : List Block} {otherwise : Option (List Block)}
      {p : Position} {bs : List Block} {st : σ} (hb : NoneHolds s before) :
      Reaches sink s (.cond (before ++ (c, body) :: more) otherwise p :: bs) st c .bool
  | branch {before more : List (Expr × List Block)} {c e : Expr} {body : List Block} {otherwise : Option (List Block)}
      {p : Position} {bs : List Block} {st : σ} {ty : Ty} (hb : NoneHolds s before) (hc : c.holds s = .ok true)
      (h : Reaches sink s body st e ty) :
      Reaches sink s (.cond (before ++ (c, body) :: more) otherwise p :: bs) st e ty
  | otherwise {branches : List (Expr × List Block)} {e : Expr} {body : List Block} {p : Position} {bs : List Block}
      {st : σ} {ty : Ty} (hb : NoneHolds s branches) (h : Reaches sink s body st e ty) :
      Reaches sink s (.cond branches (some body) p :: bs) st e ty
  | next {b : Block} {bs : List Block} {e : Expr} {st st' : σ} {ty : Ty} (hb : b.write sink s st = (st', .ok ()))
      (h : Reaches sink s bs st' e ty) : Reaches sink s (b :: bs) st e ty

theorem writeBranches_append (st : σ) (more : List (Expr × List Block)) : ∀ {before : List (Expr × List Block)},
    NoneHolds s before → Block.writeBranches sink s (before ++ more) st = Block.writeBranches sink s more st
  | [], _ => rfl
  | (c, body) :: before, h => by
    have hc : c.holds s = .ok false := h _ List.mem_cons_self
    rw [List.cons_append, Block.writeBranches, hc]
    exact writeBranches_append st more fun b hb => h b (List.mem_cons_of_mem _ hb)

theorem writeList_eq_error_of_write {b : Block} {bs : List Block} {st : σ} {err : RenderError}
    (h : (b.write sink s st).2 = .error err) : (Block.writeList sink s (b :: bs) st).2 = .error err := by
  rw [Block.writeList]
  split
  · rename_i hw
    rw [hw] at h
    cases h
  · rename_i hw
    rw [hw] at h
    exact h

theorem write_cond_of_writeBranches {branches : List (Expr × List Block)} {otherwise : Option (List Block)} {p : Position}
    {st : σ} {r : σ × Except RenderError Unit} (h : Block.writeBranches sink s branches st = some r) :
    (Block.cond branches otherwise p).write sink s st = r := by
  cases otherwise <;> rw [Block.write, h]

/-- **Rendering fails when it comes to an expression that raises an alarm.** -/
theorem Reaches.writeList_eq_error (hr : s.registry.ResultsTyped) {bs : List Block} {st : σ} {e : Expr} {ty : Ty}
    (h : Reaches sink s bs st e ty) (ha : Alarming (e.findings s.registry (some ty))) :
    ∃ err, (Block.writeList sink s bs st).2 = .error err := by
  induction h with
  | render =>
    obtain ⟨err, he⟩ := Expr.output_eq_error hr ha
    exact ⟨err, writeList_eq_error_of_write (by rw [Block.write, he])⟩
  | @cond before more c body otherwise p bs st hb =>
    obtain ⟨err, he⟩ := Expr.holds_eq_error hr ha
    have hw : Block.writeBranches sink s (before ++ (c, body) :: more) st = some (st, .error err) := by
      rw [writeBranches_append st _ hb, Block.writeBranches, he]
    exact ⟨err, writeList_eq_error_of_write (by rw [write_cond_of_writeBranches hw])⟩
  | @branch before more c e body otherwise p bs st ty hb hc h ih =>
    obtain ⟨err, he⟩ := ih ha
    have hw : Block.writeBranches sink s (before ++ (c, body) :: more) st = some (Block.writeList sink s body st) := by
      rw [writeBranches_append st _ hb, Block.writeBranches, hc]
    exact ⟨err, writeList_eq_error_of_write (by rw [write_cond_of_writeBranches hw, he])⟩
  | @otherwise branches e body p bs st ty hb h ih =>
    obtain ⟨err, he⟩ := ih ha
    have hw : Block.writeBranches sink s branches st = none := by
      rw [← List.append_nil branches, writeBranches_append st _ hb]
      rfl
    exact ⟨err, writeList_eq_error_of_write (by rw [Block.write, hw]; exact he)⟩
  | next hb h ih =>
    obtain ⟨err, he⟩ := ih ha
    exact ⟨err, by rw [Block.writeList, hb]; exact he⟩

namespace Template

/-- **There are no false alarms.**  Where an alarm is raised in an expression of which a type is wanted, it has no value
of that type in any context and for any types of names; so rendering a template fails when it comes to an expression that
raises an alarm. -/
theorem no_false_alarms {registry : Registry} (hr : registry.ResultsTyped) :
    (∀ (e : Expr) (w : Ty), Alarming (e.findings registry (some w)) →
      ∀ (context : Context) (types : TypeMap) (v : Value), e.eval ⟨registry, context, types⟩ = .ok v → v.ty ≠ w) ∧
    ∀ {σ : Type} (sink : Sink σ) (context : Context) (types : TypeMap) (t : Template) (st : σ) (e : Expr) (w : Ty),
      Reaches sink ⟨registry, context, types⟩ t st e w → Alarming (e.findings registry (some w)) →
        ∃ err, (t.render sink ⟨registry, context, types⟩ st).2 = .error err :=
  ⟨fun _ _ h context types _ hv => Expr.ty_ne_of_alarming (s := ⟨registry, context, types⟩) hr h hv,
    fun _ _ _ _ _ _ _ h ha => h.writeList_eq_error hr ha⟩

/-- A string is negated deep inside an argument. -/
def negatedString : Expr :=
  .binary .concat (.var ⟨utf8 "a", ⟨0, 3⟩⟩) (.call ⟨utf8 "upper", ⟨0, 7⟩⟩
    [.pipe (.paren (.not (.lit (.string (utf8 "b")) ⟨0, 15⟩) ⟨0, 14⟩) ⟨0, 13⟩) ⟨utf8 "lower", ⟨0, 22⟩⟩])

theorem no_false_alarms_at_negatedString :
    Alarming (negatedString.findings .standard (some .string)) ∧
    (∀ (context : Context) (types : TypeMap) (v : Value),
      negatedString.eval ⟨.standard, context, types⟩ = .ok v → v.ty ≠ .string) ∧
    ∀ (context : Context) (types : TypeMap), ∃ err,
      (render [.text (utf8 "x") ⟨0, 0⟩, .render negatedString] Sink.memory ⟨.standard, context, types⟩ .nothing).2 =
        .error err := by
  have ha : Alarming (negatedString.findings .standard (some .string)) :=
    ⟨.problem (.wrongUsage .bool .string) ⟨0, 15⟩, by decide_cbv, trivial⟩
  obtain ⟨hv, hw⟩ := no_false_alarms Registry.standard_sound.resultsTyped
  exact ⟨ha, hv _ _ ha, fun context types => hw _ context types _ _ _ _ (.next rfl .render) ha⟩

end Template
end Stencil
