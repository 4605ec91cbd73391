import Mathlib
import Stencil.Proofs.Analysis.Agreement
import Stencil.Render
/-!
# Soundness — a template that analysis has nothing to say about

Templates without diagnostics render without type errors, in every context that gives the names that are bound values
of the types found: rendering succeeds or comes to a switch, which has no meaning yet (`Template.render_sound`).

The analysis wants a type of each expression, from above; evaluation gives each expression a value, from below.  Where
all findings agree, the value has the type that is wanted (`Expr.eval_typed`).
-/
namespace Stencil

/-- A function of strings and booleans that keeps to its signature. -/
structure Builtin.Sound (b : Builtin) : Prop where
  params : ∀ ty ∈ b.params, ty ≠ .function
  result : ∀ vs : List Value, vs.map Value.ty = b.params → (b.run vs).ty = b.result

def Registry.Sound (r : Registry) : Prop := ∀ {name : Bytes} {b : Builtin}, r.find? name = some b → b.Sound

def Context.Respects (c : Context) (types : TypeMap) : Prop :=
  ∀ {name : Bytes} {ty : Ty} {v : Value}, types.find? name = some ty → c.find? name = some v → v.ty = ty

def Sink.NeverFails {σ : Type} (sink : Sink σ) : Prop := ∀ (st : σ) (b : Bytes), (sink.write st b).2 = none

/-! ## Values of a type -/

theorem Value.ty_ne_function (v : Value) : v.ty ≠ .function := by cases v <;> exact Ty.noConfusion

theorem Value.exists_of_bool {v : Value} (h : v.ty = .bool) : ∃ b, v = .bool b := by
  cases v with
  | string s => cases h
  | bool b => exact ⟨b, rfl⟩

theorem Value.exists_of_string {v : Value} (h : v.ty = .string) : ∃ s, v = .string s := by
  cases v with
  | string s => exact ⟨s, rfl⟩
  | bool b => cases h

theorem Value.exists_zero {ty : Ty} (h : ty ≠ .function) : ∃ v, Value.zero? ty = some v ∧ v.ty = ty := by
  cases ty with
  | string => exact ⟨_, rfl, rfl⟩
  | bool => exact ⟨_, rfl, rfl⟩
  | function => exact absurd rfl h

theorem Value.exists_args : ∀ {tys : List Ty}, (∀ ty ∈ tys, ty ≠ .function) → ∃ vs : List Value, vs.map Value.ty = tys
  | [], _ => ⟨[], rfl⟩
  | ty :: tys, h => by
    obtain ⟨v, -, hv⟩ := Value.exists_zero (h ty List.mem_cons_self)
    obtain ⟨vs, hvs⟩ := Value.exists_args fun t ht => h t (List.mem_cons_of_mem _ ht)
    exact ⟨v :: vs, by rw [List.map_cons, hv, hvs]⟩

theorem Builtin.Sound.result_ne_function {b : Builtin} (h : b.Sound) : b.result ≠ .function := by
  obtain ⟨vs, hvs⟩ := Value.exists_args h.params
  rw [← h.result vs hvs]
  exact Value.ty_ne_function _

theorem Literal.ty_value (l : Literal) : l.value.ty = l.ty := by cases l <;> rfl

theorem Literal.ty_ne_function (l : Literal) : l.ty ≠ .function := l.ty_value ▸ l.value.ty_ne_function

theorem Expr.staticTy?_ne_function {registry : Registry} (hr : registry.Sound) : ∀ {e : Expr} {ty : Ty},
    e.staticTy? registry = some ty → ty ≠ .function
  | .lit l _, ty, h => Option.some.inj h ▸ l.ty_ne_function
  | .not _ _, ty, h => Option.some.inj h ▸ Ty.noConfusion
  | .binary op _ _, ty, h => by
    cases op <;> exact Option.some.inj h ▸ Ty.noConfusion
  | .paren e _, ty, h => Expr.staticTy?_ne_function (e := e) hr h
  | .call f _, ty, h => by
    obtain ⟨b, hb, rfl⟩ := Option.map_eq_some_iff.1 h
    exact (hr hb).result_ne_function
  | .pipe _ f, ty, h => by
    obtain ⟨b, hb, rfl⟩ := Option.map_eq_some_iff.1 h
    exact (hr hb).result_ne_function

/-! ## Expressions -/

variable {registry : Registry} {types : TypeMap} {context : Context}

theorem eq_of_agree_check {got want : Ty} {p : Position} (h : Agree types (Finding.check got (some want) p)) :
    want = got := by
  rw [Finding.check] at h
  split at h
  · assumption
  · exact (h _ List.mem_cons_self).elim

theorem eq_of_agree_checkSides {l r : Ty} {p : Position} (h : Agree types (Finding.checkSides l r p)) : l = r := by
  rw [Finding.checkSides] at h
  split at h
  · assumption
  · exact (h _ List.mem_cons_self).elim

theorem eq_of_agree_checkArgCount {f : Ident} {want got : Nat} (h : Agree types (Finding.checkArgCount f want got)) :
    want = got := by
  rw [Finding.checkArgCount] at h
  split at h
  · assumption
  · exact (h _ List.mem_cons_self).elim

theorem look_typed (registry : Registry) (hc : context.Respects types) {name : Bytes} {ty : Ty} (hty : ty ≠ .function)
    (h : types.find? name = some ty) : ∃ v, Scope.look ⟨registry, context, types⟩ name = some v ∧ v.ty = ty := by
  unfold Scope.look
  cases hv : context.find? name with
  | some v => exact ⟨v, rfl, hc h hv⟩
  | none =>
    obtain ⟨v, hz, hvt⟩ := Value.exists_zero hty
    exact ⟨v, by simp only [h, Option.bind_some, hz], hvt⟩

theorem callee_of_find? {s : Scope} {f : Ident} {n : Nat} {b : Builtin} (hb : s.registry.find? f.name = some b)
    (hn : b.params.length = n) : s.callee f n = .ok b := by
  simp only [Scope.callee, hb, if_pos hn]

/-- Where a comparison agrees, a boolean is wanted of it, and one type of both sides. -/
theorem agree_comparison (hr : registry.Sound) {op : BinOp} (hop : op = .eq ∨ op = .ne) {l r : Expr} {want : Ty}
    (h : Agree types ((Expr.binary op l r).findings registry (some want))) : want = .bool ∧ ∃ x, x ≠ .function ∧
      Agree types (l.findings registry (some x)) ∧ Agree types (r.findings registry (some x)) := by
  rcases hop with rfl | rfl
  all_goals
    rw [Expr.findings, agree_append] at h
    obtain ⟨h, hcheck⟩ := h
    refine ⟨eq_of_agree_check hcheck, ?_⟩
    split at h
    · rename_i x y hx hy
      rw [agree_append, agree_append] at h
      have hxy := eq_of_agree_checkSides h.1.1
      subst hxy
      exact ⟨x, Expr.staticTy?_ne_function hr hx, h.1.2, h.2⟩
    · rename_i x hx hy
      exact ⟨x, Expr.staticTy?_ne_function hr hx, agree_append.1 h⟩
    · rename_i y hx hy
      exact ⟨y, Expr.staticTy?_ne_function hr hy, agree_append.1 h⟩
    · split at h
      · exact (h _ List.mem_cons_self).elim
      · exact ⟨.bool, Ty.noConfusion, agree_append.1 h⟩

theorem eval_comparison {s : Scope} {op : BinOp} (hop : op = .eq ∨ op = .ne) {l r : Expr} {a b : Value}
    (hl : l.eval s = .ok a) (hr : r.eval s = .ok b) (h : a.ty = b.ty) :
    ∃ c, (Expr.binary op l r).eval s = .ok (.bool c) := by
  rw [Expr.eval, hl, hr]
  rcases hop with rfl | rfl <;> cases a <;> cases b <;> first | exact ⟨_, rfl⟩ | cases h

mutual

/-- **An expression whose findings agree has a value of the type that is wanted of it.** -/
theorem Expr.eval_typed (hr : registry.Sound) (hc : context.Respects types) : ∀ (e : Expr) {want : Ty},
    want ≠ .function → Agree types (e.findings registry (some want)) →
      ∃ v, e.eval ⟨registry, context, types⟩ = .ok v ∧ v.ty = want
  | .lit l _, want, hw, h => ⟨l.value, rfl, by rw [eq_of_agree_check h, l.ty_value]⟩
  | .var x, want, hw, h => by
    obtain ⟨v, hv, hty⟩ := look_typed registry hc hw (h _ List.mem_cons_self)
    exact ⟨v, by rw [Expr.eval, hv], hty⟩
  | .not e p, want, hw, h => by
    rw [Expr.findings, agree_append] at h
    obtain ⟨v, he, hty⟩ := Expr.eval_typed hr hc e Ty.noConfusion h.1
    obtain ⟨b, rfl⟩ := Value.exists_of_bool hty
    exact ⟨.bool !b, by rw [Expr.eval, he]; rfl, (eq_of_agree_check h.2).symm⟩
  | .binary .concat l r, want, hw, h => by
    rw [Expr.findings, agree_append, agree_append] at h
    obtain ⟨a, ha, hat⟩ := Expr.eval_typed hr hc l Ty.noConfusion h.1.1
    obtain ⟨b, hb, hbt⟩ := Expr.eval_typed hr hc r Ty.noConfusion h.1.2
    obtain ⟨x, rfl⟩ := Value.exists_of_string hat
    obtain ⟨y, rfl⟩ := Value.exists_of_string hbt
    exact ⟨.string (x ++ y), by rw [Expr.eval, ha, hb]; rfl, (eq_of_agree_check h.2).symm⟩
  | .binary .and l r, want, hw, h => by
    rw [Expr.findings, agree_append, agree_append] at h
    obtain ⟨a, ha, hat⟩ := Expr.eval_typed hr hc l Ty.noConfusion h.1.1
    obtain ⟨b, hb, hbt⟩ := Expr.eval_typed hr hc r Ty.noConfusion h.1.2
    obtain ⟨x, rfl⟩ := Value.exists_of_bool hat
    obtain ⟨y, rfl⟩ := Value.exists_of_bool hbt
    exact ⟨.bool (x && y), by rw [Expr.eval, ha, hb]; rfl, (eq_of_agree_check h.2).symm⟩
  | .binary .or l r, want, hw, h => by
    rw [Expr.findings, agree_append, agree_append] at h
    obtain ⟨a, ha, hat⟩ := Expr.eval_typed hr hc l Ty.noConfusion h.1.1
    obtain ⟨b, hb, hbt⟩ := Expr.eval_typed hr hc r Ty.noConfusion h.1.2
    obtain ⟨x, rfl⟩ := Value.exists_of_bool hat
    obtain ⟨y, rfl⟩ := Value.exists_of_bool hbt
    exact ⟨.bool (x || y), by rw [Expr.eval, ha, hb]; rfl, (eq_of_agree_check h.2).symm⟩
  | .binary .eq l r, want, hw, h => by
    obtain ⟨rfl, x, hx, hl, hr'⟩ := agree_comparison hr (.inl rfl) h
    obtain ⟨a, ha, hat⟩ := Expr.eval_typed hr hc l hx hl
    obtain ⟨b, hb, hbt⟩ := Expr.eval_typed hr hc r hx hr'
    obtain ⟨c, hv⟩ := eval_comparison (.inl rfl) ha hb (hat.trans hbt.symm)
    exact ⟨.bool c, hv, rfl⟩
  | .binary .ne l r, want, hw, h => by
    obtain ⟨rfl, x, hx, hl, hr'⟩ := agree_comparison hr (.inr rfl) h
    obtain ⟨a, ha, hat⟩ := Expr.eval_typed hr hc l hx hl
    obtain ⟨b, hb, hbt⟩ := Expr.eval_typed hr hc r hx hr'
    obtain ⟨c, hv⟩ := eval_comparison (.inr rfl) ha hb (hat.trans hbt.symm)
    exact ⟨.bool c, hv, rfl⟩
  | .paren e _, want, hw, h => Expr.eval_typed hr hc e hw h
  | .call f args, want, hw, h => by
    rw [Expr.findings] at h
    cases hb : registry.find? f.name with
    | none =>
      rw [hb] at h
      exact (h _ List.mem_cons_self).elim
    | some b =>
      rw [hb] at h
      simp only [agree_append] at h
      obtain ⟨⟨hcount, hargs⟩, hcheck⟩ := h
      have hlen := eq_of_agree_checkArgCount hcount
      obtain ⟨vs, hvs, htys⟩ := Expr.evalArgs_typed hr hc f.name 1 args b.params (hr hb).params hlen hargs
      refine ⟨b.run vs, ?_, ?_⟩
      · rw [Expr.eval, callee_of_find? hb hlen]
        simp only [hvs]
      · rw [(hr hb).result vs htys, eq_of_agree_check hcheck]
  | .pipe a f, want, hw, h => by
    rw [Expr.findings] at h
    cases hb : registry.find? f.name with
    | none =>
      rw [hb] at h
      exact (h _ List.mem_cons_self).elim
    | some b =>
      rw [hb] at h
      simp only [agree_append] at h
      obtain ⟨⟨hcount, harg⟩, hcheck⟩ := h
      have hlen := eq_of_agree_checkArgCount hcount
      obtain ⟨ty, hty⟩ := List.length_eq_one_iff.1 hlen
      have hne : ty ≠ .function := (hr hb).params ty (by rw [hty]; exact List.mem_cons_self)
      rw [hty] at harg
      obtain ⟨v, hv, hvt⟩ := Expr.eval_typed hr hc a hne harg
      refine ⟨b.run [v], ?_, ?_⟩
      · rw [Expr.eval, callee_of_find? hb hlen, hv]
        simp only [hty, List.headD_cons, Value.asArgument, if_pos hvt]
      · rw [(hr hb).result [v] (by rw [hty, List.map_cons, hvt, List.map_nil]), eq_of_agree_check hcheck]

theorem Expr.evalArgs_typed (hr : registry.Sound) (hc : context.Respects types) (func : Bytes) :
    ∀ (n : Nat) (es : List Expr) (params : List Ty), (∀ ty ∈ params, ty ≠ .function) → params.length = es.length →
      Agree types (Expr.findingsArgs registry es params) →
      ∃ vs, Expr.evalArgs ⟨registry, context, types⟩ func n es params = .ok vs ∧ vs.map Value.ty = params
  | _, [], [], _, _, _ => ⟨[], rfl, rfl⟩
  | n, e :: es, ty :: params, hp, hl, h => by
    rw [Expr.findingsArgs, agree_append] at h
    rw [List.forall_mem_cons] at hp
    obtain ⟨v, hv, hvt⟩ := Expr.eval_typed hr hc e hp.1 h.1
    obtain ⟨vs, hvs, htys⟩ := Expr.evalArgs_typed hr hc func (n + 1) es params hp.2 (Nat.succ.inj hl) h.2
    refine ⟨v :: vs, ?_, by rw [List.map_cons, hvt, htys]⟩
    rw [Expr.evalArgs, hv]
    simp only [Value.asArgument, if_pos hvt, hvs]

end

/-! ## Blocks -/

mutual

def Block.switches : Block → List Position
  | .text _ _ => []
  | .comment _ _ => []
  | .render _ => []
  | .cond branches none _ => Block.switchesBranches branches
  | .cond branches (some body) _ => Block.switchesBranches branches ++ Block.switchesList body
  | .switch _ cases p => p :: Block.switchesCases cases
termination_by structural b => b

def Block.switchesList : List Block → List Position
  | [] => []
  | b :: bs => b.switches ++ Block.switchesList bs
termination_by structural bs => bs

def Block.switchesBranches : List (Expr × List Block) → List Position
  | [] => []
  | (_, body) :: rest => Block.switchesList body ++ Block.switchesBranches rest
termination_by structural bs => bs

def Block.switchesCases : List (List Expr × List Block) → List Position
  | [] => []
  | (_, body) :: rest => Block.switchesList body ++ Block.switchesCases rest
termination_by structural cs => cs

end

def Template.switches (t : Template) : List Position := Block.switchesList t

/-- Rendering succeeded, or came to one of the switches at `ps`. -/
def EndsWell (ps : List Position) (r : Except RenderError Unit) : Prop :=
  r = .ok () ∨ ∃ p ∈ ps, r = .error (.template .switchUnsupported p)

theorem EndsWell.mono {ps qs : List Position} (h : ∀ p ∈ ps, p ∈ qs) {r : Except RenderError Unit} :
    EndsWell ps r → EndsWell qs r
  | .inl hr => .inl hr
  | .inr ⟨p, hp, hr⟩ => .inr ⟨p, h p hp, hr⟩

variable {σ : Type} {sink : Sink σ}

theorem put_endsWell (hs : sink.NeverFails) (st : σ) (b : Bytes) (ps : List Position) :
    EndsWell ps (sink.put st b).2 := by
  have h := hs st b
  unfold Sink.put
  split
  · exact .inl rfl
  · rename_i hw
    rw [hw] at h
    cases h

theorem output_typed (hr : registry.Sound) (hc : context.Respects types) {e : Expr}
    (h : Agree types (e.findings registry (some .string))) : ∃ b, e.output ⟨registry, context, types⟩ = .ok b := by
  obtain ⟨v, hv, hty⟩ := e.eval_typed hr hc Ty.noConfusion h
  obtain ⟨b, rfl⟩ := Value.exists_of_string hty
  exact ⟨b, by rw [Expr.output, hv]⟩

theorem holds_typed (hr : registry.Sound) (hc : context.Respects types) {e : Expr}
    (h : Agree types (e.findings registry (some .bool))) : ∃ b, e.holds ⟨registry, context, types⟩ = .ok b := by
  obtain ⟨v, hv, hty⟩ := e.eval_typed hr hc Ty.noConfusion h
  obtain ⟨b, rfl⟩ := Value.exists_of_bool hty
  exact ⟨b, by rw [Expr.holds, hv]⟩

mutual

/-- **A block whose findings agree is written**, or a switch is met. -/
theorem Block.write_sound (hr : registry.Sound) (hc : context.Respects types) (hs : sink.NeverFails) :
    ∀ (b : Block) (st : σ), Agree types (b.findings registry) →
      EndsWell b.switches (b.write sink ⟨registry, context, types⟩ st).2
  | .text c _, st, _ => put_endsWell hs st c _
  | .comment _ _, _, _ => .inl rfl
  | .render e, st, h => by
    obtain ⟨b, hb⟩ := output_typed hr hc h
    rw [Block.write, hb]
    exact put_endsWell hs st b _
  | .cond branches none _, st, h => by
    have hbs := Block.writeBranches_sound hr hc hs branches st h
    rw [Block.write]
    cases hw : Block.writeBranches sink ⟨registry, context, types⟩ branches st with
    | none => exact .inl rfl
    | some r => exact hbs r hw
  | .cond branches (some body) _, st, h => by
    rw [Block.findings, agree_append] at h
    have hbs := Block.writeBranches_sound hr hc hs branches st h.1
    rw [Block.write, Block.switches]
    cases hw : Block.writeBranches sink ⟨registry, context, types⟩ branches st with
    | none => exact (Block.writeList_sound hr hc hs body st h.2).mono fun _ => List.mem_append_right _
    | some r => exact (hbs r hw).mono fun _ => List.mem_append_left _
  | .switch _ _ p, _, _ => .inr ⟨p, List.mem_cons_self, rfl⟩

theorem Block.writeList_sound (hr : registry.Sound) (hc : context.Respects types) (hs : sink.NeverFails) :
    ∀ (bs : List Block) (st : σ), Agree types (Block.findingsList registry bs) →
      EndsWell (Block.switchesList bs) (Block.writeList sink ⟨registry, context, types⟩ bs st).2
  | [], _, _ => .inl rfl
  | b :: bs, st, h => by
    rw [Block.findingsList, agree_append] at h
    have hb := Block.write_sound hr hc hs b st h.1
    rw [Block.writeList, Block.switchesList]
    rcases hw : b.write sink ⟨registry, context, types⟩ st with ⟨st', err | ⟨⟩⟩
    · rw [hw] at hb
      exact hb.mono fun _ => List.mem_append_left _
    · exact (Block.writeList_sound hr hc hs bs st' h.2).mono fun _ => List.mem_append_right _

theorem Block.writeBranches_sound (hr : registry.Sound) (hc : context.Respects types) (hs : sink.NeverFails) :
    ∀ (bs : List (Expr × List Block)) (st : σ), Agree types (Block.findingsBranches registry bs) →
      ∀ r, Block.writeBranches sink ⟨registry, context, types⟩ bs st = some r →
        EndsWell (Block.switchesBranches bs) r.2
  | [], _, _, _, hw => by cases hw
  | (c, body) :: bs, st, h, r, hw => by
    rw [Block.findingsBranches, agree_append, agree_append] at h
    obtain ⟨b, hb⟩ := holds_typed hr hc h.1
    rw [Block.writeBranches, hb] at hw
    rw [Block.switchesBranches]
    cases b with
    | true =>
      cases hw
      exact (Block.writeList_sound hr hc hs body st h.2.1).mono fun _ => List.mem_append_left _
    | false => exact (Block.writeBranches_sound hr hc hs bs st h.2.2 r hw).mono fun _ => List.mem_append_right _

end

/-- **Templates without diagnostics render without type errors.**  Rendering any of them, in a context that gives the
names that are bound values of their types, and into a sink that never fails, succeeds or comes to a switch. -/
theorem Template.render_sound (hr : registry.Sound) {ts : List (Path × Template)} (h : analyze registry ts = (types, []))
    {path : Path} {t : Template} (ht : (path, t) ∈ ts) (hc : context.Respects types) (hs : sink.NeverFails) (st : σ) :
    (t.render sink ⟨registry, context, types⟩ st).2 = .ok () ∨
      ∃ p ∈ t.switches, (t.render sink ⟨registry, context, types⟩ st).2 = .error (.template .switchUnsupported p) :=
  Block.writeList_sound hr hc hs t st (agree_of_analyze h ht)

/-! ## The standard functions -/

theorem Registry.toList_standard : Registry.standard.toList = [(utf8 "empty", ⟨[.string], .bool, Builtin.empty⟩),
    (utf8 "lower", ⟨[.string], .string, Builtin.lower⟩), (utf8 "title", ⟨[.string], .string, Builtin.title⟩),
    (utf8 "trim", ⟨[.string], .string, Builtin.trim⟩), (utf8 "upper", ⟨[.string], .string, Builtin.upper⟩)] := rfl

theorem Registry.standard_sound : Registry.standard.Sound := by
  intro name b h
  have hmem := SortedMap.mem_of_find? h
  rw [toList_standard] at hmem
  simp only [List.mem_cons, Prod.mk.injEq, List.not_mem_nil, or_false] at hmem
  rcases hmem with ⟨-, rfl⟩ | ⟨-, rfl⟩ | ⟨-, rfl⟩ | ⟨-, rfl⟩ | ⟨-, rfl⟩ <;>
    exact ⟨fun ty hty => by simp_all, fun _ _ => rfl⟩

namespace Template

/-- A string that is piped and compared, a condition on a boolean, and a switch inside of it. -/
def guarded : Template := [.render (.pipe (.var ⟨utf8 "a", ⟨0, 3⟩⟩) ⟨utf8 "upper", ⟨0, 7⟩⟩),
  .cond [(.binary .eq (.call ⟨utf8 "empty", ⟨1, 6⟩⟩ [.var ⟨utf8 "a", ⟨1, 12⟩⟩]) (.var ⟨utf8 "b", ⟨1, 18⟩⟩),
    [.switch (.var ⟨utf8 "a", ⟨2, 10⟩⟩) [] ⟨2, 0⟩])] none ⟨1, 0⟩]

/-- Only the boolean is bound. -/
theorem render_sound_at_guarded :
    (analyze .standard [([], guarded)]).2 = [] ∧
      ((guarded.render Sink.memory ⟨.standard, .ofList [(utf8 "b", .bool true)], (analyze .standard [([], guarded)]).1⟩
        .nothing).2 = .ok () ∨
      ∃ p ∈ guarded.switches, (guarded.render Sink.memory ⟨.standard, .ofList [(utf8 "b", .bool true)],
        (analyze .standard [([], guarded)]).1⟩ .nothing).2 = .error (.template .switchUnsupported p)) := by
  have hnone : (analyze .standard [([], guarded)]).2 = [] := by cbv
  have hc : Context.Respects (.ofList [(utf8 "b", .bool true)]) (analyze .standard [([], guarded)]).1 := by
    intro name ty v hty hv
    have hmem := SortedMap.mem_of_find? hv
    have hlist : (SortedMap.ofList [(utf8 "b", Value.bool true)]).toList = [(utf8 "b", .bool true)] := rfl
    rw [hlist, List.mem_singleton, Prod.mk.injEq] at hmem
    obtain ⟨rfl, rfl⟩ := hmem
    have hb : (analyze .standard [([], guarded)]).1.find? (utf8 "b") = some .bool := by cbv
    rw [hb] at hty
    exact Option.some.inj hty
  have hs : Sink.memory.NeverFails := fun _ _ => rfl
  exact ⟨hnone, render_sound Registry.standard_sound (Prod.ext rfl hnone) List.mem_cons_self hc hs .nothing⟩

end Template
end Stencil
