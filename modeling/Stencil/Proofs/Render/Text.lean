import Stencil.Proofs.Alarms
import Stencil.Proofs.Render.Bounded
import Stencil.Proofs.Source.Text
/-!
# Text — what is rendered is well-formed

Evaluation joins strings of the template and of the context and applies functions to them, all of which give well-formed
strings for well-formed ones (`Expr.isText_of_eval`).  So whatever a template with well-formed texts writes is
well-formed, up to its end or its error (`Block.text_writeList`).
-/
namespace Stencil

open Utf8 (Text)

/-! ## Scopes -/

def Value.IsText : Value → Prop
  | .string s => Text s
  | .bool _ => True

def Context.IsText (c : Context) : Prop := ∀ {name : Bytes} {v : Value}, c.find? name = some v → v.IsText

def Builtin.standard : List (List Value → Value) :=
  [Builtin.upper, Builtin.lower, Builtin.trim, Builtin.title, Builtin.empty]

/-- All functions are among those that every template can call, under whatever name and signature. -/
def Registry.IsStandard (r : Registry) : Prop :=
  ∀ {name : Bytes} {b : Builtin}, r.find? name = some b → b.run ∈ Builtin.standard

theorem Registry.isStandard_standard : Registry.standard.IsStandard := by
  intro name b h
  have hmem := SortedMap.mem_of_find? h
  rw [toList_standard] at hmem
  have hrun := List.mem_map_of_mem (f := fun e => e.2.run) hmem
  simp only [List.map_cons, List.map_nil, List.mem_cons, List.not_mem_nil, or_false] at hrun
  simp only [Builtin.standard, List.mem_cons, List.not_mem_nil, or_false]
  tauto

structure Scope.IsText (s : Scope) : Prop where
  registry : s.registry.IsStandard
  context : s.context.IsText

theorem Scope.IsText.look {s : Scope} (h : s.IsText) {name : Bytes} {v : Value} (hv : s.look name = some v) :
    v.IsText := by
  rw [Scope.look] at hv
  split at hv
  · rename_i u hu
    cases hv
    exact h.context hu
  · obtain ⟨ty, -, hz⟩ := Option.bind_eq_some_iff.1 hv
    cases ty <;> cases hz
    · exact Text.nil
    · trivial

theorem Builtin.text_stringArg {vs : List Value} (h : ∀ v ∈ vs, v.IsText) : Text (stringArg vs) := by
  unfold stringArg
  split
  · exact h _ List.mem_cons_self
  · exact .nil

/-- **The standard functions give well-formed strings for well-formed strings.** -/
theorem Builtin.isText_run {run : List Value → Value} (h : run ∈ Builtin.standard) {vs : List Value}
    (hvs : ∀ v ∈ vs, v.IsText) : (run vs).IsText := by
  have harg := text_stringArg hvs
  simp only [Builtin.standard, List.mem_cons, List.not_mem_nil, or_false] at h
  rcases h with rfl | rfl | rfl | rfl | rfl
  · exact Utf8.text_map Byte.exchanges_toUpper harg
  · exact Utf8.text_map Byte.exchanges_toLower harg
  · exact Utf8.text_trim harg
  · exact harg.exchange (Utf8.exchanges_titleFrom true _)
  · trivial

/-! ## Expressions -/

theorem BinOp.isText_apply {op : BinOp} {a b v : Value} {p : Position} (ha : a.IsText) (hb : b.IsText)
    (h : op.apply a b p = .ok v) : v.IsText := by
  cases op <;> cases a <;> cases b <;> cases h
  case concat => exact Text.append ha hb
  all_goals trivial

theorem Expr.isText_of_evalArgs {s : Scope} {func : Bytes} {es : List Expr}
    (hes : ∀ e ∈ es, ∀ {v : Value}, e.eval s = .ok v → v.IsText) : ∀ {n : Nat} {params : List Ty} {vs : List Value},
      Expr.evalArgs s func n es params = .ok vs → ∀ v ∈ vs, v.IsText := by
  induction es with
  | nil =>
    intro n params vs h
    rw [Expr.evalArgs] at h
    · cases h
      exact nofun
    · exact nofun
  | cons e es ih =>
    obtain ⟨he, hes⟩ := List.forall_mem_cons.1 hes
    intro n params vs h
    cases params with
    | nil =>
      rw [Expr.evalArgs] at h
      · cases h
        exact nofun
      · exact nofun
    | cons want params =>
      rw [Expr.evalArgs] at h
      split at h
      · cases h
      · rename_i v hv
        split at h
        · cases h
        · rename_i w hw
          split at h
          · cases h
          · rename_i ws hws
            cases h
            obtain ⟨rfl, -⟩ := Value.asArgument_eq_ok hw
            exact List.forall_mem_cons.2 ⟨he hv, ih hes hws⟩

theorem Expr.isText_of_eval_call {s : Scope} (hs : s.IsText) {f : Ident} {args : List Expr}
    (hargs : ∀ e ∈ args, ∀ {v : Value}, e.eval s = .ok v → v.IsText) {v : Value}
    (h : (Expr.call f args).eval s = .ok v) : v.IsText := by
  rw [Expr.eval] at h
  split at h
  · cases h
  · rename_i b hb
    split at h
    · cases h
    · rename_i vs hvs
      cases h
      exact Builtin.isText_run (hs.registry (Scope.callee_eq_ok hb).1) (isText_of_evalArgs hargs hvs)

mutual

/-- **Well-formed expressions have well-formed values.** -/
theorem Expr.isText_of_eval {s : Scope} (hs : s.IsText) : ∀ {e : Expr} {v : Value}, e.IsText → e.eval s = .ok v →
    v.IsText
  | .lit (.string body) _, v, he, h => by
    cases h
    exact he
  | .lit (.bool b) _, v, _, h => by
    cases h
    trivial
  | .var x, v, _, h => by
    rw [Expr.eval] at h
    split at h
    · rename_i u hu
      cases h
      exact hs.look hu
    · cases h
  | .not e p, v, _, h => by
    have hty := (Expr.eval_not_eq_ok h).2
    cases v with
    | string => cases hty
    | bool => trivial
  | .binary op l r, v, he, h => by
    obtain ⟨a, b, ha, hb, hv⟩ := Expr.eval_binary_eq_ok h
    exact BinOp.isText_apply (isText_of_eval hs he.1 ha) (isText_of_eval hs he.2 hb) hv
  | .paren e _, v, he, h => isText_of_eval (e := e) hs he h
  | .call f args, v, he, h => isText_of_eval_call hs (fun e hmem _ hv => isText_of_evalAll hs he e hmem hv) h
  | .pipe a f, v, he, h => by
    rw [Expr.eval_pipe] at h
    exact isText_of_eval_call hs (List.forall_mem_singleton.2 fun hv => isText_of_eval (e := a) hs he hv) h

theorem Expr.isText_of_evalAll {s : Scope} (hs : s.IsText) : ∀ {es : List Expr}, Expr.IsTextList es → ∀ e ∈ es,
    ∀ {v : Value}, e.eval s = .ok v → v.IsText
  | _ :: _, hes, _, hmem, _, h =>
    match List.mem_cons.1 hmem with
    | .inl heq => isText_of_eval hs hes.1 (heq ▸ h)
    | .inr hmem => isText_of_evalAll hs hes.2 _ hmem h

end

theorem Expr.text_of_output {s : Scope} (hs : s.IsText) {e : Expr} (he : e.IsText) {b : Bytes}
    (h : e.output s = .ok b) : Text b := by
  rw [Expr.output] at h
  split at h
  · rename_i c hc
    cases h
    exact isText_of_eval hs he hc
  · cases h
  · cases h

/-! ## Blocks -/

mutual

theorem Block.text_write {s : Scope} (hs : s.IsText) : ∀ {b : Block} {w : Written}, b.IsText → Text w.bytes →
    Text (b.write Sink.memory s w).1.bytes
  | .text c _, w, hb, hw => by
    show Text (w.add c).bytes
    rw [Written.bytes_add]
    exact hw.append hb
  | .comment _ _, w, _, hw => hw
  | .render e, w, hb, hw => by
    rw [Block.write]
    split
    · rename_i c hc
      show Text (w.add c).bytes
      rw [Written.bytes_add]
      exact hw.append (e.text_of_output hs hb hc)
    · exact hw
  | .cond branches none _, w, hb, hw => by
    rw [Block.write]
    split
    · rename_i r hr
      exact text_writeBranches hs hb hw r hr
    · exact hw
  | .cond branches (some body) _, w, hb, hw => by
    rw [Block.write]
    split
    · rename_i r hr
      exact text_writeBranches hs hb.1 hw r hr
    · exact text_writeList hs hb.2 hw
  | .switch _ _ _, w, _, hw => hw

/-- **Well-formed blocks write well-formed bytes**, up to their end or their error. -/
theorem Block.text_writeList {s : Scope} (hs : s.IsText) : ∀ {bs : List Block} {w : Written}, Block.IsTextList bs →
    Text w.bytes → Text (Block.writeList Sink.memory s bs w).1.bytes
  | [], w, _, hw => hw
  | b :: bs, w, hb, hw => by
    have hfirst := text_write hs hb.1 hw
    rw [Block.writeList]
    rcases hwrite : b.write Sink.memory s w with ⟨w', err | ⟨⟩⟩ <;> rw [hwrite] at hfirst
    · exact hfirst
    · exact text_writeList hs hb.2 hfirst

theorem Block.text_writeBranches {s : Scope} (hs : s.IsText) : ∀ {bs : List (Expr × List Block)} {w : Written},
    Block.IsTextBranches bs → Text w.bytes →
      ∀ r, Block.writeBranches Sink.memory s bs w = some r → Text r.1.bytes
  | [], w, _, _, r, h => by cases h
  | (c, body) :: bs, w, hb, hw, r, h => by
    rw [Block.writeBranches] at h
    split at h
    · cases h
      exact hw
    · cases h
      exact text_writeList hs hb.2.1 hw
    · exact text_writeBranches hs hb.2.2 hw r h

end

namespace Template

/-- **Rendering keeps to UTF-8**: what a template with well-formed texts writes is well-formed. -/
theorem text_render {t : Template} (ht : Block.IsTextList t) {s : Scope} (hs : s.IsText) :
    Text (t.render Sink.memory s .nothing).1.bytes := Block.text_writeList hs ht .nil

theorem text_output {t : Template} (ht : Block.IsTextList t) {s : Scope} (hs : s.IsText) {b : Bytes}
    (hb : t.output s = .ok b) : Text b := by
  have htext := text_render ht hs
  rw [output] at hb
  rcases hr : t.render Sink.memory s .nothing with ⟨w, err | ⟨⟩⟩ <;> rw [hr] at hb htext
  · cases hb
  · cases hb
    exact htext

end Template
end Stencil
