import Mathlib
import Stencil.Proofs.SortedMap
import Stencil.Render
/-!
# Names — what rendering sees of a scope

A template asks its scope for the names that stand in it as expressions, those in switches apart, and for functions; it
never sees where a value comes from, from a binding or from a type.  Scopes that stand for the same on these names are
not told apart (`Template.render_sees_names`).  So the types of a scope may be replaced by bindings
(`Context.completed`), and what is bound to other names makes no difference.
-/
namespace Stencil

mutual

/-- The names that stand in an expression; the names of functions are not among them. -/
def Expr.names : Expr → List Bytes
  | .lit _ _ => []
  | .var x => [x.name]
  | .not e _ => e.names
  | .binary _ l r => l.names ++ r.names
  | .paren e _ => e.names
  | .call _ args => Expr.namesList args
  | .pipe a _ => a.names

def Expr.namesList : List Expr → List Bytes
  | [] => []
  | e :: es => e.names ++ Expr.namesList es

end

mutual

def Block.names : Block → List Bytes
  | .text _ _ => []
  | .comment _ _ => []
  | .render e => e.names
  | .cond branches none _ => Block.namesBranches branches
  | .cond branches (some body) _ => Block.namesBranches branches ++ Block.namesList body
  | .switch _ _ _ => []
termination_by structural b => b

def Block.namesList : List Block → List Bytes
  | [] => []
  | b :: bs => b.names ++ Block.namesList bs
termination_by structural bs => bs

def Block.namesBranches : List (Expr × List Block) → List Bytes
  | [] => []
  | (c, body) :: rest => c.names ++ (Block.namesList body ++ Block.namesBranches rest)
termination_by structural bs => bs

end

def Template.names (t : Template) : List Bytes := Block.namesList t

/-! ## Scopes that agree -/

/-- Two scopes have the same functions and stand for the same on some names. -/
structure Scope.AgreeOn (names : List Bytes) (s s' : Scope) : Prop where
  registry : s.registry = s'.registry
  look : ∀ name ∈ names, s.look name = s'.look name

namespace Scope.AgreeOn

variable {ns ms : List Bytes} {s s' : Scope}

theorem left (h : AgreeOn (ns ++ ms) s s') : AgreeOn ns s s' :=
  ⟨h.registry, fun n hn => h.look n (List.mem_append_left ms hn)⟩

theorem right (h : AgreeOn (ns ++ ms) s s') : AgreeOn ms s s' :=
  ⟨h.registry, fun n hn => h.look n (List.mem_append_right ns hn)⟩

theorem callee (h : AgreeOn ns s s') (f : Ident) (args : Nat) : s.callee f args = s'.callee f args := by
  rw [Scope.callee, Scope.callee, h.registry]

end Scope.AgreeOn

variable {s s' : Scope}

mutual

/-- **The value of an expression depends only on what its names stand for.** -/
theorem Expr.eval_congr : ∀ e : Expr, s.AgreeOn e.names s' → e.eval s = e.eval s'
  | .lit _ _, _ => rfl
  | .var x, h => by rw [Expr.eval, Expr.eval, h.look x.name List.mem_cons_self]
  | .not e _, h => by rw [Expr.eval, Expr.eval, eval_congr e h]
  | .binary _ l r, h => by rw [Expr.eval, Expr.eval, eval_congr l h.left, eval_congr r h.right]
  | .paren e _, h => by rw [Expr.eval, Expr.eval, eval_congr e h]
  | .call f args, h => by
    rw [Expr.eval, Expr.eval, h.callee]
    simp only [evalArgs_congr f.name 1 args _ h]
  | .pipe a f, h => by rw [Expr.eval, Expr.eval, h.callee, eval_congr a h]

theorem Expr.evalArgs_congr (func : Bytes) : ∀ (number : Nat) (es : List Expr) (wants : List Ty),
    s.AgreeOn (Expr.namesList es) s' → Expr.evalArgs s func number es wants = Expr.evalArgs s' func number es wants
  | _, [], _, _ => rfl
  | _, _ :: _, [], _ => rfl
  | number, e :: es, want :: wants, h => by
    rw [Expr.evalArgs, Expr.evalArgs, eval_congr e h.left, evalArgs_congr func (number + 1) es wants h.right]

end

theorem Expr.output_congr {e : Expr} (h : s.AgreeOn e.names s') : e.output s = e.output s' := by
  rw [Expr.output, Expr.output, e.eval_congr h]

theorem Expr.holds_congr {e : Expr} (h : s.AgreeOn e.names s') : e.holds s = e.holds s' := by
  rw [Expr.holds, Expr.holds, e.eval_congr h]

variable {σ : Type} (sink : Sink σ)

mutual

theorem Block.write_congr : ∀ (b : Block) (st : σ), s.AgreeOn b.names s' → b.write sink s st = b.write sink s' st
  | .text _ _, _, _ => rfl
  | .comment _ _, _, _ => rfl
  | .render e, st, h => by
    rw [Block.names] at h
    rw [Block.write, Block.write, Expr.output_congr h]
  | .cond branches none _, st, h => by
    rw [Block.names] at h
    rw [Block.write, Block.write, writeBranches_congr branches st h]
  | .cond branches (some body) _, st, h => by
    rw [Block.names] at h
    rw [Block.write, Block.write, writeBranches_congr branches st h.left, writeList_congr body st h.right]
  | .switch _ _ _, _, _ => rfl

theorem Block.writeList_congr : ∀ (bs : List Block) (st : σ), s.AgreeOn (Block.namesList bs) s' →
    Block.writeList sink s bs st = Block.writeList sink s' bs st
  | [], _, _ => rfl
  | b :: bs, st, h => by
    rw [Block.namesList] at h
    rw [Block.writeList, Block.writeList, write_congr b st h.left]
    simp only [writeList_congr bs _ h.right]

theorem Block.writeBranches_congr : ∀ (bs : List (Expr × List Block)) (st : σ),
    s.AgreeOn (Block.namesBranches bs) s' → Block.writeBranches sink s bs st = Block.writeBranches sink s' bs st
  | [], _, _ => rfl
  | (c, body) :: bs, st, h => by
    rw [Block.namesBranches] at h
    rw [Block.writeBranches, Block.writeBranches, Expr.holds_congr h.left, writeList_congr body st h.right.left,
      writeBranches_congr bs st h.right.right]

end

/-! ## Types as bindings -/

namespace Context

/-- The context with the zero value of a type bound to a name, unless the name is bound or the type has none. -/
def complete (c : Context) (name : Bytes) (ty : Ty) : Context :=
  match c.find? name, Value.zero? ty with
  | none, some v => c.insert name v
  | _, _ => c

def completed (c : Context) (types : TypeMap) : Context := types.toList.foldl (fun c e => c.complete e.1 e.2) c

theorem find?_complete_self (c : Context) (name : Bytes) (ty : Ty) :
    (c.complete name ty).find? name = (c.find? name).or (Value.zero? ty) := by
  unfold complete
  cases hc : c.find? name with
  | some v => simp only [hc, Option.some_or]
  | none =>
    cases Value.zero? ty with
    | none => simp only [hc, Option.or_none]
    | some v => rw [SortedMap.find?_insert_self, Option.none_or]

theorem find?_complete_of_ne (c : Context) {name k : Bytes} (hk : k ≠ name) (ty : Ty) :
    (c.complete name ty).find? k = c.find? k := by
  unfold complete
  split
  · rw [SortedMap.find?_insert_of_ne hk]
  · rfl

theorem find?_foldl_complete (name : Bytes) : ∀ (es : List (Bytes × Ty)) (c : Context),
    es.Pairwise (fun a b => KeyOrder.lt a.1 b.1 = true) →
      (es.foldl (fun c e => c.complete e.1 e.2) c).find? name =
        (c.find? name).or ((SortedMap.findEntry name es).bind Value.zero?)
  | [], c, _ => by rw [List.foldl_nil, SortedMap.findEntry, Option.bind_none, Option.or_none]
  | e :: es, c, h => by
    obtain ⟨he, h⟩ := List.pairwise_cons.1 h
    rw [List.foldl_cons, find?_foldl_complete name es _ h]
    by_cases hn : name = e.1
    · -- no later entry has the same name
      have hnone : SortedMap.findEntry name es = none := by
        cases hf : SortedMap.findEntry name es with
        | none => rfl
        | some ty =>
          have hlt := he _ (SortedMap.mem_of_findEntry hf)
          rw [hn, KeyOrder.irrefl] at hlt
          cases hlt
      have hself : SortedMap.findEntry name (e :: es) = some e.2 := by
        rw [SortedMap.findEntry, hn, KeyOrder.irrefl]
        rfl
      rw [hnone, hself, hn, find?_complete_self, Option.bind_none, Option.or_none, Option.bind_some]
    · have hlater : SortedMap.findEntry name (e :: es) = SortedMap.findEntry name es := by
        rw [SortedMap.findEntry, if_pos]
        rcases Bool.eq_false_or_eq_true (KeyOrder.lt name e.1 || KeyOrder.lt e.1 name) with hlt | hlt
        · exact hlt
        · rw [Bool.or_eq_false_iff] at hlt
          exact absurd (KeyOrder.eq_of_not_lt _ _ hlt.1 hlt.2) hn
      rw [find?_complete_of_ne c hn, hlater]

/-- **A completed context binds each name to what the name stands for.** -/
theorem find?_completed (registry : Registry) (c : Context) (types : TypeMap) (name : Bytes) :
    (c.completed types).find? name = Scope.look ⟨registry, c, types⟩ name := by
  rw [completed, find?_foldl_complete name types.toList c types.sorted, Scope.look]
  cases c.find? name <;> rfl

end Context

theorem Scope.look_untyped (registry : Registry) (c : Context) (name : Bytes) :
    Scope.look ⟨registry, c, .empty⟩ name = c.find? name := by
  rw [Scope.look]
  cases c.find? name <;> rfl

namespace Template

theorem render_congr {t : Template} (h : s.AgreeOn t.names s') {σ : Type} (sink : Sink σ) (st : σ) :
    t.render sink s st = t.render sink s' st := Block.writeList_congr sink t st h

/-- **Rendering sees a scope only through the names in the template.**  Two scopes with the same functions that stand
for the same on these names give the same writes and the same end, in every sink.  So a template renders with types as
it does without types over the completed context, and bindings of other names make no difference. -/
theorem render_sees_names (t : Template) :
    (∀ s s' : Scope, s.registry = s'.registry → (∀ name ∈ t.names, s.look name = s'.look name) →
      ∀ {σ : Type} (sink : Sink σ) (st : σ), t.render sink s st = t.render sink s' st) ∧
    (∀ (registry : Registry) (c : Context) (types : TypeMap) {σ : Type} (sink : Sink σ) (st : σ),
      t.render sink ⟨registry, c, types⟩ st = t.render sink ⟨registry, c.completed types, .empty⟩ st) ∧
    ∀ (registry : Registry) (c c' : Context) (types : TypeMap), (∀ name ∈ t.names, c.find? name = c'.find? name) →
      ∀ {σ : Type} (sink : Sink σ) (st : σ),
        t.render sink ⟨registry, c, types⟩ st = t.render sink ⟨registry, c', types⟩ st := by
  refine ⟨fun s s' hr hl => render_congr ⟨hr, hl⟩, fun registry c types => ?_, fun registry c c' types hc => ?_⟩
  · have h : Scope.AgreeOn t.names ⟨registry, c, types⟩ ⟨registry, c.completed types, .empty⟩ :=
      ⟨rfl, fun name _ => by rw [Scope.look_untyped, Context.find?_completed]⟩
    exact fun {_} => render_congr h
  · have h : Scope.AgreeOn t.names ⟨registry, c, types⟩ ⟨registry, c', types⟩ :=
      ⟨rfl, fun name hn => by rw [Scope.look, Scope.look, hc name hn]⟩
    exact fun {_} => render_congr h

/-- A condition that its type decides, a name without a value in the branch taken, and a switch that is not reached. -/
def hesitant : Template := [.render (.call ⟨utf8 "upper", ⟨0, 3⟩⟩ [.var ⟨utf8 "a", ⟨0, 9⟩⟩]),
  .cond [(.var ⟨utf8 "b", ⟨1, 6⟩⟩, [.text (utf8 "b") ⟨1, 10⟩])] (some [.render (.var ⟨utf8 "c", ⟨1, 23⟩⟩)]) ⟨1, 0⟩,
  .switch (.var ⟨utf8 "d", ⟨2, 10⟩⟩) [] ⟨2, 0⟩]

/-- One scope has a type for `b`, the other binds it; of `d`, which stands in the switch only, they differ. -/
theorem render_sees_names_at_hesitant :
    hesitant.render Sink.memory ⟨.standard, .ofList [(utf8 "a", .string (utf8 "x"))], .ofList [(utf8 "b", .bool)]⟩
        .nothing =
      hesitant.render Sink.memory ⟨.standard, .ofList [(utf8 "a", .string (utf8 "x")), (utf8 "b", .bool false),
        (utf8 "d", .bool true)], .empty⟩ .nothing ∧
    (hesitant.render Sink.memory ⟨.standard, .ofList [(utf8 "a", .string (utf8 "x"))], .ofList [(utf8 "b", .bool)]⟩
        .nothing).2 = .error (.template (.unboundName (utf8 "c")) ⟨1, 23⟩) ∧
    hesitant.render Sink.memory ⟨.standard, .ofList [(utf8 "d", .bool true)], .empty⟩ .nothing =
      hesitant.render Sink.memory ⟨.standard, .empty, .empty⟩ .nothing := by
  obtain ⟨hlook, -, hbound⟩ := render_sees_names hesitant
  exact ⟨hlook _ _ rfl (by decide) _ _, by cbv, hbound _ _ _ _ (by decide) _ _⟩

end Template
end Stencil
