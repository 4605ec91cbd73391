import Stencil.Proofs.Alarms
/-!
# StaticTypes — the types of expressions that do not depend on names

Some expressions have a type whatever their names stand for.  Their values are of that type wherever they have one, in
templates that are otherwise ill-typed as well; and the expressions without such a type are the names and the calls of
functions that are not registered (`Expr.static_types_exact`).
-/
namespace Stencil

namespace Expr

/-- **An expression has a type without its names unless it is one**, or calls a function that is not registered;
parentheses make no difference. -/
theorem staticTy?_eq_none_iff {registry : Registry} : ∀ {e : Expr}, e.staticTy? registry = none ↔
    (∃ x, e.unparen = .var x) ∨ ∃ f : Ident, registry.find? f.name = none ∧
      ((∃ args, e.unparen = .call f args) ∨ ∃ a, e.unparen = .pipe a f)
  | .lit _ _ | .not _ _ => by simp [staticTy?, unparen]
  | .var _ => by simp [staticTy?, unparen]
  | .binary op _ _ => by cases op <;> simp [staticTy?, unparen]
  | .paren e _ => staticTy?_eq_none_iff (e := e)
  | .call f _ => by simp [staticTy?, unparen]
  | .pipe _ f => by simp [staticTy?, unparen]

/-- **Static types are those of the values.**  Where an expression has a type without its names, every value it has is
of that type, in any context and for any types of names, whatever analysis has to say about its parts; and it has none
exactly if it is, parentheses apart, a name, or a call or pipe of a function that is not registered. -/
theorem static_types_exact {registry : Registry} (hr : registry.ResultsTyped) (e : Expr) :
    (∀ (context : Context) (types : TypeMap) (ty : Ty) (v : Value), e.staticTy? registry = some ty →
      e.eval ⟨registry, context, types⟩ = .ok v → v.ty = ty) ∧
    (e.staticTy? registry = none ↔ (∃ x, e.unparen = .var x) ∨ ∃ f : Ident, registry.find? f.name = none ∧
      ((∃ args, e.unparen = .call f args) ∨ ∃ a, e.unparen = .pipe a f)) :=
  ⟨fun context types _ _ ht hv => ty_of_staticTy? (s := ⟨registry, context, types⟩) hr ht hv, staticTy?_eq_none_iff⟩

/-- Two names are compared, which analysis cannot type, and one of them is piped into a function. -/
def crossed : Expr :=
  .paren (.binary .or (.binary .eq (.var ⟨utf8 "a", ⟨0, 4⟩⟩) (.paren (.var ⟨utf8 "b", ⟨0, 10⟩⟩) ⟨0, 9⟩))
    (.pipe (.var ⟨utf8 "a", ⟨0, 16⟩⟩) ⟨utf8 "empty", ⟨0, 20⟩⟩)) ⟨0, 3⟩

theorem static_types_exact_at_crossed :
    Registry.standard.ResultsTyped ∧
    .problem (.crossVar (utf8 "a") (utf8 "b")) ⟨0, 4⟩ ∈ crossed.findings .standard (some .string) ∧
    (∃ v, crossed.eval ⟨.standard, .ofList [(utf8 "a", .string (utf8 "x"))], .ofList [(utf8 "b", .string)]⟩ = .ok v ∧
      v.ty = .bool) ∧
    (Expr.paren (.call ⟨utf8 "nope", ⟨0, 1⟩⟩ [crossed]) ⟨0, 0⟩).staticTy? .standard = none := by
  have hr : Registry.standard.ResultsTyped := Registry.standard_sound.resultsTyped
  have hv : crossed.eval ⟨.standard, .ofList [(utf8 "a", .string (utf8 "x"))], .ofList [(utf8 "b", .string)]⟩ =
      .ok (.bool false) := by cbv
  exact ⟨hr, by decide_cbv, ⟨_, hv, (static_types_exact hr crossed).1 _ _ .bool _ (by decide_cbv) hv⟩,
    (static_types_exact hr _).2.2 (.inr ⟨⟨utf8 "nope", ⟨0, 1⟩⟩, by cbv, .inl ⟨[crossed], rfl⟩⟩)⟩

end Expr
end Stencil
