import Stencil.Analysis.Diagnostic
import Stencil.Builtin
import Stencil.Template
/-!
# Finding — what one template says about types

`Expr.findings` goes through an expression once, given the type that is wanted of it, if any, and lists in order what
it meets: a usage of a name at a type, or a problem.  A name that nothing is wanted of is not used at any type.

The two sides of a comparison get their types from each other: a side whose type does not depend on names
(`Expr.staticTy?`) gives the other side its type.  Where neither has one, both are wanted as booleans, and two bare
names cannot be typed at all.
-/
namespace Stencil

inductive Finding
  | usage (name : Bytes) (ty : Ty) (pos : Position)
  | problem (kind : Diagnostic.Kind) (pos : Position)
deriving DecidableEq, Repr

namespace Finding

def check (got : Ty) (want : Option Ty) (pos : Position) : List Finding :=
  match want with
  | some want => if want = got then [] else [.problem (.wrongUsage want got) pos]
  | none => []

def unknownBuiltin (registry : Registry) (func : Ident) : Finding :=
  let detail :=
    if registry.isEmpty then "no builtins are registered" else s!"available builtins are {registry.namesText}"
  .problem (.unknownBuiltin func.name detail) func.pos

def checkArgCount (func : Ident) (want got : Nat) : List Finding :=
  if want = got then [] else [.problem (.argCount func.name want got) func.pos]

def checkSides (left right : Ty) (pos : Position) : List Finding :=
  if left = right then [] else [.problem (.invalidOperation left right) pos]

end Finding

/-- The type of an expression, where it does not depend on a name. -/
def Expr.staticTy? (registry : Registry) : Expr → Option Ty
  | .lit v _ => some v.ty
  | .var _ => none
  | .not _ _ => some .bool
  | .binary .concat _ _ => some .string
  | .binary _ _ _ => some .bool
  | .paren e _ => e.staticTy? registry
  | .call f _ => (registry.find? f.name).map Builtin.result
  | .pipe _ f => (registry.find? f.name).map Builtin.result

def Expr.bareNames? (left right : Expr) : Option (Ident × Ident) :=
  match left.unparen, right.unparen with
  | .var x, .var y => some (x, y)
  | _, _ => none

theorem Expr.bareNames?_eq_some {l r : Expr} {x y : Ident} :
    l.bareNames? r = some (x, y) ↔ l.unparen = .var x ∧ r.unparen = .var y := by
  unfold bareNames?
  cases l.unparen <;> cases r.unparen <;> simp

mutual

def Expr.findings (registry : Registry) : Expr → Option Ty → List Finding
  | .lit v p, want => Finding.check v.ty want p
  | .var x, some want => [.usage x.name want x.pos]
  | .var _, none => []
  | .not e p, want => e.findings registry (some .bool) ++ Finding.check .bool want p
  | .binary op l r, want =>
    match op with
    | .concat =>
      l.findings registry (some .string) ++ r.findings registry (some .string) ++ Finding.check .string want l.pos
    | .and | .or =>
      l.findings registry (some .bool) ++ r.findings registry (some .bool) ++ Finding.check .bool want l.pos
    | .eq | .ne =>
      (match l.staticTy? registry, r.staticTy? registry with
      | some x, some y =>
        Finding.checkSides x y l.pos ++ l.findings registry (some x) ++ r.findings registry (some y)
      | some x, none => l.findings registry (some x) ++ r.findings registry (some x)
      | none, some y => l.findings registry (some y) ++ r.findings registry (some y)
      | none, none =>
        match l.bareNames? r with
        | some (x, y) => [.problem (.crossVar x.name y.name) x.pos]
        | none => l.findings registry (some .bool) ++ r.findings registry (some .bool))
      ++ Finding.check .bool want l.pos
  | .paren e _, want => e.findings registry want
  | .call f args, want =>
    match registry.find? f.name with
    | none => Finding.unknownBuiltin registry f :: Expr.findingsArgs registry args []
    | some b =>
      Finding.checkArgCount f b.params.length args.length ++ Expr.findingsArgs registry args b.params
        ++ Finding.check b.result want f.pos
  | .pipe a f, want =>
    match registry.find? f.name with
    | none => Finding.unknownBuiltin registry f :: a.findings registry none
    | some b =>
      Finding.checkArgCount f b.params.length 1 ++ a.findings registry b.params.head?
        ++ Finding.check b.result want f.pos

/-- What arguments say about types; nothing is wanted of those beyond the parameters. -/
def Expr.findingsArgs (registry : Registry) : List Expr → List Ty → List Finding
  | [], _ => []
  | e :: es, params => e.findings registry params.head? ++ Expr.findingsArgs registry es params.tail

end

mutual

/-- What a block says about types.  A switch has no typing rules yet: only the bodies of its cases count. -/
def Block.findings (registry : Registry) : Block → List Finding
  | .text _ _ => []
  | .comment _ _ => []
  | .render e => e.findings registry (some .string)
  | .cond branches none _ => Block.findingsBranches registry branches
  | .cond branches (some body) _ => Block.findingsBranches registry branches ++ Block.findingsList registry body
  | .switch _ cases _ => Block.findingsCases registry cases
termination_by structural b => b

def Block.findingsList (registry : Registry) : List Block → List Finding
  | [] => []
  | b :: bs => b.findings registry ++ Block.findingsList registry bs
termination_by structural bs => bs

def Block.findingsBranches (registry : Registry) : List (Expr × List Block) → List Finding
  | [] => []
  | (c, body) :: rest =>
    c.findings registry (some .bool) ++ (Block.findingsList registry body ++ Block.findingsBranches registry rest)
termination_by structural bs => bs

def Block.findingsCases (registry : Registry) : List (List Expr × List Block) → List Finding
  | [] => []
  | (_, body) :: rest => Block.findingsList registry body ++ Block.findingsCases registry rest
termination_by structural cs => cs

end

def Template.findings (registry : Registry) (t : Template) : List Finding := Block.findingsList registry t

end Stencil
