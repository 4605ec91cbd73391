import Stencil.Analysis
import Stencil.Proofs.Grammar.Parse
import Stencil.Proofs.Source.Positions
/-!
# Occurrences — where names stand, and which of them are counted

A name stands in a `Role`: what is around it, parentheses apart.  `Template.occurrences` lists the names of a template in
the order of its source, each in its role, and `Role.wanted?` says which type a role asks for.  Going through a template
with a type that is wanted, as `Expr.findings` does, records a usage for each occurrence whose role asks for a type, and
no other (`Template.usages_eq_occurrences`).
-/
namespace Stencil

inductive Role
  | rendered
  | condition
  | negated
  | side (op : BinOp) (other : Expr)
  | argument (func : Bytes) (index : Nat)

/-- The type that a side of a comparison is to have, next to the other side: that side's own type, or else that of
booleans.  Next to a bare name there is none. -/
def Expr.wantedBeside? (registry : Registry) (other : Expr) : Option Ty :=
  match other.unparen with
  | .var _ => none
  | _ => some ((other.staticTy? registry).getD .bool)

/-- The type that a role asks for.  There is none for a name that is compared with a bare name, for an argument of a
function that is not registered, and for an argument beyond the parameters. -/
def Role.wanted? (registry : Registry) : Role → Option Ty
  | .rendered => some .string
  | .condition => some .bool
  | .negated => some .bool
  | .side .concat _ => some .string
  | .side .and _ => some .bool
  | .side .or _ => some .bool
  | .side .eq other => other.wantedBeside? registry
  | .side .ne other => other.wantedBeside? registry
  | .argument func index => (registry.find? func).bind fun b => b.params[index]?

structure Occurrence where
  name : Ident
  role : Role

def Occurrence.usage? (registry : Registry) (path : Path) (o : Occurrence) : Option Usage :=
  (o.role.wanted? registry).map fun ty => ⟨o.name.name, ty, o.name.pos, path⟩

mutual

def Expr.occurrences : Expr → Role → List Occurrence
  | .lit _ _, _ => []
  | .var x, role => [⟨x, role⟩]
  | .not e _, _ => e.occurrences .negated
  | .binary op l r, _ => l.occurrences (.side op r) ++ r.occurrences (.side op l)
  | .paren e _, role => e.occurrences role
  | .call f args, _ => Expr.occurrencesArgs f.name args 0
  | .pipe a f, _ => a.occurrences (.argument f.name 0)

def Expr.occurrencesArgs (func : Bytes) : List Expr → Nat → List Occurrence
  | [], _ => []
  | e :: es, index => e.occurrences (.argument func index) ++ Expr.occurrencesArgs func es (index + 1)

end

mutual

def Block.occurrences : Block → List Occurrence
  | .text _ _ => []
  | .comment _ _ => []
  | .render e => e.occurrences .rendered
  | .cond branches none _ => Block.occurrencesBranches branches
  | .cond branches (some body) _ => Block.occurrencesBranches branches ++ Block.occurrencesList body
  | .switch _ cases _ => Block.occurrencesCases cases
termination_by structural b => b

def Block.occurrencesList : List Block → List Occurrence
  | [] => []
  | b :: bs => b.occurrences ++ Block.occurrencesList bs
termination_by structural bs => bs

def Block.occurrencesBranches : List (Expr × List Block) → List Occurrence
  | [] => []
  | (c, body) :: rest =>
    c.occurrences .condition ++ (Block.occurrencesList body ++ Block.occurrencesBranches rest)
termination_by structural bs => bs

def Block.occurrencesCases : List (List Expr × List Block) → List Occurrence
  | [] => []
  | (_, body) :: rest => Block.occurrencesList body ++ Block.occurrencesCases rest
termination_by structural cs => cs

end

/-- The names in a template, each in its role, in the order of the source. -/
def Template.occurrences (t : Template) : List Occurrence := Block.occurrencesList t

/-! ## Usages -/

namespace Analysis

variable (path : Path)

theorem usagesOf_append (fs gs : List Finding) : usagesOf path (fs ++ gs) = usagesOf path fs ++ usagesOf path gs :=
  List.filterMap_append

theorem usagesOf_check (got : Ty) (want : Option Ty) (pos : Position) :
    usagesOf path (Finding.check got want pos) = [] := by
  unfold Finding.check
  split
  · split <;> rfl
  · rfl

theorem usagesOf_checkArgCount (func : Ident) (want got : Nat) :
    usagesOf path (Finding.checkArgCount func want got) = [] := by
  unfold Finding.checkArgCount
  split <;> rfl

theorem usagesOf_checkSides (left right : Ty) (pos : Position) :
    usagesOf path (Finding.checkSides left right pos) = [] := by
  unfold Finding.checkSides
  split <;> rfl

end Analysis

namespace Expr

variable {registry : Registry}

theorem staticTy?_of_unparen {x : Ident} : ∀ {e : Expr}, e.unparen = .var x → e.staticTy? registry = none
  | .var _, _ => rfl
  | .paren e _, h => staticTy?_of_unparen (e := e) h

theorem occurrences_of_unparen {x : Ident} {role : Role} : ∀ {e : Expr}, e.unparen = .var x →
    e.occurrences role = [⟨x, role⟩]
  | .var _, h => by
    cases h
    rfl
  | .paren e _, h => occurrences_of_unparen (e := e) h

theorem wantedBeside?_of_unparen {x : Ident} {e : Expr} (h : e.unparen = .var x) : e.wantedBeside? registry = none := by
  rw [wantedBeside?, h]

theorem wantedBeside?_of_forall_ne {e : Expr} (h : ∀ x, e.unparen ≠ .var x) :
    e.wantedBeside? registry = some ((e.staticTy? registry).getD .bool) := by
  unfold wantedBeside?
  split
  · exact absurd ‹_› (h _)
  · rfl

theorem wantedBeside?_of_staticTy? {e : Expr} {ty : Ty} (h : e.staticTy? registry = some ty) :
    e.wantedBeside? registry = some ty := by
  have hnot : ∀ x, e.unparen ≠ .var x := fun x hx => by
    rw [staticTy?_of_unparen hx] at h
    cases h
  rw [wantedBeside?_of_forall_ne hnot, h, Option.getD_some]

/-- What is wanted of an expression matters to usages only if the expression is a bare name: then it must be what the
role of the name asks for. -/
def Suits (registry : Registry) (e : Expr) (role : Role) (want : Option Ty) : Prop :=
  ∀ x, e.unparen = .var x → role.wanted? registry = want

theorem suits_of_staticTy? {e : Expr} {ty : Ty} (h : e.staticTy? registry = some ty) (role : Role) (want : Option Ty) :
    Suits registry e role want := fun x hx => by
  rw [staticTy?_of_unparen hx] at h
  cases h

/-- **The two sides of a comparison ask the right types of each other**, whichever side has a type of its own. -/
theorem usagesOf_comparison {path : Path} {l r : Expr} {ls rs : Role}
    (hls : ls.wanted? registry = r.wantedBeside? registry) (hrs : rs.wanted? registry = l.wantedBeside? registry)
    (hl : ∀ want, Suits registry l ls want → Analysis.usagesOf path (l.findings registry want) =
      (l.occurrences ls).filterMap (Occurrence.usage? registry path))
    (hr : ∀ want, Suits registry r rs want → Analysis.usagesOf path (r.findings registry want) =
      (r.occurrences rs).filterMap (Occurrence.usage? registry path)) :
    Analysis.usagesOf path (match l.staticTy? registry, r.staticTy? registry with
      | some x, some y =>
        Finding.checkSides x y l.pos ++ l.findings registry (some x) ++ r.findings registry (some y)
      | some x, none => l.findings registry (some x) ++ r.findings registry (some x)
      | none, some y => l.findings registry (some y) ++ r.findings registry (some y)
      | none, none =>
        match l.bareNames? r with
        | some (x, y) => [.problem (.crossVar x.name y.name) x.pos]
        | none => l.findings registry (some .bool) ++ r.findings registry (some .bool)) =
      (l.occurrences ls ++ r.occurrences rs).filterMap (Occurrence.usage? registry path) := by
  rw [List.filterMap_append]
  split
  · rename_i x y hx hy
    rw [Analysis.usagesOf_append, Analysis.usagesOf_append, Analysis.usagesOf_checkSides, List.nil_append,
      hl _ (suits_of_staticTy? hx _ _), hr _ (suits_of_staticTy? hy _ _)]
  · rename_i x hx hy
    have hright : Suits registry r rs (some x) := fun _ _ => hrs.trans (wantedBeside?_of_staticTy? hx)
    rw [Analysis.usagesOf_append, hl _ (suits_of_staticTy? hx _ _), hr _ hright]
  · rename_i y hx hy
    have hleft : Suits registry l ls (some y) := fun _ _ => hls.trans (wantedBeside?_of_staticTy? hy)
    rw [Analysis.usagesOf_append, hl _ hleft, hr _ (suits_of_staticTy? hy _ _)]
  · rename_i hx hy
    split
    · -- two bare names: neither is counted
      rename_i x y hbare
      obtain ⟨hlx, hry⟩ := bareNames?_eq_some.1 hbare
      rw [occurrences_of_unparen hlx, occurrences_of_unparen hry]
      simp [Analysis.usagesOf, Occurrence.usage?, hls, hrs, wantedBeside?_of_unparen hlx, wantedBeside?_of_unparen hry]
    · rename_i hbare
      have hnot : ∀ x y, l.unparen = .var x → r.unparen ≠ .var y := fun x y hlx hry => by
        rw [bareNames?_eq_some.2 ⟨hlx, hry⟩] at hbare
        cases hbare
      have hleft : Suits registry l ls (some .bool) := fun x hlx => by
        rw [hls, wantedBeside?_of_forall_ne fun y => hnot x y hlx, hy, Option.getD_none]
      have hright : Suits registry r rs (some .bool) := fun y hry => by
        rw [hrs, wantedBeside?_of_forall_ne fun x hlx => hnot x y hlx hry, hx, Option.getD_none]
      -- at most one side is a bare name, and the other side, which has no type, asks for a boolean
      rw [Analysis.usagesOf_append, hl _ hleft, hr _ hright]

end Expr

mutual

/-- **The usages in an expression are those of the occurrences in it**, where what is wanted of it suits its role. -/
theorem Expr.usagesOf_findings (registry : Registry) (path : Path) : ∀ (e : Expr) (role : Role) (want : Option Ty),
    e.Suits registry role want → Analysis.usagesOf path (e.findings registry want) =
      (e.occurrences role).filterMap (Occurrence.usage? registry path)
  | .lit v p, _, want, _ => Analysis.usagesOf_check path v.ty want p
  | .var x, role, want, h => by
    have hwant : role.wanted? registry = want := h x rfl
    rw [Expr.occurrences, List.filterMap_cons, List.filterMap_nil, Occurrence.usage?, hwant]
    cases want <;> rfl
  | .not e p, _, want, _ => by
    rw [Expr.findings, Analysis.usagesOf_append, Analysis.usagesOf_check, List.append_nil, Expr.occurrences,
      usagesOf_findings registry path e .negated (some .bool) fun _ _ => rfl]
  | .binary op l r, _, want, _ => by
    have hl := usagesOf_findings registry path l (.side op r)
    have hr := usagesOf_findings registry path r (.side op l)
    rw [Expr.occurrences]
    cases op with
    | eq | ne =>
      rw [Expr.findings, Analysis.usagesOf_append, Analysis.usagesOf_check, List.append_nil]
      exact Expr.usagesOf_comparison rfl rfl hl hr
    | and | or =>
      rw [Expr.findings, Analysis.usagesOf_append, Analysis.usagesOf_append, Analysis.usagesOf_check, List.append_nil,
        hl (some .bool) fun _ _ => rfl, hr (some .bool) fun _ _ => rfl, List.filterMap_append]
    | concat =>
      rw [Expr.findings, Analysis.usagesOf_append, Analysis.usagesOf_append, Analysis.usagesOf_check, List.append_nil,
        hl (some .string) fun _ _ => rfl, hr (some .string) fun _ _ => rfl, List.filterMap_append]
  | .paren e _, role, want, h => usagesOf_findings registry path e role want h
  | .call f args, _, want, _ => by
    rw [Expr.findings, Expr.occurrences]
    cases hf : registry.find? f.name with
    | none =>
      have hargs := usagesOf_findingsArgs registry path f.name args 0 [] fun i => by simp [Role.wanted?, hf]
      exact hargs
    | some b =>
      have hargs := usagesOf_findingsArgs registry path f.name args 0 b.params fun i => by simp [Role.wanted?, hf]
      dsimp only
      rw [Analysis.usagesOf_append, Analysis.usagesOf_append, Analysis.usagesOf_check, Analysis.usagesOf_checkArgCount,
        List.nil_append, List.append_nil, hargs]
  | .pipe a f, _, want, _ => by
    rw [Expr.findings, Expr.occurrences]
    cases hf : registry.find? f.name with
    | none =>
      have harg := usagesOf_findings registry path a (.argument f.name 0) none fun _ _ => by simp [Role.wanted?, hf]
      exact harg
    | some b =>
      have harg := usagesOf_findings registry path a (.argument f.name 0) b.params.head? fun _ _ => by
        simp [Role.wanted?, hf, List.head?_eq_getElem?]
      dsimp only
      rw [Analysis.usagesOf_append, Analysis.usagesOf_append, Analysis.usagesOf_check, Analysis.usagesOf_checkArgCount,
        List.nil_append, List.append_nil, harg]

theorem Expr.usagesOf_findingsArgs (registry : Registry) (path : Path) (func : Bytes) : ∀ (es : List Expr)
    (index : Nat) (params : List Ty), (∀ i, (Role.argument func (index + i)).wanted? registry = params[i]?) →
      Analysis.usagesOf path (Expr.findingsArgs registry es params) =
        (Expr.occurrencesArgs func es index).filterMap (Occurrence.usage? registry path)
  | [], _, _, _ => rfl
  | e :: es, index, params, h => by
    have hhead : (Role.argument func index).wanted? registry = params.head? := by
      rw [List.head?_eq_getElem?]
      exact h 0
    have htail : ∀ i, (Role.argument func (index + 1 + i)).wanted? registry = params.tail[i]? := fun i => by
      rw [List.getElem?_tail, Nat.add_assoc, Nat.add_comm 1 i]
      exact h (i + 1)
    rw [Expr.findingsArgs, Expr.occurrencesArgs, Analysis.usagesOf_append, List.filterMap_append,
      usagesOf_findings registry path e _ _ fun _ _ => hhead,
      usagesOf_findingsArgs registry path func es (index + 1) params.tail htail]

end

mutual

theorem Block.usagesOf_findings (registry : Registry) (path : Path) : ∀ b : Block,
    Analysis.usagesOf path (b.findings registry) = b.occurrences.filterMap (Occurrence.usage? registry path)
  | .text _ _ => by rw [Block.findings, Block.occurrences]; rfl
  | .comment _ _ => by rw [Block.findings, Block.occurrences]; rfl
  | .render e => by
    rw [Block.findings, Block.occurrences]
    exact e.usagesOf_findings registry path .rendered _ fun _ _ => rfl
  | .cond branches none _ => by
    rw [Block.findings, Block.occurrences, usagesOf_findingsBranches registry path branches]
  | .cond branches (some body) _ => by
    rw [Block.findings, Block.occurrences, Analysis.usagesOf_append, List.filterMap_append,
      usagesOf_findingsBranches registry path branches, usagesOf_findingsList registry path body]
  | .switch _ cases _ => by
    rw [Block.findings, Block.occurrences, usagesOf_findingsCases registry path cases]
termination_by structural b => b

theorem Block.usagesOf_findingsList (registry : Registry) (path : Path) : ∀ bs : List Block,
    Analysis.usagesOf path (Block.findingsList registry bs) =
      (Block.occurrencesList bs).filterMap (Occurrence.usage? registry path)
  | [] => by rw [Block.findingsList, Block.occurrencesList]; rfl
  | b :: bs => by
    rw [Block.findingsList, Block.occurrencesList, Analysis.usagesOf_append, List.filterMap_append,
      usagesOf_findings registry path b, usagesOf_findingsList registry path bs]
termination_by structural bs => bs

theorem Block.usagesOf_findingsBranches (registry : Registry) (path : Path) : ∀ bs : List (Expr × List Block),
    Analysis.usagesOf path (Block.findingsBranches registry bs) =
      (Block.occurrencesBranches bs).filterMap (Occurrence.usage? registry path)
  | [] => by rw [Block.findingsBranches, Block.occurrencesBranches]; rfl
  | (c, body) :: rest => by
    have hcond := c.usagesOf_findings registry path .condition (some .bool) fun _ _ => rfl
    simp only [Block.findingsBranches, Block.occurrencesBranches, Analysis.usagesOf_append, List.filterMap_append, hcond,
      usagesOf_findingsList registry path body, usagesOf_findingsBranches registry path rest]
termination_by structural bs => bs

theorem Block.usagesOf_findingsCases (registry : Registry) (path : Path) : ∀ cs : List (List Expr × List Block),
    Analysis.usagesOf path (Block.findingsCases registry cs) =
      (Block.occurrencesCases cs).filterMap (Occurrence.usage? registry path)
  | [] => by rw [Block.findingsCases, Block.occurrencesCases]; rfl
  | (ps, body) :: rest => by
    rw [Block.findingsCases, Block.occurrencesCases, Analysis.usagesOf_append, List.filterMap_append,
      usagesOf_findingsList registry path body, usagesOf_findingsCases registry path rest]
termination_by structural cs => cs

end

/-! ## The order of the source -/

def Occurrence.positions (os : List Occurrence) : List Position := os.map fun o => o.name.pos

namespace Grammar

/-- The names stand where some of the tokens do, in the order of the tokens. -/
def StandIn (os : List Occurrence) (ts : List Lexeme) : Prop := (Occurrence.positions os).Sublist (ts.map Lexeme.pos)

namespace StandIn

variable {os ps : List Occurrence} {ts us : List Lexeme}

theorem nil (ts : List Lexeme) : StandIn [] ts := List.nil_sublist _

theorem behind (h : StandIn os ts) {t : Lexeme} : StandIn os (t :: ts) := h.cons t.pos

theorem append (h : StandIn os ts) (h' : StandIn ps us) : StandIn (os ++ ps) (ts ++ us) := by
  unfold StandIn Occurrence.positions
  rw [List.map_append, List.map_append]
  exact List.Sublist.append h h'

theorem left (h : StandIn os ts) : StandIn os (ts ++ us) := List.append_nil os ▸ h.append (nil us)

theorem right (h : StandIn os us) : StandIn os (ts ++ us) := (nil ts).append h

end StandIn

mutual

/-- **The names in an expression stand in its tokens**, each name at one of them. -/
theorem SpellsExpr.standIn : ∀ {p : Stratum} {ts : List Lexeme} {e : Expr}, SpellsExpr p ts e → ∀ role : Role,
    StandIn (e.occurrences role) ts
  | _, _, _, .var _, _ => List.Sublist.refl _
  | _, _, _, .string _, _ | _, _, _, .true _, _ | _, _, _, .false _, _ | _, _, _, .emptyCall .., _ => .nil _
  | _, _, _, .paren _ he _, role => (he.standIn role).left.behind
  | _, _, _, .call (f := f) _ _ hes _, _ => (hes.standIn f.text 0).left.behind.behind
  | _, _, _, .not _ he, _ => (he.standIn .negated).behind
  | _, _, _, .pipe (f := f) he _ _, _ => (he.standIn (.argument f.text 0)).left
  | _, _, .binary op l r, .binary _ _ hl _ hr, _ => (hl.standIn (.side op r)).append (hr.standIn (.side op l)).behind
  | _, _, _, .tighter _ he, role => he.standIn role

theorem SpellsExprs.standIn : ∀ {ts : List Lexeme} {es : List Expr}, SpellsExprs ts es →
    ∀ (func : Bytes) (index : Nat), StandIn (Expr.occurrencesArgs func es index) ts
  | _, _, .one he, func, index => by
    rw [Expr.occurrencesArgs, Expr.occurrencesArgs, List.append_nil]
    exact he.standIn (.argument func index)
  | _, _, .cons he _ hes, func, index =>
    (he.standIn (.argument func index)).append (hes.standIn func (index + 1)).behind

end

mutual

theorem SpellsBlock.standIn : ∀ {ts : List Lexeme} {b : Block}, SpellsBlock ts b → StandIn b.occurrences ts
  | _, _, .text _ => by rw [Block.occurrences]; exact .nil _
  | _, _, .comment .. => by rw [Block.occurrences]; exact .nil _
  | _, _, .emptyComment .. => by rw [Block.occurrences]; exact .nil _
  | _, _, .render _ he _ => by
    rw [Block.occurrences]
    exact (he.standIn .rendered).left.behind
  | _, _, .cond (b := (_, _)) _ hb hbs _ => by
    rw [Block.occurrences, Block.occurrencesBranches, ← List.append_assoc]
    exact (hb.standIn.append hbs.standIn.left).behind
  | _, _, .condElse (b := (_, _)) _ hb hbs _ _ _ hbody _ => by
    rw [Block.occurrences, Block.occurrencesBranches, ← List.append_assoc, List.append_assoc]
    exact (hb.standIn.append (hbs.standIn.append hbody.standIn.left.behind.behind.behind)).behind
  | _, _, .switch _ _ _ _ _ hcs _ => by
    rw [Block.occurrences]
    exact hcs.standIn.left.right.behind.right.behind.behind

/-- **The names in blocks stand in their tokens.** -/
theorem SpellsBlocks.standIn : ∀ {ts : List Lexeme} {bs : List Block}, SpellsBlocks ts bs →
    StandIn (Block.occurrencesList bs) ts
  | _, _, .nil => by rw [Block.occurrencesList]; exact .nil _
  | _, _, .cons hb hbs => by
    rw [Block.occurrencesList]
    exact hb.standIn.append hbs.standIn

theorem SpellsBranch.standIn : ∀ {word : TokenKind} {ts : List Lexeme} {b : Expr × List Block}, SpellsBranch word ts b →
    StandIn (b.1.occurrences .condition ++ Block.occurrencesList b.2) ts
  | _, _, _, .mk _ he _ hbody => ((he.standIn .condition).append hbody.standIn.behind).behind

theorem SpellsElseifs.standIn : ∀ {ts : List Lexeme} {bs : List (Expr × List Block)}, SpellsElseifs ts bs →
    StandIn (Block.occurrencesBranches bs) ts
  | _, _, .nil => by rw [Block.occurrencesBranches]; exact .nil _
  | _, _, .cons (b := (_, _)) _ hb hbs => by
    rw [Block.occurrencesBranches, ← List.append_assoc]
    exact (hb.standIn.append hbs.standIn).behind

theorem SpellsCases.standIn : ∀ {ts : List Lexeme} {cs : List (List Expr × List Block)}, SpellsCases ts cs →
    StandIn (Block.occurrencesCases cs) ts
  | _, _, .nil => by rw [Block.occurrencesCases]; exact .nil _
  | _, _, .cons _ _ _ _ hbody hcs => by
    rw [Block.occurrencesCases]
    exact (hbody.standIn.append hcs.standIn).behind.right.behind.behind

end

end Grammar

namespace Template

/-- **Every name is counted once, at the type that its role asks for.**  What a template adds to the usages of an
analysis is one usage for each occurrence of a name whose role asks for a type, at the position of the occurrence, in the
order of the template; and in a template that was read from a source this is the order of positions. -/
theorem usages_eq_occurrences (registry : Registry) (t : Template) :
    (∀ (a : Analysis) (path : Path), (a.addTemplate registry path t).usages =
      a.usages ++ t.occurrences.filterMap (Occurrence.usage? registry path)) ∧
    ∀ s, parse s = .ok t → (Occurrence.positions t.occurrences).Pairwise fun p q => KeyOrder.lt p q = true := by
  constructor
  · intro a path
    exact congrArg (a.usages ++ ·) (Block.usagesOf_findingsList registry path t)
  · intro s h
    have hstand := (parse_eq_ok.1 h).1.standIn
    exact (List.pairwise_map.2 (Lexeme.inOrder_ofSource s)).sublist hstand

/-- Two bare names compared, a function that is not registered, and an argument too many. -/
def crowd : Bytes := utf8 "\x7b%if a == (b) or !c%\x7d\x7b\x7bx == f(y)\x7d\x7d\x7b%else%\x7d" ++
  utf8 "\x7b\x7bz|lower ~ (upper(u, v) != (w))\x7d\x7d\x7b%end%\x7d"

/-- Neither `a` and `b` nor `y` and `v` are counted. -/
theorem usages_eq_occurrences_at_crowd : ∃ t, parse crowd = .ok t ∧
    (Analysis.empty.addTemplate .standard [] t).usages =
      [⟨utf8 "c", .bool, ⟨0, 18⟩, []⟩, ⟨utf8 "x", .bool, ⟨0, 23⟩, []⟩, ⟨utf8 "z", .string, ⟨0, 44⟩, []⟩,
        ⟨utf8 "u", .string, ⟨0, 61⟩, []⟩, ⟨utf8 "w", .string, ⟨0, 71⟩, []⟩] ∧
    (Occurrence.positions t.occurrences).Pairwise fun p q => KeyOrder.lt p q = true := by
  obtain ⟨t, h, husages⟩ := exists_of_map_eq_ok (s := crowd)
    (f := fun t => t.occurrences.filterMap (Occurrence.usage? .standard []))
    (a := [⟨utf8 "c", .bool, ⟨0, 18⟩, []⟩, ⟨utf8 "x", .bool, ⟨0, 23⟩, []⟩, ⟨utf8 "z", .string, ⟨0, 44⟩, []⟩,
      ⟨utf8 "u", .string, ⟨0, 61⟩, []⟩, ⟨utf8 "w", .string, ⟨0, 71⟩, []⟩]) (by cbv)
  obtain ⟨hadded, hordered⟩ := usages_eq_occurrences .standard t
  exact ⟨t, h, (hadded .empty []).trans husages, hordered crowd h⟩

end Template
end Stencil
