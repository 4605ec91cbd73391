import Stencil.Proofs.Analysis.Order
import Stencil.Proofs.RoundTrip
/-!
# Moved analysis — positions decide nothing but where diagnostics stand

What a template says about types does not depend on where its nodes stand (`Template.findings_mapPos`), and a map that
keeps the order of positions keeps the order of the diagnostics (`analyze_mapPos`).  The types and the kinds of the
diagnostics are decided by what is said, wherever it stands (`Analysis.analyze_congr`).
-/
namespace Stencil

open Position (Increasing)

variable (f : Position → Position)

def Finding.mapPos : Finding → Finding
  | .usage name ty pos => .usage name ty (f pos)
  | .problem kind pos => .problem kind (f pos)

def Usage.mapPos (u : Usage) : Usage := ⟨u.name, u.ty, f u.pos, u.path⟩

def Diagnostic.mapPos (d : Diagnostic) : Diagnostic := ⟨d.path, f d.pos, d.kind⟩

/-! ## Findings -/

theorem Finding.check_mapPos (got : Ty) (want : Option Ty) (p : Position) :
    check got want (f p) = (check got want p).map (mapPos f) := by
  unfold check
  split
  · split <;> rfl
  · rfl

theorem Finding.checkArgCount_mapPos (x : Ident) (want got : Nat) :
    checkArgCount (x.mapPos f) want got = (checkArgCount x want got).map (mapPos f) := by
  unfold checkArgCount
  split <;> rfl

theorem Finding.checkSides_mapPos (l r : Ty) (p : Position) :
    checkSides l r (f p) = (checkSides l r p).map (mapPos f) := by
  unfold checkSides
  split <;> rfl

theorem Finding.unknownBuiltin_mapPos (registry : Registry) (x : Ident) :
    unknownBuiltin registry (x.mapPos f) = (unknownBuiltin registry x).mapPos f := rfl

theorem Expr.staticTy?_mapPos (registry : Registry) : ∀ e : Expr, (e.mapPos f).staticTy? registry = e.staticTy? registry
  | .lit _ _ | .var _ | .not _ _ | .call _ _ | .pipe _ _ => rfl
  | .binary op _ _ => by cases op <;> rfl
  | .paren e _ => staticTy?_mapPos registry e

theorem Expr.unparen_mapPos : ∀ e : Expr, (e.mapPos f).unparen = e.unparen.mapPos f
  | .lit _ _ | .var _ | .not _ _ | .binary _ _ _ | .call _ _ | .pipe _ _ => rfl
  | .paren e _ => unparen_mapPos e

theorem Expr.bareNames?_mapPos (l r : Expr) : (l.mapPos f).bareNames? (r.mapPos f) =
    (l.bareNames? r).map fun xy => (xy.1.mapPos f, xy.2.mapPos f) := by
  unfold Expr.bareNames?
  rw [unparen_mapPos, unparen_mapPos]
  cases l.unparen <;> cases r.unparen <;> rfl

mutual

theorem Expr.findings_mapPos (registry : Registry) : ∀ (e : Expr) (want : Option Ty),
    (e.mapPos f).findings registry want = (e.findings registry want).map (Finding.mapPos f)
  | .lit v p, want => Finding.check_mapPos f v.ty want p
  | .var _, none => rfl
  | .var _, some _ => rfl
  | .not e p, want => by
    rw [Expr.mapPos, Expr.findings, findings_mapPos registry e, Finding.check_mapPos, Expr.findings, List.map_append]
  | .binary op l r, want => by
    have hl := findings_mapPos registry l
    have hr := findings_mapPos registry r
    cases op with
    | eq | ne =>
      simp only [Expr.mapPos, Expr.findings, Expr.staticTy?_mapPos, Expr.bareNames?_mapPos, Expr.pos_mapPos, hl, hr,
        Finding.check_mapPos, List.map_append]
      congr 1
      cases l.staticTy? registry with
      | some x =>
        cases r.staticTy? registry with
        | some y => simp only [Finding.checkSides_mapPos, List.map_append]
        | none => simp only [List.map_append]
      | none =>
        cases r.staticTy? registry with
        | some y => simp only [List.map_append]
        | none =>
          cases l.bareNames? r with
          | some xy => rfl
          | none => simp only [Option.map_none, List.map_append]
    | and | or | concat =>
      simp only [Expr.mapPos, Expr.findings, Expr.pos_mapPos, hl, hr, Finding.check_mapPos, List.map_append]
  | .paren e _, want => findings_mapPos registry e want
  | .call x args, want => by
    rw [Expr.mapPos, Expr.findings, Ident.mapPos_name, Expr.findings]
    cases registry.find? x.name with
    | none =>
      simp only [Finding.unknownBuiltin_mapPos, findingsArgs_mapPos registry args, List.map_cons]
    | some b =>
      simp only [Finding.checkArgCount_mapPos, Expr.length_mapPosList, findingsArgs_mapPos registry args, List.map_append]
      rw [← Finding.check_mapPos]
      rfl
  | .pipe a x, want => by
    rw [Expr.mapPos, Expr.findings, Ident.mapPos_name, Expr.findings]
    cases registry.find? x.name with
    | none => simp only [Finding.unknownBuiltin_mapPos, findings_mapPos registry a, List.map_cons]
    | some b =>
      simp only [Finding.checkArgCount_mapPos, findings_mapPos registry a, List.map_append]
      rw [← Finding.check_mapPos]
      rfl

theorem Expr.findingsArgs_mapPos (registry : Registry) : ∀ (es : List Expr) (params : List Ty),
    Expr.findingsArgs registry (Expr.mapPosList f es) params =
      (Expr.findingsArgs registry es params).map (Finding.mapPos f)
  | [], _ => rfl
  | e :: es, params => by
    rw [Expr.mapPosList, Expr.findingsArgs, findings_mapPos registry e, findingsArgs_mapPos registry es, Expr.findingsArgs,
      List.map_append]

end

mutual

theorem Block.findings_mapPos (registry : Registry) : ∀ b : Block,
    (b.mapPos f).findings registry = (b.findings registry).map (Finding.mapPos f)
  | .text _ _ => rfl
  | .comment _ _ => rfl
  | .render e => e.findings_mapPos f registry (some .string)
  | .cond branches none _ => by
    rw [Block.mapPos, Block.findings, findingsBranches_mapPos registry branches, Block.findings]
  | .cond branches (some body) _ => by
    rw [Block.mapPos, Block.findings, findingsBranches_mapPos registry branches, findingsList_mapPos registry body,
      Block.findings, List.map_append]
  | .switch _ cases _ => by rw [Block.mapPos, Block.findings, findingsCases_mapPos registry cases, Block.findings]

theorem Block.findingsList_mapPos (registry : Registry) : ∀ bs : List Block,
    Block.findingsList registry (Block.mapPosList f bs) = (Block.findingsList registry bs).map (Finding.mapPos f)
  | [] => rfl
  | b :: bs => by
    rw [Block.mapPosList, Block.findingsList, findings_mapPos registry b, findingsList_mapPos registry bs,
      Block.findingsList, List.map_append]

theorem Block.findingsBranches_mapPos (registry : Registry) : ∀ bs : List (Expr × List Block),
    Block.findingsBranches registry (Block.mapPosBranches f bs) =
      (Block.findingsBranches registry bs).map (Finding.mapPos f)
  | [] => rfl
  | (c, body) :: bs => by
    rw [Block.mapPosBranches, Block.findingsBranches, Expr.findings_mapPos, findingsList_mapPos registry body,
      findingsBranches_mapPos registry bs, Block.findingsBranches, List.map_append, List.map_append]

theorem Block.findingsCases_mapPos (registry : Registry) : ∀ cs : List (List Expr × List Block),
    Block.findingsCases registry (Block.mapPosCases f cs) = (Block.findingsCases registry cs).map (Finding.mapPos f)
  | [] => rfl
  | (_, body) :: cs => by
    rw [Block.mapPosCases, Block.findingsCases, findingsList_mapPos registry body, findingsCases_mapPos registry cs,
      Block.findingsCases, List.map_append]

end

theorem Template.findings_mapPos (registry : Registry) (t : Template) :
    (t.mapPos f).findings registry = (t.findings registry).map (Finding.mapPos f) :=
  Block.findingsList_mapPos f registry t

/-! ## Recorded findings -/

namespace Analysis

theorem usagesOf_mapPos (path : Path) : ∀ fs : List Finding,
    usagesOf path (fs.map (Finding.mapPos f)) = (usagesOf path fs).map (Usage.mapPos f)
  | [] => rfl
  | .usage _ _ _ :: fs => congrArg (List.cons _) (usagesOf_mapPos path fs)
  | .problem _ _ :: fs => usagesOf_mapPos path fs

theorem diagnosticsOf_mapPos (path : Path) : ∀ fs : List Finding,
    diagnosticsOf path (fs.map (Finding.mapPos f)) = (diagnosticsOf path fs).map (Diagnostic.mapPos f)
  | [] => rfl
  | .usage _ _ _ :: fs => diagnosticsOf_mapPos path fs
  | .problem _ _ :: fs => congrArg (List.cons _) (diagnosticsOf_mapPos path fs)

theorem byName_mapPos : ∀ us : List Usage,
    byName (us.map (Usage.mapPos f)) = (byName us).mapValues fun _ => List.map (Usage.mapPos f)
  | [] => rfl
  | u :: us => by
    have hfind : (((byName us).find? u.name).map (List.map (Usage.mapPos f))).getD [] =
        (((byName us).find? u.name).getD []).map (Usage.mapPos f) := by
      cases (byName us).find? u.name <;> rfl
    show (byName (us.map (Usage.mapPos f))).insert u.name
      (u.mapPos f :: ((byName (us.map (Usage.mapPos f))).find? u.name).getD []) = _
    rw [byName_mapPos us, SortedMap.find?_mapValues, hfind, ← List.map_cons, SortedMap.insert_mapValues]
    rfl

theorem voted_mapPos (us : List Usage) : voted (us.map (Usage.mapPos f)) = voted us := by
  rw [voted, List.map_map]
  rfl

theorem dissent_mapPos (us : List Usage) :
    dissent (us.map (Usage.mapPos f)) = (dissent us).map (Diagnostic.mapPos f) := by
  rw [dissent, dissent, voted_mapPos, List.filter_map, List.map_map, List.map_map]
  rfl

def mapPos (a : Analysis) : Analysis :=
  ⟨a.usages.map (Usage.mapPos f), a.diagnostics.map (Diagnostic.mapPos f)⟩

theorem types_mapPos (a : Analysis) : (a.mapPos f).types = a.types := by
  rw [types, mapPos, byName_mapPos, types, SortedMap.mapValues, SortedMap.mapValues, SortedMap.mapValues,
    SortedMap.mk.injEq, List.map_map]
  refine List.map_congr_left fun e _ => ?_
  rw [Function.comp_apply, voted_mapPos]

theorem le_mapPos {f : Position → Position} (hf : Increasing f) (d e : Diagnostic) :
    Diagnostic.le (d.mapPos f) (e.mapPos f) = Diagnostic.le d e := by
  simp only [Diagnostic.le, Diagnostic.before, Diagnostic.mapPos, hf.lt_eq]

theorem flatMap_dissent_mapPos : ∀ es : List (Bytes × List Usage),
    (es.map fun e => (e.1, e.2.map (Usage.mapPos f))).flatMap (fun e => dissent e.2) =
      (es.flatMap fun e => dissent e.2).map (Diagnostic.mapPos f)
  | [] => rfl
  | e :: es => by
    rw [List.map_cons, List.flatMap_cons, flatMap_dissent_mapPos es, dissent_mapPos, List.flatMap_cons, List.map_append]

theorem allDiagnostics_mapPos {f : Position → Position} (hf : Increasing f) (a : Analysis) :
    (a.mapPos f).allDiagnostics = a.allDiagnostics.map (Diagnostic.mapPos f) := by
  rw [allDiagnostics, mapPos, byName_mapPos, SortedMap.mapValues, flatMap_dissent_mapPos, ← List.map_append,
    allDiagnostics]
  -- sorting is stable, and the order of diagnostics is kept
  exact (List.map_mergeSort fun d _ e _ => (le_mapPos hf d e).symm).symm

theorem perm_kinds_mapPos (a : Analysis) :
    ((a.mapPos f).allDiagnostics.map Diagnostic.kind).Perm (a.allDiagnostics.map Diagnostic.kind) := by
  have hmoved : (a.mapPos f).diagnostics ++ (byName (a.mapPos f).usages).toList.flatMap (fun e => dissent e.2) =
      (a.diagnostics ++ (byName a.usages).toList.flatMap fun e => dissent e.2).map (Diagnostic.mapPos f) := by
    rw [mapPos, byName_mapPos, SortedMap.mapValues, flatMap_dissent_mapPos, ← List.map_append]
  have hkinds : ∀ ds : List Diagnostic, (ds.map (Diagnostic.mapPos f)).map Diagnostic.kind = ds.map Diagnostic.kind :=
    fun ds => List.map_map
  rw [allDiagnostics, hmoved, allDiagnostics]
  refine ((List.mergeSort_perm _ _).map _).trans ?_
  rw [hkinds]
  exact ((List.mergeSort_perm _ _).map _).symm

theorem addTemplate_mapPos (registry : Registry) (a : Analysis) (path : Path) (t : Template) :
    (a.mapPos f).addTemplate registry path (t.mapPos f) = (a.addTemplate registry path t).mapPos f := by
  simp only [addTemplate, mapPos, Template.findings_mapPos, usagesOf_mapPos, diagnosticsOf_mapPos, List.map_append]

theorem foldl_addTemplate_mapPos (registry : Registry) : ∀ (ts : List (Path × Template)) (a : Analysis),
    (ts.map fun t => (t.1, t.2.mapPos f)).foldl (fun a t => a.addTemplate registry t.1 t.2) (a.mapPos f) =
      (ts.foldl (fun a t => a.addTemplate registry t.1 t.2) a).mapPos f
  | [], _ => rfl
  | t :: ts, a => by
    rw [List.map_cons, List.foldl_cons, addTemplate_mapPos, foldl_addTemplate_mapPos registry ts, List.foldl_cons]

theorem analyze_congr (registry : Registry) {f : Position → Position} {t t' : Template}
    (h : (t'.mapPos f).findings registry = (t.mapPos f).findings registry) (path : Path)
    (before after : List (Path × Template)) :
    (analyze registry (before ++ (path, t') :: after)).1 = (analyze registry (before ++ (path, t) :: after)).1 ∧
      ((analyze registry (before ++ (path, t') :: after)).2.map Diagnostic.kind).Perm
        ((analyze registry (before ++ (path, t) :: after)).2.map Diagnostic.kind) := by
  have hmoved : (ofTemplates registry (before ++ (path, t') :: after)).mapPos f =
      (ofTemplates registry (before ++ (path, t) :: after)).mapPos f := by
    rw [Template.findings_mapPos, Template.findings_mapPos] at h
    simp only [ofTemplates, mapPos, List.flatMap_append, List.flatMap_cons, List.map_append, ← usagesOf_mapPos,
      ← diagnosticsOf_mapPos, h]
  rw [analyze_eq, analyze_eq]
  constructor
  · rw [← types_mapPos f, hmoved, types_mapPos]
  · refine (perm_kinds_mapPos f _).symm.trans ?_
    rw [hmoved]
    exact perm_kinds_mapPos f _

end Analysis

/-- **Templates that are moved give the same types and the same diagnostics in the same order**, when the order of
positions is kept. -/
theorem analyze_mapPos {f : Position → Position} (hf : Increasing f) (registry : Registry)
    (ts : List (Path × Template)) : analyze registry (ts.map fun t => (t.1, t.2.mapPos f)) =
      ((analyze registry ts).1, (analyze registry ts).2.map (Diagnostic.mapPos f)) := by
  have h := Analysis.foldl_addTemplate_mapPos f registry ts .empty
  have hempty : Analysis.empty.mapPos f = .empty := rfl
  rw [hempty] at h
  rw [analyze, h, Analysis.types_mapPos, Analysis.allDiagnostics_mapPos hf]
  rfl

end Stencil
