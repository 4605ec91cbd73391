import Stencil.Analysis
import Stencil.Proofs.SortedMap
/-!
# Agreement — what it means that an analysis has nothing to say

Where no diagnostic is left, no template has a problem, and every usage of a name wants the type that was voted for
(`agree_of_analyze`).
-/
namespace Stencil

def Finding.Agrees (types : TypeMap) : Finding → Prop
  | .usage name ty _ => types.find? name = some ty
  | .problem _ _ => False

def Agree (types : TypeMap) (fs : List Finding) : Prop := ∀ x ∈ fs, x.Agrees types

theorem agree_append {types : TypeMap} {fs gs : List Finding} :
    Agree types (fs ++ gs) ↔ Agree types fs ∧ Agree types gs := List.forall_mem_append

namespace Analysis

theorem getD_find?_byName (name : Bytes) : ∀ us : List Usage,
    ((byName us).find? name).getD [] = us.filter fun u => u.name = name
  | [] => rfl
  | u :: us => by
    have ih := getD_find?_byName name us
    show (((byName us).insert u.name (u :: ((byName us).find? u.name).getD [])).find? name).getD [] = _
    by_cases hu : u.name = name
    · subst hu
      rw [SortedMap.find?_insert_self, Option.getD_some, ih, List.filter_cons_of_pos (by simp)]
    · rw [SortedMap.find?_insert_of_ne (fun h => hu h.symm), ih, List.filter_cons_of_neg (by simpa using hu)]

theorem find?_byName {u : Usage} {us : List Usage} (hu : u ∈ us) :
    (byName us).find? u.name = some (us.filter fun w => w.name = u.name) := by
  have h := getD_find?_byName u.name us
  have hmem : u ∈ us.filter fun w => w.name = u.name := List.mem_filter.2 ⟨hu, by simp⟩
  cases hf : (byName us).find? u.name with
  | none =>
    rw [hf] at h
    rw [← h] at hmem
    cases hmem
  | some l =>
    rw [hf, Option.getD_some] at h
    rw [h]

theorem eq_nil_of_allDiagnostics {a : Analysis} (ha : a.allDiagnostics = []) :
    a.diagnostics = [] ∧ ∀ e ∈ (byName a.usages).toList, dissent e.2 = [] := by
  have hperm := List.mergeSort_perm (a.diagnostics ++ (byName a.usages).toList.flatMap fun e => dissent e.2)
    Diagnostic.le
  rw [allDiagnostics] at ha
  rw [ha] at hperm
  have hnil := List.append_eq_nil_iff.1 hperm.symm.eq_nil
  exact ⟨hnil.1, List.flatMap_eq_nil_iff.1 hnil.2⟩

theorem ty_eq_voted {us : List Usage} (h : dissent us = []) {u : Usage} (hu : u ∈ us) : u.ty = voted us := by
  have hf := List.filter_eq_nil_iff.1 (List.map_eq_nil_iff.1 h) u hu
  simpa using hf

/-- **Where nobody dissents, every usage wants the type of its name.** -/
theorem find?_types_of_mem {u : Usage} {a : Analysis} (ha : a.allDiagnostics = []) (hu : u ∈ a.usages) :
    a.types.find? u.name = some u.ty := by
  have hfind := find?_byName hu
  have hd := (eq_nil_of_allDiagnostics ha).2 _ (SortedMap.mem_of_find? hfind)
  have hmem : u ∈ a.usages.filter fun w => w.name = u.name := List.mem_filter.2 ⟨hu, by simp⟩
  rw [types, SortedMap.find?_mapValues, hfind, Option.map_some, ty_eq_voted hd hmem]

theorem foldl_addTemplate (registry : Registry) : ∀ (ts : List (Path × Template)) (a : Analysis),
    ts.foldl (fun a t => a.addTemplate registry t.1 t.2) a =
      ⟨a.usages ++ ts.flatMap fun t => usagesOf t.1 (t.2.findings registry),
        a.diagnostics ++ ts.flatMap fun t => diagnosticsOf t.1 (t.2.findings registry)⟩
  | [], a => by simp
  | t :: ts, a => by
    rw [List.foldl_cons, foldl_addTemplate registry ts, addTemplate]
    simp only [List.flatMap_cons, List.append_assoc]

end Analysis

/-- **Templates whose analysis has nothing to say agree with the types it gives.** -/
theorem agree_of_analyze {registry : Registry} {ts : List (Path × Template)} {types : TypeMap}
    (h : analyze registry ts = (types, [])) {path : Path} {t : Template} (ht : (path, t) ∈ ts) :
    Agree types (t.findings registry) := by
  rw [analyze, Prod.mk.injEq, Analysis.foldl_addTemplate] at h
  obtain ⟨htypes, hnone⟩ := h
  intro x hx
  cases x with
  | usage name ty pos =>
    have hu : ⟨name, ty, pos, path⟩ ∈ Analysis.usagesOf path (t.findings registry) := List.mem_filterMap.2 ⟨_, hx, rfl⟩
    have hmem : ⟨name, ty, pos, path⟩ ∈ ts.flatMap fun t => Analysis.usagesOf t.1 (t.2.findings registry) :=
      List.mem_flatMap.2 ⟨_, ht, hu⟩
    rw [Finding.Agrees, ← htypes]
    exact Analysis.find?_types_of_mem hnone (List.mem_append_right _ hmem)
  | problem kind pos =>
    have hd : ⟨path, pos, kind⟩ ∈ Analysis.diagnosticsOf path (t.findings registry) :=
      List.mem_filterMap.2 ⟨_, hx, rfl⟩
    have hmem : ⟨path, pos, kind⟩ ∈ ts.flatMap fun t => Analysis.diagnosticsOf t.1 (t.2.findings registry) :=
      List.mem_flatMap.2 ⟨_, ht, hd⟩
    have hnil := (List.append_eq_nil_iff.1 (Analysis.eq_nil_of_allDiagnostics hnone).1).2
    rw [hnil] at hmem
    cases hmem

end Stencil
