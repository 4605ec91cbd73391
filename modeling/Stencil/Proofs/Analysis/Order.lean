import Stencil.Proofs.Analysis.Tally
/-!
# Order — analysis does not depend on the order of the templates

Whichever way a set of templates is listed, the same usages and problems are recorded, in another order.  The types and
the multiset of the diagnostics do not see the order at all.  The sorted list sees it in one place: sorting is stable,
so diagnostics at one place, by the components of the path and by position, stay in the order of recording
(`mergeSort_congr`).  Where the paths of the templates differ, all diagnostics at one place come from one template, and
their order among themselves does not depend on the other templates (`Analysis.filter_diagnostics_eq`,
`Analysis.filter_dissents_eq`).
-/
namespace Stencil

/-! ## Stable sorting

A sorted list is determined by the order of its elements within each class of ties. -/

section Sorting

variable {α : Type} {le : α → α → Bool}

/-- Neither of two elements comes before the other. -/
def tied (le : α → α → Bool) (a b : α) : Bool := le a b && le b a

theorem tied_iff {a b : α} : tied le a b = true ↔ le a b = true ∧ le b a = true := Bool.and_eq_true_iff

variable (htotal : ∀ a b, (le a b || le b a) = true)
include htotal

theorem tied_self (a : α) : tied le a a = true := by
  have h : le a a = true := by simpa only [Bool.or_self] using htotal a a
  exact tied_iff.2 ⟨h, h⟩

theorem le_of_filter_tied {a b : α} {l m : List α} (hl : (a :: l).Pairwise fun a b => le a b = true)
    (h : (a :: l).filter (tied le b) = m.filter (tied le b)) (hb : b ∈ m) : le a b = true := by
  have hself := tied_self htotal b
  have hmem : b ∈ (a :: l).filter (tied le b) := by
    rw [h]
    exact List.mem_filter.2 ⟨hb, hself⟩
  rcases List.mem_cons.1 (List.mem_of_mem_filter hmem) with rfl | hmem
  · exact (tied_iff.1 hself).1
  · exact (List.pairwise_cons.1 hl).1 b hmem

theorem eq_of_filter_tied : ∀ {l m : List α}, l.Pairwise (fun a b => le a b = true) →
    m.Pairwise (fun a b => le a b = true) → (∀ a, l.filter (tied le a) = m.filter (tied le a)) → l = m
  | [], [], _, _, _ => rfl
  | [], b :: m, _, _, h => by
    have hb := h b
    rw [List.filter_cons_of_pos (tied_self htotal b)] at hb
    cases hb
  | a :: l, [], _, _, h => by
    have ha := h a
    rw [List.filter_cons_of_pos (tied_self htotal a)] at ha
    cases ha
  | a :: l, b :: m, hl, hm, h => by
    -- each of the two heads stands in the other list, so neither comes before the other
    have hab : le a b = true := le_of_filter_tied htotal hl (h b) List.mem_cons_self
    have hba : le b a = true := le_of_filter_tied htotal hm (h a).symm List.mem_cons_self
    have hhead := h a
    rw [List.filter_cons_of_pos (tied_self htotal a), List.filter_cons_of_pos (tied_iff.2 ⟨hab, hba⟩)] at hhead
    obtain rfl := (List.cons.inj hhead).1
    have htail : ∀ c, l.filter (tied le c) = m.filter (tied le c) := fun c => by
      have hc := h c
      rw [List.filter_cons, List.filter_cons] at hc
      split at hc
      · exact (List.cons.inj hc).2
      · exact hc
    rw [eq_of_filter_tied hl.of_cons hm.of_cons htail]

variable (htrans : ∀ a b c, le a b = true → le b c = true → le a c = true)
include htrans

/-- **Sorting keeps ties in order.** -/
theorem filter_mergeSort (a : α) (l : List α) : (l.mergeSort le).filter (tied le a) = l.filter (tied le a) := by
  have hties : (l.filter (tied le a)).Pairwise fun b c => le b c = true :=
    List.pairwise_of_forall_mem_list fun b hb c hc =>
      htrans b a c (tied_iff.1 (List.mem_filter.1 hb).2).2 (tied_iff.1 (List.mem_filter.1 hc).2).1
  have hsub := (List.sublist_mergeSort htrans htotal hties List.filter_sublist).filter (tied le a)
  simp only [List.filter_filter, Bool.and_self] at hsub
  exact (hsub.eq_of_length ((List.mergeSort_perm l le).filter _).length_eq.symm).symm

/-- **The sorted list depends only on the order within each class of ties.** -/
theorem mergeSort_congr {l m : List α} (h : ∀ a, l.filter (tied le a) = m.filter (tied le a)) :
    l.mergeSort le = m.mergeSort le :=
  eq_of_filter_tied htotal (List.pairwise_mergeSort htrans htotal l) (List.pairwise_mergeSort htrans htotal m)
    fun a => by rw [filter_mergeSort htotal htrans, filter_mergeSort htotal htrans, h a]

end Sorting

/-! ## The order of diagnostics -/

namespace KeyOrder

variable {κ : Type} [KeyOrder κ]

theorem lt_or_eq_or_lt (a b : κ) : lt a b = true ∨ a = b ∨ lt b a = true := by
  cases hab : lt a b with
  | true => exact .inl rfl
  | false =>
    cases hba : lt b a with
    | true => exact .inr (.inr rfl)
    | false => exact .inr (.inl (eq_of_not_lt a b hab hba))

end KeyOrder

namespace Diagnostic

open KeyOrder (lt lt_or_eq_or_lt)

theorem before_iff {d e : Diagnostic} : before d e = true ↔ lt d.path.components e.path.components = true ∨
    d.path.components = e.path.components ∧ lt d.pos e.pos = true := by
  rw [before, Bool.or_eq_true, Bool.and_eq_true, Bool.not_eq_true']
  constructor
  · rintro (h | ⟨h, hpos⟩)
    · exact .inl h
    · rcases lt_or_eq_or_lt d.path.components e.path.components with hlt | heq | hgt
      · exact .inl hlt
      · exact .inr ⟨heq, hpos⟩
      · rw [h] at hgt
        cases hgt
  · rintro (h | ⟨h, hpos⟩)
    · exact .inl h
    · exact .inr ⟨by rw [h, KeyOrder.irrefl], hpos⟩

theorem before_trans {d e g : Diagnostic} (h₁ : before d e = true) (h₂ : before e g = true) : before d g = true := by
  rw [before_iff] at h₁ h₂ ⊢
  rcases h₁ with h₁ | ⟨hc₁, h₁⟩ <;> rcases h₂ with h₂ | ⟨hc₂, h₂⟩
  · exact .inl (KeyOrder.trans _ _ _ h₁ h₂)
  · exact .inl (hc₂ ▸ h₁)
  · exact .inl (hc₁ ▸ h₂)
  · exact .inr ⟨hc₁.trans hc₂, KeyOrder.trans _ _ _ h₁ h₂⟩

theorem not_before_self (d : Diagnostic) : ¬ before d d = true := fun h => by
  rw [before_iff, KeyOrder.irrefl, KeyOrder.irrefl] at h
  rcases h with h | ⟨-, h⟩ <;> cases h

theorem before_or_before {d e : Diagnostic} :
    before d e = true ∨ (d.path.components = e.path.components ∧ d.pos = e.pos) ∨ before e d = true := by
  rw [before_iff, before_iff]
  rcases lt_or_eq_or_lt d.path.components e.path.components with h | h | h
  · exact .inl (.inl h)
  · rcases lt_or_eq_or_lt d.pos e.pos with hp | hp | hp
    · exact .inl (.inr ⟨h, hp⟩)
    · exact .inr (.inl ⟨h, hp⟩)
    · exact .inr (.inr (.inr ⟨h.symm, hp⟩))
  · exact .inr (.inr (.inl h))

theorem le_total (d e : Diagnostic) : (le d e || le e d) = true := by
  cases h : before e d with
  | false => rw [le, h, Bool.not_false, Bool.true_or]
  | true =>
    cases h' : before d e with
    | false => rw [le, le, h, h', Bool.not_false, Bool.or_true]
    | true => exact absurd (before_trans h h') (not_before_self e)

theorem le_trans (d e g : Diagnostic) (h₁ : le d e = true) (h₂ : le e g = true) : le d g = true := by
  rw [le, Bool.not_eq_true'] at h₁ h₂ ⊢
  rw [← Bool.not_eq_true] at h₁ h₂ ⊢
  intro h
  rcases before_or_before (d := d) (e := e) with hde | ⟨hc, hp⟩ | hed
  · exact h₂ (before_trans h hde)
  · rw [before_iff, hc, hp] at h
    exact h₂ (before_iff.2 h)
  · exact h₁ hed

theorem components_eq_of_tied {d e : Diagnostic} (h : tied le d e = true) : e.path.components = d.path.components := by
  rw [tied_iff, le, le, Bool.not_eq_true', Bool.not_eq_true', ← Bool.not_eq_true, ← Bool.not_eq_true] at h
  rcases before_or_before (d := d) (e := e) with hde | ⟨hc, -⟩ | hed
  · exact absurd hde h.2
  · exact hc.symm
  · exact absurd hed h.1

end Diagnostic

/-! ## Permuted templates -/

/-- Where the keys of a list differ and only one of them contributes, the order of the list does not matter. -/
theorem flatMap_eq_of_perm {α β κ : Type} {key : α → κ} {k : κ} {g : α → List β}
    (hg : ∀ a, key a ≠ k → g a = []) {l m : List α} (h : l.Perm m) (hl : l.Pairwise fun a b => key a ≠ key b) :
    l.flatMap g = m.flatMap g := by
  induction h with
  | nil => rfl
  | cons a _ ih => rw [List.flatMap_cons, List.flatMap_cons, ih (List.pairwise_cons.1 hl).2]
  | swap a b l =>
    have hba : key b ≠ key a := (List.pairwise_cons.1 hl).1 a List.mem_cons_self
    rw [List.flatMap_cons, List.flatMap_cons, List.flatMap_cons, List.flatMap_cons]
    by_cases ha : key a = k
    · rw [hg b (ha ▸ hba), List.nil_append, List.nil_append]
    · rw [hg a ha, List.nil_append, List.nil_append]
  | trans h₁ _ ih₁ ih₂ => exact (ih₁ hl).trans (ih₂ (h₁.pairwise hl fun h => h.symm))

namespace Analysis

def ofTemplates (registry : Registry) (ts : List (Path × Template)) : Analysis :=
  ⟨ts.flatMap fun t => usagesOf t.1 (t.2.findings registry), ts.flatMap fun t => diagnosticsOf t.1 (t.2.findings registry)⟩

theorem analyze_eq (registry : Registry) (ts : List (Path × Template)) :
    analyze registry ts = ((ofTemplates registry ts).types, (ofTemplates registry ts).allDiagnostics) := by
  rw [analyze, foldl_addTemplate]
  rfl

theorem path_of_mem_usagesOf {path : Path} {fs : List Finding} {u : Usage} (h : u ∈ usagesOf path fs) :
    u.path = path := by
  obtain ⟨x, -, hx⟩ := List.mem_filterMap.1 h
  cases x <;> cases hx
  rfl

theorem path_of_mem_diagnosticsOf {path : Path} {fs : List Finding} {d : Diagnostic} (h : d ∈ diagnosticsOf path fs) :
    d.path = path := by
  obtain ⟨x, -, hx⟩ := List.mem_filterMap.1 h
  cases x <;> cases hx
  rfl

def tiedUsage (d : Diagnostic) (u : Usage) : Bool := tied Diagnostic.le d ⟨u.path, u.pos, d.kind⟩

theorem filter_dissents (d : Diagnostic) (us : List Usage) :
    ((byName us).toList.flatMap fun e => dissent e.2).filter (tied Diagnostic.le d) =
      (byName us).keys.flatMap fun name =>
        ((usagesNamed name (us.filter (tiedUsage d))).filter fun u => u.ty ≠ voted (usagesNamed name us)).map fun u =>
          ⟨u.path, u.pos, .wrongUsage (voted (usagesNamed name us)) u.ty⟩ := by
  rw [dissents_eq, List.filter_flatMap]
  refine congrArg (List.flatMap · _) (funext fun name => ?_)
  rw [dissent, List.filter_map, List.filter_filter, usagesNamed, usagesNamed, List.filter_filter, List.filter_filter,
    List.filter_filter]
  refine congrArg (List.map _) (List.filter_congr fun u _ => ?_)
  exact (Bool.and_assoc _ _ _).trans (Bool.and_comm _ _)

variable {registry : Registry} {ts us : List (Path × Template)}

theorem perm_usages (h : ts.Perm us) : (ofTemplates registry ts).usages.Perm (ofTemplates registry us).usages :=
  h.flatMap_right _

theorem perm_diagnostics (h : ts.Perm us) :
    (ofTemplates registry ts).diagnostics.Perm (ofTemplates registry us).diagnostics := h.flatMap_right _

theorem perm_allDiagnostics (h : ts.Perm us) :
    (ofTemplates registry ts).allDiagnostics.Perm (ofTemplates registry us).allDiagnostics :=
  (List.mergeSort_perm _ _).trans
    (((perm_diagnostics h).append (perm_dissents (perm_usages h))).trans (List.mergeSort_perm _ _).symm)

theorem filter_diagnostics_eq (h : ts.Perm us)
    (hts : ts.Pairwise fun t u => t.1.components ≠ u.1.components) (d : Diagnostic) :
    (ofTemplates registry ts).diagnostics.filter (tied Diagnostic.le d) =
      (ofTemplates registry us).diagnostics.filter (tied Diagnostic.le d) := by
  rw [ofTemplates, ofTemplates, List.filter_flatMap, List.filter_flatMap]
  refine flatMap_eq_of_perm (k := d.path.components) (fun t ht => List.filter_eq_nil_iff.2 fun e he htied => ht ?_) h hts
  rw [← path_of_mem_diagnosticsOf he]
  exact Diagnostic.components_eq_of_tied htied

theorem filter_usages_eq (h : ts.Perm us)
    (hts : ts.Pairwise fun t u => t.1.components ≠ u.1.components) (d : Diagnostic) :
    (ofTemplates registry ts).usages.filter (tiedUsage d) = (ofTemplates registry us).usages.filter (tiedUsage d) := by
  rw [ofTemplates, ofTemplates, List.filter_flatMap, List.filter_flatMap]
  refine flatMap_eq_of_perm (k := d.path.components) (fun t ht => List.filter_eq_nil_iff.2 fun u hu htied => ht ?_) h hts
  rw [← path_of_mem_usagesOf hu]
  exact Diagnostic.components_eq_of_tied htied

/-- Where the paths differ, the dissent at one place comes in the order of the names, and for one name in the order of
one template. -/
theorem filter_dissents_eq (h : ts.Perm us)
    (hts : ts.Pairwise fun t u => t.1.components ≠ u.1.components) (d : Diagnostic) :
    ((byName (ofTemplates registry ts).usages).toList.flatMap fun e => dissent e.2).filter (tied Diagnostic.le d) =
      ((byName (ofTemplates registry us).usages).toList.flatMap fun e => dissent e.2).filter (tied Diagnostic.le d) := by
  have hperm : (ofTemplates registry ts).usages.Perm (ofTemplates registry us).usages := perm_usages h
  have hvoted : ∀ name, voted (usagesNamed name (ofTemplates registry ts).usages) =
      voted (usagesNamed name (ofTemplates registry us).usages) := voted_congr (hperm.map _)
  rw [filter_dissents, filter_dissents, keys_byName_congr (hperm.map _), filter_usages_eq h hts]
  simp only [hvoted]

end Analysis

/-- **Analysis does not depend on the order of the templates.**  In whatever order they come, they give the same types
and the same diagnostics with the same multiplicities; and where no two of their paths have the same components, the
diagnostics are listed in the same order, those at one place included. -/
theorem analyze_perm (registry : Registry) {ts us : List (Path × Template)} (h : ts.Perm us) :
    (analyze registry ts).1 = (analyze registry us).1 ∧
      (analyze registry ts).2.Perm (analyze registry us).2 ∧
      (ts.Pairwise (fun t u => t.1.components ≠ u.1.components) → (analyze registry ts).2 = (analyze registry us).2) := by
  rw [Analysis.analyze_eq, Analysis.analyze_eq]
  refine ⟨Analysis.types_congr ((Analysis.perm_usages h).map _), Analysis.perm_allDiagnostics h, fun hts => ?_⟩
  refine mergeSort_congr Diagnostic.le_total Diagnostic.le_trans fun d => ?_
  rw [List.filter_append, List.filter_append, Analysis.filter_diagnostics_eq h hts, Analysis.filter_dissents_eq h hts]

/-- Two templates that want different types of one name. -/
def dispute : List (Path × Template) :=
  [(utf8 "a", [.render (.var ⟨utf8 "x", ⟨0, 3⟩⟩)]), (utf8 "b", [.render (.not (.var ⟨utf8 "x", ⟨0, 4⟩⟩) ⟨0, 3⟩)])]

theorem analyze_perm_at_dispute :
    dispute.Perm dispute.reverse ∧ dispute.Pairwise (fun t u => t.1.components ≠ u.1.components) ∧
      (analyze .standard dispute.reverse).1.toList = [(utf8 "x", .string)] ∧
      (analyze .standard dispute).2.Perm (analyze .standard dispute.reverse).2 ∧
      (analyze .standard dispute).2 = (analyze .standard dispute.reverse).2 := by
  have hperm : dispute.Perm dispute.reverse := (List.reverse_perm dispute).symm
  have hpaths : dispute.Pairwise fun t u => t.1.components ≠ u.1.components := by decide
  have htypes : (analyze .standard dispute).1.toList = [(utf8 "x", .string)] := by decide
  obtain ⟨hsame, hdiagnostics, hlist⟩ := analyze_perm .standard hperm
  exact ⟨hperm, hpaths, hsame ▸ htypes, hdiagnostics, hlist hpaths⟩

end Stencil
