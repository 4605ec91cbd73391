import Stencil.Proofs.Analysis.Order
/-!
# Results — what becomes of everything that is recorded

An analysis is asked to record usages, diagnostics and whole templates, in any order (`Analysis.ofCalls`).  Its results
account for all of it (`Analysis.Accounts`): every used name has the type that wins the vote among its usages, every
recorded diagnostic is listed, and every usage that lost the vote has a diagnostic of its own.  Nothing else is listed.
-/
namespace Stencil

/-! ## The vote -/

/-- The first of the elements of a list with the greatest score: those before it have less, those after it no more. -/
def FirstMax {α : Type} (score : α → Nat) (l : List α) (a : α) : Prop :=
  ∃ before after, l = before ++ a :: after ∧ (∀ b ∈ before, score b < score a) ∧ ∀ b ∈ after, score b ≤ score a

namespace FirstMax

variable {α : Type} {score : α → Nat} {l : List α} {a b c : α}

theorem le (h : FirstMax score l a) (hb : b ∈ l) : score b ≤ score a := by
  obtain ⟨before, after, rfl, hbefore, hafter⟩ := h
  rcases List.mem_append.1 hb with hb | hb
  · exact Nat.le_of_lt (hbefore b hb)
  · rcases List.mem_cons.1 hb with rfl | hb
    · exact Nat.le_refl _
    · exact hafter b hb

theorem cons (h : FirstMax score l a) (hb : score b < score a) : FirstMax score (b :: l) a := by
  obtain ⟨before, after, rfl, hbefore, hafter⟩ := h
  exact ⟨b :: before, after, rfl, List.forall_mem_cons.2 ⟨hb, hbefore⟩, hafter⟩

theorem insert (h : FirstMax score (b :: l) a) (hc : score c ≤ score b) : FirstMax score (b :: c :: l) a := by
  obtain ⟨before, after, heq, hbefore, hafter⟩ := h
  cases before with
  | nil =>
    obtain ⟨rfl, rfl⟩ := List.cons_eq_cons.1 heq
    exact ⟨[], c :: l, rfl, nofun, List.forall_mem_cons.2 ⟨hc, hafter⟩⟩
  | cons d before =>
    obtain ⟨rfl, rfl⟩ := List.cons_eq_cons.1 heq
    obtain ⟨hb, hbefore⟩ := List.forall_mem_cons.1 hbefore
    refine ⟨b :: c :: before, after, rfl, List.forall_mem_cons.2 ⟨hb, List.forall_mem_cons.2 ⟨?_, hbefore⟩⟩, hafter⟩
    exact Nat.lt_of_le_of_lt hc hb

/-- **Going through a list and changing to what has more ends at the first of the greatest.** -/
theorem foldl (score : α → Nat) : ∀ (l : List α) (b : α),
    FirstMax score (b :: l) (l.foldl (fun best c => if Nat.blt (score best) (score c) then c else best) b)
  | [], b => ⟨[], [], rfl, nofun, nofun⟩
  | c :: l, b => by
    rw [List.foldl_cons]
    split
    · rename_i hlt
      have hc := foldl score l c
      rw [Nat.blt_eq] at hlt
      exact hc.cons (Nat.lt_of_lt_of_le hlt (hc.le List.mem_cons_self))
    · rename_i hle
      rw [Nat.blt_eq, Nat.not_lt] at hle
      exact (foldl score l b).insert hle

end FirstMax

/-- **The type voted for is the first of those that stand most often.** -/
theorem Ty.firstMax_vote (tys : List Ty) : FirstMax tys.count Ty.all (Ty.vote tys) := by
  have hfirst : Nat.blt (tys.count Ty.string) (tys.count Ty.string) = false := blt_eq_false.2 (Nat.le_refl _)
  have hvote := FirstMax.foldl tys.count [.bool, .function] .string
  rw [Ty.vote, Ty.all, List.foldl_cons, hfirst]
  exact hvote

/-- Two types may stand equally often. -/
example : Ty.vote [.bool, .function, .string, .bool, .string] = .string := by decide

theorem Ty.mem_all (t : Ty) : t ∈ Ty.all := by cases t <;> decide

/-! ## Recording -/

inductive Analysis.Call
  | usage (u : Usage)
  | diagnostic (d : Diagnostic)
  | template (path : Path) (t : Template)

namespace Analysis

def Call.usages (registry : Registry) : Call → List Usage
  | .usage u => [u]
  | .diagnostic _ => []
  | .template path t => usagesOf path (t.findings registry)

def Call.diagnostics (registry : Registry) : Call → List Diagnostic
  | .usage _ => []
  | .diagnostic d => [d]
  | .template path t => diagnosticsOf path (t.findings registry)

def record (registry : Registry) (a : Analysis) : Call → Analysis
  | .usage u => a.addUsage u
  | .diagnostic d => a.addDiagnostic d
  | .template path t => a.addTemplate registry path t

def ofCalls (registry : Registry) (calls : List Call) : Analysis := calls.foldl (record registry) .empty

theorem record_eq (registry : Registry) (a : Analysis) (c : Call) :
    record registry a c = ⟨a.usages ++ c.usages registry, a.diagnostics ++ c.diagnostics registry⟩ := by
  cases c with
  | usage u => simp [record, addUsage, Call.usages, Call.diagnostics]
  | diagnostic d => simp [record, addDiagnostic, Call.usages, Call.diagnostics]
  | template path t => rfl

/-- **Nothing that is recorded gets lost**, and all of it stays in the order of the calls. -/
theorem ofCalls_eq (registry : Registry) (calls : List Call) :
    ofCalls registry calls = ⟨calls.flatMap (Call.usages registry), calls.flatMap (Call.diagnostics registry)⟩ := by
  have hrun : ∀ (calls : List Call) (a : Analysis), calls.foldl (record registry) a =
      ⟨a.usages ++ calls.flatMap (Call.usages registry), a.diagnostics ++ calls.flatMap (Call.diagnostics registry)⟩ := by
    intro calls
    induction calls with
    | nil => simp
    | cons c calls ih =>
      intro a
      rw [List.foldl_cons, ih, record_eq]
      simp only [List.flatMap_cons, List.append_assoc]
  exact hrun calls .empty

end Analysis

/-! ## The account -/

def Diagnostic.SamePlace (d e : Diagnostic) : Prop := d.path.components = e.path.components ∧ d.pos = e.pos

instance (d e : Diagnostic) : Decidable (d.SamePlace e) := inferInstanceAs (Decidable (_ ∧ _))

def Usage.dissent? (types : TypeMap) (u : Usage) : Option Diagnostic :=
  match types.find? u.name with
  | some ty => if u.ty = ty then none else some ⟨u.path, u.pos, .wrongUsage ty u.ty⟩
  | none => none

def Analysis.against (us : List Usage) (name : Bytes) (ty : Ty) : List Usage :=
  (Analysis.usagesNamed name us).filter fun u => u.ty ≠ ty

/-- Types and diagnostics account for the usages and diagnostics that were recorded. -/
structure Analysis.Accounts (us : List Usage) (ds : List Diagnostic) (types : TypeMap) (all : List Diagnostic) :
    Prop where
  names : ∀ name, name ∈ types.keys ↔ ∃ u ∈ us, u.name = name
  voted : ∀ name ty, types.find? name = some ty → FirstMax ((usagesNamed name us).map Usage.ty).count Ty.all ty
  /-- No other type would have left fewer usages that want another one. -/
  fewest : ∀ name ty, types.find? name = some ty → ∀ ty', (against us name ty).length ≤ (against us name ty').length
  listed : all.Perm (ds ++ us.filterMap (Usage.dissent? types))
  inOrder : all.Pairwise fun d e => KeyOrder.lt d.path.components e.path.components = true ∨
    d.path.components = e.path.components ∧ (KeyOrder.lt d.pos e.pos = true ∨ d.pos = e.pos)
  /-- At one place the recorded ones come first, then the others by name, each in the order of recording. -/
  ties : ∀ d : Diagnostic, all.filter (fun e => d.SamePlace e) = (ds ++ types.keys.flatMap fun name =>
    (usagesNamed name us).filterMap (Usage.dissent? types)).filter fun e => d.SamePlace e

namespace Analysis

variable {a : Analysis} {us : List Usage} {name : Bytes} {ty : Ty}

theorem keys_types (a : Analysis) : a.types.keys = (byName a.usages).keys := by
  rw [SortedMap.keys, toList_types, List.map_map]
  exact List.map_id _

theorem mem_keys_types : name ∈ a.types.keys ↔ ∃ u ∈ a.usages, u.name = name := by
  rw [keys_types, mem_keys_byName, List.mem_map]

theorem find?_types : a.types.find? name = some ty ↔ name ∈ a.types.keys ∧ ty = voted (usagesNamed name a.usages) := by
  have hlist : ∀ e ∈ a.types.toList, e.2 = voted (usagesNamed e.1 a.usages) := by
    rw [toList_types]
    rintro e he
    obtain ⟨name, -, rfl⟩ := List.mem_map.1 he
    rfl
  constructor
  · intro h
    exact ⟨SortedMap.mem_keys.2 (by rw [h]; exact Option.some_ne_none _), hlist _ (SortedMap.mem_of_find? h)⟩
  · rintro ⟨hname, rfl⟩
    obtain ⟨⟨name, ty⟩, he, rfl⟩ := List.mem_map.1 hname
    rw [SortedMap.find?_of_mem he]
    exact congrArg some (hlist _ he)

theorem firstMax_of_find?_types (h : a.types.find? name = some ty) :
    FirstMax ((usagesNamed name a.usages).map Usage.ty).count Ty.all ty := by
  rw [(find?_types.1 h).2]
  exact Ty.firstMax_vote _

theorem count_add_length_against (us : List Usage) (name : Bytes) (ty : Ty) :
    ((usagesNamed name us).map Usage.ty).count ty + (against us name ty).length = (usagesNamed name us).length := by
  have hcount : ((usagesNamed name us).map Usage.ty).count ty = (usagesNamed name us).countP fun u => u.ty = ty := by
    rw [List.count, List.countP_map]
    exact List.countP_congr fun u _ => by simp
  rw [hcount, against, ← List.countP_eq_length_filter, List.length_eq_countP_add_countP fun u : Usage => u.ty = ty]
  simp

theorem length_against_le (h : FirstMax ((usagesNamed name us).map Usage.ty).count Ty.all ty) (ty' : Ty) :
    (against us name ty).length ≤ (against us name ty').length := by
  have hty := count_add_length_against us name ty
  have hty' := count_add_length_against us name ty'
  have hle := h.le (Ty.mem_all ty')
  omega

/-! ## Dissent -/

theorem dissent_usagesNamed (hname : name ∈ a.types.keys) :
    dissent (usagesNamed name a.usages) = (usagesNamed name a.usages).filterMap (Usage.dissent? a.types) := by
  have hone : ∀ u ∈ usagesNamed name a.usages, u.dissent? a.types =
      if u.ty ≠ voted (usagesNamed name a.usages) then
        some ⟨u.path, u.pos, .wrongUsage (voted (usagesNamed name a.usages)) u.ty⟩
      else none := by
    intro u hu
    obtain rfl : u.name = name := by simpa using (List.mem_filter.1 hu).2
    rw [Usage.dissent?, find?_types.2 ⟨hname, rfl⟩, ite_not]
  rw [List.filterMap_congr hone, dissent, ← List.filterMap_eq_map, List.filterMap_filter]
  simp

/-- Whatever has one of several different keys can be listed key by key. -/
theorem perm_flatMap_filter {α κ : Type} [DecidableEq κ] (key : α → κ) (l : List α) : ∀ {ks : List κ}, ks.Nodup →
    (ks.flatMap fun k => l.filter fun a => key a = k).Perm (l.filter fun a => key a ∈ ks)
  | [], _ => by simp
  | k :: ks, h => by
    obtain ⟨hk, hks⟩ := List.nodup_cons.1 h
    have hsplit := List.filter_append_perm (fun a => key a = k) (l.filter fun a => key a ∈ k :: ks)
    have hself : (l.filter fun a => key a ∈ k :: ks).filter (fun a => key a = k) = l.filter fun a => key a = k := by
      rw [List.filter_filter]
      refine List.filter_congr fun a _ => ?_
      by_cases ha : key a = k <;> simp [ha]
    have hrest : (l.filter fun a => key a ∈ k :: ks).filter (fun a => !decide (key a = k)) =
        l.filter fun a => key a ∈ ks := by
      rw [List.filter_filter]
      refine List.filter_congr fun a _ => ?_
      by_cases ha : key a = k
      · simp [ha, hk]
      · simp [ha]
    rw [hself, hrest] at hsplit
    rw [List.flatMap_cons]
    exact ((perm_flatMap_filter key l hks).append_left _).trans hsplit

theorem perm_usagesNamed (a : Analysis) : (a.types.keys.flatMap fun name => usagesNamed name a.usages).Perm a.usages := by
  have hperm := perm_flatMap_filter Usage.name a.usages (a.types.pairwise_keys.imp KeyOrder.ne_of_lt)
  rwa [List.filter_eq_self.2 fun u hu => by simpa using mem_keys_types.2 ⟨u, hu, rfl⟩] at hperm

theorem dissents_types (a : Analysis) : ((byName a.usages).toList.flatMap fun e => dissent e.2) =
    a.types.keys.flatMap fun name => (usagesNamed name a.usages).filterMap (Usage.dissent? a.types) := by
  rw [dissents_eq, ← keys_types, List.flatMap_def, List.flatMap_def,
    List.map_congr_left fun name hname => dissent_usagesNamed hname]

theorem perm_dissents_types (a : Analysis) : (a.types.keys.flatMap fun name =>
    (usagesNamed name a.usages).filterMap (Usage.dissent? a.types)).Perm (a.usages.filterMap (Usage.dissent? a.types)) := by
  rw [← List.filterMap_flatMap]
  exact (perm_usagesNamed a).filterMap _

end Analysis

/-! ## The order of the list -/

namespace Diagnostic

theorem tied_iff_samePlace {d e : Diagnostic} : tied le d e = true ↔ d.SamePlace e := by
  rw [tied_iff, le, le, Bool.not_eq_true', Bool.not_eq_true', ← Bool.not_eq_true, ← Bool.not_eq_true]
  constructor
  · rintro ⟨hed, hde⟩
    exact (before_or_before.resolve_left hde).resolve_right hed
  · rintro ⟨hc, hp⟩
    simp only [before_iff, hc, hp, KeyOrder.irrefl]
    simp

theorem le_iff {d e : Diagnostic} : le d e = true ↔ KeyOrder.lt d.path.components e.path.components = true ∨
    d.path.components = e.path.components ∧ (KeyOrder.lt d.pos e.pos = true ∨ d.pos = e.pos) := by
  rw [le, Bool.not_eq_true', ← Bool.not_eq_true]
  constructor
  · intro h
    rcases before_or_before (d := d) (e := e) with hd | ⟨hc, hp⟩ | he
    · exact (before_iff.1 hd).imp_right (.imp_right .inl)
    · exact .inr ⟨hc, .inr hp⟩
    · exact absurd he h
  · rintro h he
    rcases h with h | ⟨hc, h | h⟩
    · exact not_before_self d (before_trans (before_iff.2 (.inl h)) he)
    · exact not_before_self d (before_trans (before_iff.2 (.inr ⟨hc, h⟩)) he)
    · rw [before_iff, hc, h, KeyOrder.irrefl, KeyOrder.irrefl] at he
      simp at he

end Diagnostic

namespace Analysis

/-- **Sorting an analysis loses and adds nothing**: its results account for what it has recorded. -/
theorem accounts (a : Analysis) : Accounts a.usages a.diagnostics a.types a.allDiagnostics where
  names _ := mem_keys_types
  voted _ _ h := firstMax_of_find?_types h
  fewest _ _ h := length_against_le (firstMax_of_find?_types h)
  listed := by
    rw [allDiagnostics, dissents_types]
    exact (List.mergeSort_perm _ _).trans ((perm_dissents_types a).append_left _)
  inOrder := (List.pairwise_mergeSort Diagnostic.le_trans Diagnostic.le_total _).imp Diagnostic.le_iff.1
  ties d := by
    have hsorted := filter_mergeSort Diagnostic.le_total Diagnostic.le_trans d
      (a.diagnostics ++ (byName a.usages).toList.flatMap fun e => dissent e.2)
    have hplace : tied Diagnostic.le d = fun e => decide (d.SamePlace e) :=
      funext fun e => Bool.eq_iff_iff.2 (Diagnostic.tied_iff_samePlace.trans decide_eq_true_iff.symm)
    rw [allDiagnostics, dissents_types]
    rwa [hplace, dissents_types] at hsorted

/-- **The results of an analysis account for everything it was asked to record**, whatever the calls and their order. -/
theorem results_account (registry : Registry) (calls : List Call) :
    Accounts (calls.flatMap (Call.usages registry)) (calls.flatMap (Call.diagnostics registry))
      (ofCalls registry calls).types (ofCalls registry calls).allDiagnostics := by
  have h := accounts (ofCalls registry calls)
  rwa [ofCalls_eq] at h ⊢

end Analysis
end Stencil
