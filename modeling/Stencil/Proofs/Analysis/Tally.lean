import Mathlib.Data.List.Perm.Basic
import Stencil.Proofs.Analysis.Agreement
/-!
# Tally — the results of an analysis, name by name

The table of usages is the list of used names, each with its usages in order (`Analysis.toList_byName`).  So the types
depend only on which types are wanted of a name and how often (`Analysis.types_congr`), and the dissent, up to order,
only on which usages there are (`Analysis.perm_dissents`).
-/
namespace Stencil

def Usage.demand (u : Usage) : Bytes × Ty := (u.name, u.ty)

namespace Analysis

def usagesNamed (name : Bytes) (us : List Usage) : List Usage := us.filter fun u => u.name = name

theorem find?_byName_eq_none {name : Bytes} : ∀ {us : List Usage},
    (byName us).find? name = none ↔ ∀ u ∈ us, u.name ≠ name
  | [] => ⟨fun _ _ hu => (List.not_mem_nil hu).elim, fun _ => rfl⟩
  | u :: us => by
    show ((byName us).insert u.name _).find? name = none ↔ _
    rw [SortedMap.find?_insert_eq_none, find?_byName_eq_none, List.forall_mem_cons, ne_comm]

theorem mem_keys_byName {name : Bytes} {us : List Usage} : name ∈ (byName us).keys ↔ name ∈ us.map Usage.name := by
  rw [SortedMap.mem_keys, ne_eq, find?_byName_eq_none, List.mem_map]
  simp only [ne_eq, Classical.not_forall, Classical.not_not, exists_prop]

theorem keys_byName_congr {us vs : List Usage} (h : (us.map Usage.name).Perm (vs.map Usage.name)) :
    (byName us).keys = (byName vs).keys :=
  SortedMap.keys_congr fun name => by rw [mem_keys_byName, mem_keys_byName, h.mem_iff]

/-- **A table lists every used name with its usages.** -/
theorem toList_byName (us : List Usage) :
    (byName us).toList = (byName us).keys.map fun name => (name, usagesNamed name us) := by
  have hentry : ∀ e ∈ (byName us).toList, id e = (e.1, usagesNamed e.1 us) := fun e he => by
    have hget := getD_find?_byName e.1 us
    rw [SortedMap.find?_of_mem (k := e.1) (v := e.2) he, Option.getD_some] at hget
    rw [usagesNamed, ← hget, id]
  rw [SortedMap.keys, List.map_map]
  exact (List.map_id _).symm.trans (List.map_congr_left hentry)

/-! ## Types -/

theorem vote_congr {tys tys' : List Ty} (h : tys.Perm tys') : Ty.vote tys = Ty.vote tys' := by
  simp only [Ty.vote, h.count_eq]

theorem map_ty_usagesNamed (name : Bytes) (us : List Usage) :
    (usagesNamed name us).map Usage.ty = ((us.map Usage.demand).filter fun d => d.1 = name).map Prod.snd := by
  rw [usagesNamed, List.filter_map, List.map_map]
  rfl

theorem voted_congr {us vs : List Usage} (h : (us.map Usage.demand).Perm (vs.map Usage.demand)) (name : Bytes) :
    voted (usagesNamed name us) = voted (usagesNamed name vs) := by
  refine vote_congr ?_
  rw [map_ty_usagesNamed, map_ty_usagesNamed]
  exact (h.filter _).map _

theorem toList_types (a : Analysis) :
    a.types.toList = (byName a.usages).keys.map fun name => (name, voted (usagesNamed name a.usages)) := by
  rw [types, SortedMap.mapValues]
  dsimp only
  rw [toList_byName, List.map_map]
  rfl

/-- **The types depend only on what is wanted of the names**, in any order and at any place. -/
theorem types_congr {a b : Analysis} (h : (a.usages.map Usage.demand).Perm (b.usages.map Usage.demand)) :
    a.types = b.types := by
  have hnames : (a.usages.map Usage.name).Perm (b.usages.map Usage.name) := by
    have hfst := h.map Prod.fst
    rwa [List.map_map, List.map_map] at hfst
  have hlist : a.types.toList = b.types.toList := by
    rw [toList_types, toList_types, keys_byName_congr hnames]
    simp only [voted_congr h]
  cases ha : a.types
  cases hb : b.types
  rw [ha, hb] at hlist
  cases hlist
  rfl

/-! ## Dissent -/

theorem dissents_eq (us : List Usage) :
    (byName us).toList.flatMap (fun e => dissent e.2) =
      (byName us).keys.flatMap fun name => dissent (usagesNamed name us) := by
  rw [toList_byName, List.flatMap_map]

theorem perm_dissent {us vs : List Usage} (h : us.Perm vs) : (dissent us).Perm (dissent vs) := by
  have hvoted : voted us = voted vs := vote_congr (h.map _)
  rw [dissent, dissent, hvoted]
  exact (h.filter _).map _

theorem perm_dissents {us vs : List Usage} (h : us.Perm vs) :
    ((byName us).toList.flatMap fun e => dissent e.2).Perm ((byName vs).toList.flatMap fun e => dissent e.2) := by
  rw [dissents_eq, dissents_eq, keys_byName_congr (h.map _)]
  exact List.Perm.flatMap_left _ fun name _ => perm_dissent (h.filter _)

end Analysis
end Stencil
