import Stencil.SortedMap
/-!
# SortedMap — what is found in a map

A binding is found where it was made, other keys are left alone, and a change of all values changes what is found.
Which keys a map has also says in which order they are listed (`keys_congr`).
-/
namespace Stencil
namespace SortedMap

open KeyOrder (lt)

variable {κ ν μ : Type} [KeyOrder κ]

theorem findEntry_insertEntry_self (k : κ) (v : ν) : ∀ es : List (κ × ν), findEntry k (insertEntry k v es) = some v
  | [] => by rw [insertEntry, findEntry, KeyOrder.irrefl]; rfl
  | e :: es => by
    rw [insertEntry]
    split
    · rw [findEntry, KeyOrder.irrefl]
      rfl
    · split
      · rename_i h
        rw [findEntry, h, Bool.or_true, if_pos rfl, findEntry_insertEntry_self k v es]
      · rw [findEntry, KeyOrder.irrefl]
        rfl

theorem findEntry_insertEntry_of_ne {k k' : κ} (hk : k' ≠ k) (v : ν) : ∀ es : List (κ × ν),
    findEntry k' (insertEntry k v es) = findEntry k' es := by
  have hne : (lt k' k || lt k k') = true := by
    cases h : lt k' k with
    | true => rfl
    | false =>
      cases h' : lt k k' with
      | true => rfl
      | false => exact absurd (KeyOrder.eq_of_not_lt _ _ h h') hk
  intro es
  induction es with
  | nil => exact if_pos hne
  | cons e es ih =>
    rw [insertEntry]
    split
    · rw [findEntry, hne, if_pos rfl]
    · split
      · rw [findEntry, ih, findEntry]
      · rename_i h₁ h₂
        have he : k = e.1 := KeyOrder.eq_of_not_lt _ _ (by simpa using h₁) (by simpa using h₂)
        rw [findEntry, hne, if_pos rfl, findEntry, ← he, hne, if_pos rfl]

@[simp] theorem find?_insert_self (m : SortedMap κ ν) (k : κ) (v : ν) : (m.insert k v).find? k = some v :=
  findEntry_insertEntry_self k v m.toList

theorem find?_insert_of_ne {k k' : κ} (hk : k' ≠ k) (m : SortedMap κ ν) (v : ν) :
    (m.insert k v).find? k' = m.find? k' := findEntry_insertEntry_of_ne hk v m.toList

theorem find?_insert_eq_some {m : SortedMap κ ν} {k k' : κ} {v v' : ν} :
    (m.insert k v).find? k' = some v' ↔ k' = k ∧ v' = v ∨ k' ≠ k ∧ m.find? k' = some v' := by
  by_cases hk : k' = k
  · simp [hk, eq_comm]
  · simp [hk, find?_insert_of_ne hk]

theorem find?_insert_eq_none {m : SortedMap κ ν} {k k' : κ} {v : ν} :
    (m.insert k v).find? k' = none ↔ k' ≠ k ∧ m.find? k' = none := by
  by_cases hk : k' = k
  · simp [hk]
  · simp [hk, find?_insert_of_ne hk]

/-- **Of the bindings put on top of a map, the last one for a key is found.** -/
theorem find?_insertAll [BEq κ] [LawfulBEq κ] (k : κ) : ∀ (l : List (κ × ν)) (m : SortedMap κ ν),
    (m.insertAll l).find? k = (l.reverse.lookup k).or (m.find? k)
  | [], _ => rfl
  | e :: l, m => by
    rw [insertAll, List.foldl_cons, ← insertAll, find?_insertAll k l, List.reverse_cons, List.lookup_append,
      Option.or_assoc, List.lookup_cons]
    cases hk : k == e.1 with
    | true => rw [eq_of_beq hk, find?_insert_self, Option.some_or]
    | false => rw [find?_insert_of_ne (ne_of_beq_false hk), List.lookup_nil, Option.none_or]

theorem find?_ofList [BEq κ] [LawfulBEq κ] (l : List (κ × ν)) (k : κ) : (ofList l).find? k = l.reverse.lookup k :=
  (find?_insertAll k l empty).trans (Option.or_none)

theorem mem_of_findEntry {k : κ} {v : ν} : ∀ {es : List (κ × ν)}, findEntry k es = some v → (k, v) ∈ es
  | e :: es, h => by
    rw [findEntry] at h
    split at h
    · exact List.mem_cons_of_mem _ (mem_of_findEntry h)
    · rename_i hk
      rw [Bool.not_eq_true, Bool.or_eq_false_iff] at hk
      rw [← Option.some.inj h, KeyOrder.eq_of_not_lt _ _ hk.1 hk.2]
      exact List.mem_cons_self

theorem mem_of_find? {m : SortedMap κ ν} {k : κ} {v : ν} (h : m.find? k = some v) : (k, v) ∈ m.toList :=
  mem_of_findEntry h

theorem findEntry_of_mem {k : κ} {v : ν} : ∀ {es : List (κ × ν)}, es.Pairwise (fun a b => lt a.1 b.1 = true) →
    (k, v) ∈ es → findEntry k es = some v
  | e :: es, h, hm => by
    obtain ⟨he, h⟩ := List.pairwise_cons.1 h
    rw [findEntry]
    rcases List.mem_cons.1 hm with rfl | hm
    · rw [KeyOrder.irrefl]
      rfl
    · rw [he _ hm, Bool.or_true, if_pos rfl, findEntry_of_mem h hm]

theorem find?_of_mem {m : SortedMap κ ν} {k : κ} {v : ν} (h : (k, v) ∈ m.toList) : m.find? k = some v :=
  findEntry_of_mem m.sorted h

theorem findEntry_map (g : ν → μ) (k : κ) : ∀ es : List (κ × ν),
    findEntry k (es.map fun e => (e.1, g e.2)) = (findEntry k es).map g
  | [] => rfl
  | e :: es => by
    rw [List.map_cons, findEntry, findEntry_map g k es, findEntry]
    split <;> rfl

theorem insertEntry_map (g : ν → μ) (k : κ) (v : ν) : ∀ es : List (κ × ν),
    insertEntry k (g v) (es.map fun e => (e.1, g e.2)) = (insertEntry k v es).map fun e => (e.1, g e.2)
  | [] => rfl
  | e :: es => by
    rw [List.map_cons, insertEntry, insertEntry_map g k v es, insertEntry]
    split
    · rfl
    · split <;> rfl

theorem find?_mapValues (g : ν → μ) (m : SortedMap κ ν) (k : κ) :
    (m.mapValues fun _ => g).find? k = (m.find? k).map g := findEntry_map g k m.toList

theorem insert_mapValues (g : ν → μ) (m : SortedMap κ ν) (k : κ) (v : ν) :
    (m.mapValues fun _ => g).insert k (g v) = (m.insert k v).mapValues fun _ => g := by
  rw [insert, mapValues, SortedMap.mk.injEq]
  exact insertEntry_map g k v m.toList

theorem mem_keys {m : SortedMap κ ν} {k : κ} : k ∈ m.keys ↔ m.find? k ≠ none := by
  constructor
  · intro h
    obtain ⟨e, he, rfl⟩ := List.mem_map.1 h
    rw [find?_of_mem (k := e.1) (v := e.2) he]
    exact Option.some_ne_none _
  · intro h
    obtain ⟨v, hv⟩ := Option.ne_none_iff_exists'.1 h
    exact List.mem_map.2 ⟨(k, v), mem_of_find? hv, rfl⟩

theorem pairwise_keys (m : SortedMap κ ν) : m.keys.Pairwise fun a b => lt a b = true := List.pairwise_map.2 m.sorted

/-- **Two maps with the same keys list them in the same order.** -/
theorem keys_congr {m : SortedMap κ ν} {m' : SortedMap κ μ} (h : ∀ k, k ∈ m.keys ↔ k ∈ m'.keys) :
    m.keys = m'.keys := by
  have hperm : m.keys.Perm m'.keys :=
    (List.perm_ext_iff_of_nodup (m.pairwise_keys.imp KeyOrder.ne_of_lt) (m'.pairwise_keys.imp KeyOrder.ne_of_lt)).2 h
  refine hperm.eq_of_pairwise (fun a b _ _ hab hba => ?_) m.pairwise_keys m'.pairwise_keys
  rw [KeyOrder.asymm hab] at hba
  cases hba

end SortedMap
end Stencil
