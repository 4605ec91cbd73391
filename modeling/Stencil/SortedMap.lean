import Stencil.Order
/-!
# SortedMap — finite maps listed in key order

A map is its list of entries, strictly increasing by key, so two maps with the same bindings are equal.  `find?` reads
a binding and `insert` adds or replaces one; `keys` and `toList` list them in order.
-/
namespace Stencil

open KeyOrder (lt)

/-- A finite map; its entries are strictly increasing by key. -/
structure SortedMap (κ ν : Type) [KeyOrder κ] where
  toList : List (κ × ν)
  sorted : toList.Pairwise (fun a b => lt a.1 b.1 = true)

namespace SortedMap

variable {κ ν : Type} [KeyOrder κ]

def insertEntry (k : κ) (v : ν) : List (κ × ν) → List (κ × ν)
  | [] => [(k, v)]
  | e :: es =>
    if lt k e.1 then (k, v) :: e :: es
    else if lt e.1 k then e :: insertEntry k v es
    else (k, v) :: es

theorem mem_insertEntry {k : κ} {v : ν} {e : κ × ν} :
    ∀ {es : List (κ × ν)}, e ∈ insertEntry k v es → e = (k, v) ∨ e ∈ es
  | [], h => by simp [insertEntry] at h; exact .inl h
  | d :: es, h => by
    rw [insertEntry] at h
    split at h
    · rcases List.mem_cons.1 h with h | h
      · exact .inl h
      · exact .inr h
    · split at h
      · rcases List.mem_cons.1 h with h | h
        · exact .inr (by simp [h])
        · exact (mem_insertEntry h).imp id (fun h => List.mem_cons_of_mem _ h)
      · rcases List.mem_cons.1 h with h | h
        · exact .inl h
        · exact .inr (List.mem_cons_of_mem _ h)

theorem sorted_insertEntry (k : κ) (v : ν) : ∀ {es : List (κ × ν)},
    es.Pairwise (fun a b => lt a.1 b.1 = true) → (insertEntry k v es).Pairwise (fun a b => lt a.1 b.1 = true)
  | [], _ => by simp [insertEntry]
  | e :: es, h => by
    rw [insertEntry]
    have he := List.pairwise_cons.1 h
    split
    · rename_i hk
      refine List.pairwise_cons.2 ⟨fun d hd => ?_, h⟩
      rcases List.mem_cons.1 hd with rfl | hd
      · exact hk
      · exact KeyOrder.trans _ _ _ hk (he.1 d hd)
    · rename_i hk
      split
      · rename_i hk'
        refine List.pairwise_cons.2 ⟨fun d hd => ?_, sorted_insertEntry k v he.2⟩
        rcases mem_insertEntry hd with rfl | hd
        · exact hk'
        · exact he.1 d hd
      · rename_i hk'
        refine List.pairwise_cons.2 ⟨fun d hd => ?_, he.2⟩
        obtain rfl : k = e.1 := KeyOrder.eq_of_not_lt _ _ (by simpa using hk) (by simpa using hk')
        exact he.1 d hd

def empty : SortedMap κ ν := ⟨[], .nil⟩

instance : EmptyCollection (SortedMap κ ν) := ⟨empty⟩

def insert (m : SortedMap κ ν) (k : κ) (v : ν) : SortedMap κ ν :=
  ⟨insertEntry k v m.toList, sorted_insertEntry k v m.sorted⟩

def findEntry (k : κ) : List (κ × ν) → Option ν
  | [] => none
  | e :: es => if lt k e.1 || lt e.1 k then findEntry k es else some e.2

def find? (m : SortedMap κ ν) (k : κ) : Option ν := findEntry k m.toList

def mapValues {μ : Type} (f : κ → ν → μ) (m : SortedMap κ ν) : SortedMap κ μ :=
  ⟨m.toList.map fun e => (e.1, f e.1 e.2), List.pairwise_map.2 m.sorted⟩

/-- The bindings of a list; of two for one key the later wins. -/
def ofList (l : List (κ × ν)) : SortedMap κ ν := l.foldl (fun m e => m.insert e.1 e.2) empty

def insertAll (m : SortedMap κ ν) (l : List (κ × ν)) : SortedMap κ ν := l.foldl (fun m e => m.insert e.1 e.2) m

def keys (m : SortedMap κ ν) : List κ := m.toList.map Prod.fst

def size (m : SortedMap κ ν) : Nat := m.toList.length

def isEmpty (m : SortedMap κ ν) : Bool := m.toList.isEmpty

def contains (m : SortedMap κ ν) (k : κ) : Bool := (m.find? k).isSome

end SortedMap
end Stencil
