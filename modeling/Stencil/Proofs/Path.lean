import Stencil.Path
import Mathlib
/-!
# Path — what the path of an entry of a directory is

The path of an entry is the path of the directory with one more component (`Path.components_join`), however many
slashes the path of the directory ends with.
-/
namespace Stencil

/-! ## Parts between separators -/

namespace Bytes

variable (sep : UInt8)

theorem split_cons_of_ne {sep b : UInt8} (hb : b ≠ sep) (s : Bytes) :
    ∃ part parts, split sep s = part :: parts ∧ split sep (b :: s) = (b :: part) :: parts := by
  induction s generalizing b with
  | nil => exact ⟨[], [], rfl, by simp [split, hb]⟩
  | cons c s ih =>
    by_cases hc : c = sep
    · exact ⟨[], split sep s, by simp [split, hc], by simp [split, hb, hc]⟩
    · obtain ⟨part, parts, -, h⟩ := ih hc
      exact ⟨c :: part, parts, h, by rw [split, if_neg hb, h]⟩

theorem split_cons_self (s : Bytes) : split sep (sep :: s) = [] :: split sep s := by
  simp [split]

theorem split_ne_nil (s : Bytes) : split sep s ≠ [] := by
  cases s with
  | nil => exact List.cons_ne_nil _ _
  | cons b s =>
    by_cases hb : b = sep
    · rw [hb, split_cons_self]
      exact List.cons_ne_nil _ _
    · obtain ⟨part, parts, -, h⟩ := split_cons_of_ne hb s
      rw [h]
      exact List.cons_ne_nil _ _

theorem split_append_sep (s t : Bytes) : split sep (s ++ sep :: t) = split sep s ++ split sep t := by
  induction s with
  | nil => exact split_cons_self sep t
  | cons b s ih =>
    by_cases hb : b = sep
    · rw [hb, List.cons_append, split_cons_self, split_cons_self, ih, List.cons_append]
    · obtain ⟨part, parts, h₁, h₂⟩ := split_cons_of_ne hb s
      obtain ⟨part', parts', h₁', h₂'⟩ := split_cons_of_ne hb (s ++ sep :: t)
      rw [ih, h₁, List.cons_append] at h₁'
      obtain ⟨rfl, rfl⟩ := List.cons_eq_cons.1 h₁'
      rw [List.cons_append, h₂', h₂, List.cons_append]

theorem split_of_notMem {sep : UInt8} {s : Bytes} (h : sep ∉ s) : split sep s = [s] := by
  induction s with
  | nil => rfl
  | cons b s ih =>
    rw [List.mem_cons, not_or] at h
    obtain ⟨part, parts, h₁, h₂⟩ := split_cons_of_ne (Ne.symm h.1) s
    rw [ih h.2] at h₁
    obtain ⟨rfl, rfl⟩ := List.cons_eq_cons.1 h₁
    exact h₂

theorem notMem_of_mem_split {sep : UInt8} {s part : Bytes} (h : part ∈ split sep s) : sep ∉ part := by
  induction s generalizing part with
  | nil =>
    rw [split, List.mem_singleton] at h
    rw [h]
    exact List.not_mem_nil
  | cons b s ih =>
    by_cases hb : b = sep
    · rw [hb, split_cons_self] at h
      rcases List.mem_cons.1 h with rfl | h
      · exact List.not_mem_nil
      · exact ih h
    · obtain ⟨first, parts, h₁, h₂⟩ := split_cons_of_ne hb s
      rw [h₂] at h
      rcases List.mem_cons.1 h with rfl | h
      · have := ih (h₁ ▸ List.mem_cons_self)
        simp [Ne.symm hb, this]
      · exact ih (h₁ ▸ List.mem_cons_of_mem _ h)

theorem split_cases (s : Bytes) : (sep ∉ s ∧ split sep s = [s]) ∨
    ∃ q t, s = q ++ sep :: t ∧ sep ∉ t ∧ split sep s = split sep q ++ [t] := by
  have hlast : sep ∉ s ∨ ∃ q t, s = q ++ sep :: t ∧ sep ∉ t := by
    induction s with
    | nil => exact .inl List.not_mem_nil
    | cons b s ih =>
      rcases ih with h | ⟨q, t, rfl, ht⟩
      · by_cases hb : b = sep
        · exact .inr ⟨[], s, by rw [hb]; rfl, h⟩
        · exact .inl (by simp [Ne.symm hb, h])
      · exact .inr ⟨b :: q, t, rfl, ht⟩
  rcases hlast with h | ⟨q, t, rfl, ht⟩
  · exact .inl ⟨h, split_of_notMem h⟩
  · exact .inr ⟨q, t, rfl, ht, by rw [split_append_sep, split_of_notMem ht]⟩

theorem getLast?_split {s : Bytes} (h : (split sep s).getLast? = some []) : s = [] ∨ s.getLast? = some sep := by
  rcases split_cases sep s with ⟨-, hs⟩ | ⟨q, t, rfl, -, hs⟩
  · rw [hs] at h
    exact .inl (by simpa using h)
  · rw [hs, List.getLast?_concat] at h
    rw [Option.some.inj h]
    exact .inr List.getLast?_concat

end Bytes

/-! ## Entries of directories -/

namespace Path

structure IsName (part : Bytes) : Prop where
  ne_nil : part ≠ []
  ne_dot : part ≠ [Byte.dot]
  ne_dots : part ≠ [Byte.dot, Byte.dot]

theorem not_isName_iff {part : Bytes} :
    ¬IsName part ↔ part = [] ∨ part = [Byte.dot] ∨ part = [Byte.dot, Byte.dot] := by
  constructor
  · intro h
    by_contra hne
    rw [not_or, not_or] at hne
    exact h ⟨hne.1, hne.2.1, hne.2.2⟩
  · rintro (rfl | rfl | rfl) h
    · exact h.ne_nil rfl
    · exact h.ne_dot rfl
    · exact h.ne_dots rfl

/-- What can be the name of an entry of a directory. -/
structure IsEntryName (name : Bytes) : Prop extends IsName name where
  noSlash : Byte.slash ∉ name

theorem isEntryName_iff {name : Bytes} : IsEntryName name ↔
    name ≠ [] ∧ name ≠ [Byte.dot] ∧ name ≠ [Byte.dot, Byte.dot] ∧ Byte.slash ∉ name :=
  ⟨fun h => ⟨h.ne_nil, h.ne_dot, h.ne_dots, h.noSlash⟩, fun h => ⟨⟨h.1, h.2.1, h.2.2.1⟩, h.2.2.2⟩⟩

instance (name : Bytes) : Decidable (IsEntryName name) := decidable_of_iff _ isEntryName_iff.symm

variable {p : Path} {name : Bytes}

theorem component?_of_isName (h : IsName name) : component? name = some (.name name) := by
  unfold component?
  split
  · exact absurd rfl h.ne_nil
  · exact absurd rfl h.ne_dot
  · exact absurd rfl h.ne_dots
  · rfl

theorem join_of_slash {q : Path} : join (q ++ [Byte.slash]) name = q ++ Byte.slash :: name := by
  unfold join
  rw [List.getLast?_concat, List.append_assoc]
  rfl

theorem join_of_not_slash (hp : p ≠ []) (hs : p.getLast? ≠ some Byte.slash) :
    join p name = p ++ Byte.slash :: name := by
  unfold join
  split
  · rename_i h
    exact absurd (List.getLast?_eq_none_iff.1 h) hp
  · rename_i h
    exact absurd h hs
  · rfl

/-- A slash at the end of the path of a directory is the one that comes before the name. -/
theorem join_cases (hp : p ≠ []) (name : Bytes) :
    join p name = p ++ Byte.slash :: name ∨ ∃ q, p = q ++ [Byte.slash] ∧ join p name = q ++ Byte.slash :: name := by
  by_cases hs : p.getLast? = some Byte.slash
  · obtain ⟨q, rfl⟩ := List.getLast?_eq_some_iff.1 hs
    exact .inr ⟨q, rfl, join_of_slash⟩
  · exact .inl (join_of_not_slash hp hs)

theorem join_ne_nil (hp : p ≠ []) : join p name ≠ [] := by
  rcases join_cases hp name with h | ⟨q, -, h⟩ <;> rw [h] <;> simp

theorem foldl_join_ne_nil (hp : p ≠ []) (names : List Bytes) : names.foldl join p ≠ [] := by
  induction names generalizing p with
  | nil => exact hp
  | cons n names ih => exact ih (join_ne_nil hp)

theorem head?_join (hp : p ≠ []) : (join p name).head? = p.head? := by
  rcases join_cases hp name with h | ⟨q, rfl, h⟩
  · rw [h, List.head?_append_of_ne_nil _ hp]
  · rw [h]
    cases q <;> rfl

theorem split_join (hp : p ≠ []) (hn : Byte.slash ∉ name) :
    Bytes.split Byte.slash (join p name) = Bytes.split Byte.slash p ++ [name] ∨
      ∃ parts, Bytes.split Byte.slash p = parts ++ [[]] ∧
        Bytes.split Byte.slash (join p name) = parts ++ [name] := by
  rcases join_cases hp name with h | ⟨q, rfl, h⟩
  · rw [h, Bytes.split_append_sep, Bytes.split_of_notMem hn]
    exact .inl rfl
  · rw [h, Bytes.split_append_sep, Bytes.split_append_sep, Bytes.split_of_notMem hn]
    exact .inr ⟨_, rfl, rfl⟩

theorem split_foldl_join (hp : p ≠ []) {names : List Bytes} (hn : ∀ n ∈ names, IsEntryName n) :
    Bytes.split Byte.slash (names.foldl join p) = Bytes.split Byte.slash p ++ names ∨
      ∃ parts, Bytes.split Byte.slash p = parts ++ [[]] ∧
        Bytes.split Byte.slash (names.foldl join p) = parts ++ names := by
  induction names using List.reverseRecOn with
  | nil => exact .inl (List.append_nil _).symm
  | append_singleton names n ih =>
    have hn' : ∀ m ∈ names, IsEntryName m := fun m hm => hn m (List.mem_append_left _ hm)
    have hslash := (hn n (by simp)).noSlash
    rw [List.foldl_append, List.foldl_cons, List.foldl_nil]
    rcases split_join (foldl_join_ne_nil hp names) hslash with h | ⟨parts, h₁, h₂⟩
    · rw [h]
      rcases ih hn' with ih | ⟨parts, hparts, ih⟩
      · rw [ih]
        exact .inl (List.append_assoc _ _ _)
      · rw [ih]
        exact .inr ⟨parts, hparts, List.append_assoc _ _ _⟩
    · -- only the path of the directory itself can end with a slash
      rcases List.eq_nil_or_concat' names with rfl | ⟨ms, m, rfl⟩
      · exact .inr ⟨parts, h₁, h₂⟩
      · have hne := (hn' m (by simp)).ne_nil
        have hlast := congrArg List.getLast? h₁
        rcases ih hn' with ih | ⟨us, -, ih⟩ <;> rw [ih, ← List.append_assoc] at hlast <;> simp [hne] at hlast

theorem front_cons_cons (b c : UInt8) (r : Bytes) : front (b :: c :: r) =
    if b = Byte.slash then [.root] else if b = Byte.dot ∧ c = Byte.slash then [.here] else [] := by
  by_cases hb : b = Byte.slash
  · subst hb
    rfl
  · rw [if_neg hb]
    split
    · rename_i h
      rw [h.1, h.2]
      rfl
    · unfold front
      split <;> simp_all

theorem front_join (hp : p ≠ []) (hn : name ≠ []) : front (join p name) = front p := by
  obtain ⟨n, name, rfl⟩ := List.exists_cons_of_ne_nil hn
  match p with
  | [] => exact absurd rfl hp
  | [b] =>
    by_cases hs : b = Byte.slash
    · subst hs
      rfl
    · rw [join_of_not_slash hp (by simpa using hs)]
      by_cases hd : b = Byte.dot
      · subst hd
        rfl
      · simp [front, hs, hd]
  | b :: c :: r =>
    unfold join
    split
    · simp_all
    · rw [List.cons_append, List.cons_append, front_cons_cons, front_cons_cons]
    · rw [List.cons_append, List.cons_append, front_cons_cons, front_cons_cons]

theorem components_of_isEntryName (hn : IsEntryName name) : components name = [.name name] := by
  have hfront : front name = [] := by
    unfold front
    split
    · exact absurd List.mem_cons_self hn.noSlash
    · exact absurd rfl hn.ne_dot
    · exact absurd (List.mem_cons_of_mem _ List.mem_cons_self) hn.noSlash
    · rfl
  rw [components, hfront, Bytes.split_of_notMem hn.noSlash, List.filterMap_cons_some (component?_of_isName hn.toIsName)]
  rfl

theorem components_join (p : Path) (hn : IsEntryName name) :
    components (join p name) = components p ++ [.name name] := by
  by_cases hp : p = []
  · rw [hp]
    exact components_of_isEntryName hn
  unfold components
  rw [front_join hp hn.ne_nil, List.append_assoc]
  congr 1
  rcases split_join hp hn.noSlash with h | ⟨parts, h₁, h₂⟩
  · rw [h, List.filterMap_append, List.filterMap_cons_some (component?_of_isName hn.toIsName), List.filterMap_nil]
  · rw [h₁, h₂, List.filterMap_append, List.filterMap_append,
      List.filterMap_cons_some (component?_of_isName hn.toIsName), List.filterMap_cons_none (rfl : component? [] = none)]
    simp

theorem components_foldl_join (hp : p ≠ []) {names : List Bytes} (hn : ∀ n ∈ names, IsEntryName n) :
    components (names.foldl join p) = components p ++ names.map .name := by
  induction names generalizing p with
  | nil => simp
  | cons n names ih =>
    rw [List.foldl_cons, ih (join_ne_nil hp) fun m hm => hn m (List.mem_cons_of_mem _ hm),
      components_join p (hn n List.mem_cons_self), List.append_assoc]
    rfl

end Path
end Stencil
