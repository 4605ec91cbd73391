import Stencil.Disk
import Stencil.Proofs.Path
import Stencil.Proofs.SortedMap
/-!
# Places — where paths lead

What is on a disk decides whether a path can be followed, but not where it leads: a path that can be followed leads to
`Disk.locate`, which knows the working directory only.  So a path goes on leading where it did as long as directories
stay directories (`Disk.DirsStay`).  What can be made at a path is an entry of a directory (`Disk.LeadsToEntry`).
-/
namespace Stencil

theorem bind_eq_ok {ε α β : Type} {x : Except ε α} {f : α → Except ε β} {b : β} :
    (x >>= f) = .ok b ↔ ∃ a, x = .ok a ∧ f a = .ok b := by
  cases x <;> simp [bind, Except.bind]

theorem bind_eq_error {ε α β : Type} {x : Except ε α} {f : α → Except ε β} {e : ε} :
    (x >>= f) = .error e ↔ x = .error e ∨ ∃ a, x = .ok a ∧ f a = .error e := by
  cases x <;> simp [bind, Except.bind]

theorem map_eq_ok {ε α β : Type} {r : Except ε α} {f : α → β} {b : β} :
    r.map f = .ok b ↔ ∃ a, r = .ok a ∧ f a = b := by
  cases r <;> simp [Except.map]

namespace Disk

open Stencil.Path (IsName IsEntryName)

variable {d d' : Disk} {l l' : Location} {n : Node} {p : Path}

/-! ## What stands where -/

theorem node?_of_ne_nil (d : Disk) (hl : l ≠ []) : d.node? l = d.nodes.find? l := by
  cases l with
  | nil => exact absurd rfl hl
  | cons a l => rfl

@[simp] theorem start_set (d : Disk) (l : Location) (n : Node) (p : Path) : (d.set l n).start p = d.start p := rfl

theorem node?_set_self (d : Disk) (hl : l ≠ []) (n : Node) : (d.set l n).node? l = some n := by
  rw [node?_of_ne_nil _ hl]
  exact SortedMap.find?_insert_self _ _ _

theorem node?_set_of_ne (d : Disk) (h : l' ≠ l) (n : Node) : (d.set l n).node? l' = d.node? l' := by
  cases l' with
  | nil => rfl
  | cons a l' => exact SortedMap.find?_insert_of_ne h _ _

/-! ## Following parts -/

/-- Where one part of a path leads from a directory, however long it is. -/
def turn (l : Location) (part : Bytes) : Location :=
  if part = [] ∨ part = [Byte.dot] then l else if part = [Byte.dot, Byte.dot] then l.dropLast else l ++ [part]

def locateFrom (l : Location) (parts : List Bytes) : Location := parts.foldl turn l

/-- Where a path leads if it can be followed. -/
def locate (d : Disk) (p : Path) : Location := locateFrom (d.start p) (Bytes.split Byte.slash p)

theorem start_congr (h : d'.cwd = d.cwd) (p : Path) : d'.start p = d.start p := by
  unfold start
  rw [h]

theorem locate_congr (h : d'.cwd = d.cwd) (p : Path) : d'.locate p = d.locate p := by
  unfold locate
  rw [start_congr h]

theorem turn_of_isName {part : Bytes} (h : IsName part) (l : Location) : turn l part = l ++ [part] := by
  simp [turn, h.ne_nil, h.ne_dot, h.ne_dots]

@[simp] theorem locateFrom_nil (l : Location) : locateFrom l [] = l := rfl

@[simp] theorem locateFrom_cons (l : Location) (part : Bytes) (parts : List Bytes) :
    locateFrom l (part :: parts) = locateFrom (turn l part) parts := rfl

theorem locateFrom_append (l : Location) (us vs : List Bytes) :
    locateFrom l (us ++ vs) = locateFrom (locateFrom l us) vs := List.foldl_append

theorem follow_eq_ok {part : Bytes} (h : follow l part = .ok l') : l' = turn l part := by
  unfold follow at h
  unfold turn
  split at h
  · rw [if_pos ‹_›]
    exact (Except.ok.inj h).symm
  · rw [if_neg ‹_›]
    split at h
    · rw [if_pos ‹_›]
      exact (Except.ok.inj h).symm
    · rw [if_neg ‹_›]
      split at h
      · cases h
      · exact (Except.ok.inj h).symm

theorem follow_of_isName {part : Bytes} (h : IsName part) (l : Location) :
    follow l part = if maxName < part.length then .error .nameTooLong else .ok (l ++ [part]) := by
  simp [follow, h.ne_nil, h.ne_dot, h.ne_dots]

theorem follow_of_not_isName {part : Bytes} (h : ¬IsName part) (l : Location) : follow l part = .ok (turn l part) := by
  rcases Path.not_isName_iff.1 h with rfl | rfl | rfl <;> rfl

theorem needDir_eq_ok : d.needDir l = .ok () ↔ d.node? l = some .dir := by
  unfold needDir
  split <;> simp_all

theorem followAll_cons (d : Disk) (l : Location) (part : Bytes) (parts : List Bytes) :
    d.followAll l (part :: parts) =
      (d.needDir l >>= fun _ => follow l part >>= fun l => d.followAll l parts) := rfl

theorem followAll_cons_eq_ok {part : Bytes} {parts : List Bytes} : d.followAll l (part :: parts) = .ok l' ↔
    d.node? l = some .dir ∧ follow l part = .ok (turn l part) ∧ d.followAll (turn l part) parts = .ok l' := by
  rw [followAll_cons, bind_eq_ok]
  constructor
  · rintro ⟨_, hd, h⟩
    obtain ⟨v, hv, h⟩ := bind_eq_ok.1 h
    obtain rfl := follow_eq_ok hv
    exact ⟨needDir_eq_ok.1 hd, hv, h⟩
  · rintro ⟨hd, hv, h⟩
    exact ⟨(), needDir_eq_ok.2 hd, bind_eq_ok.2 ⟨_, hv, h⟩⟩

theorem followAll_eq_ok {parts : List Bytes} (h : d.followAll l parts = .ok l') : l' = locateFrom l parts := by
  induction parts generalizing l with
  | nil => exact (Except.ok.inj h).symm
  | cons part parts ih => exact ih (followAll_cons_eq_ok.1 h).2.2

theorem followAll_append_eq_ok {us vs : List Bytes} : d.followAll l (us ++ vs) = .ok l' ↔
    d.followAll l us = .ok (locateFrom l us) ∧ d.followAll (locateFrom l us) vs = .ok l' := by
  induction us generalizing l with
  | nil => simp [followAll]
  | cons u us ih =>
    rw [List.cons_append, followAll_cons_eq_ok, ih, followAll_cons_eq_ok, locateFrom_cons]
    tauto

theorem followAll_replicate_nil (hl : d.node? l = some .dir) (k : Nat) :
    d.followAll l (List.replicate k []) = .ok l := by
  induction k with
  | zero => rfl
  | succ k ih => exact followAll_cons_eq_ok.2 ⟨hl, rfl, ih⟩

theorem node?_of_followAll {us : List Bytes} {v : Bytes} {vs : List Bytes}
    (h : d.followAll l (us ++ v :: vs) = .ok l') : d.node? (locateFrom l us) = some .dir :=
  (followAll_cons_eq_ok.1 (followAll_append_eq_ok.1 h).2).1

/-! ## Paths that lead somewhere -/

theorem resolve_eq_ok : d.resolve p = .ok l ↔
    checkPath p = .ok () ∧ d.followAll (d.start p) (Bytes.split Byte.slash p) = .ok l := by
  unfold resolve
  rw [bind_eq_ok]
  exact ⟨fun ⟨_, h⟩ => h, fun h => ⟨_, h⟩⟩

theorem locate_of_resolve (h : d.resolve p = .ok l) : l = d.locate p := followAll_eq_ok (resolve_eq_ok.1 h).2

theorem look_eq_ok : d.look p = .ok n ↔ d.resolve p = .ok (d.locate p) ∧ d.node? (d.locate p) = some n := by
  unfold look
  rw [bind_eq_ok]
  constructor
  · rintro ⟨l, hl, h⟩
    obtain rfl := locate_of_resolve hl
    refine ⟨hl, ?_⟩
    split at h
    · rw [← Except.ok.inj h]
      assumption
    · cases h
  · rintro ⟨hl, hn⟩
    exact ⟨_, hl, by rw [hn]⟩

theorem isDir_iff : d.isDir p = true ↔ d.look p = .ok .dir := by
  unfold isDir
  split <;> simp_all

theorem readFile_eq_ok {c : Bytes} : d.readFile p = .ok c ↔ d.look p = .ok (.file c) := by
  unfold readFile
  rw [bind_eq_ok]
  constructor
  · rintro ⟨n, hn, h⟩
    cases n with
    | dir => cases h
    | file b => rw [hn, Except.ok.inj h]
  · intro h
    exact ⟨_, h, rfl⟩

theorem checkPath_of_look (h : d.look p = .ok n) : checkPath p = .ok () :=
  (resolve_eq_ok.1 (look_eq_ok.1 h).1).1

theorem ne_nil_of_checkPath (h : checkPath p = .ok ()) : p ≠ [] := by
  rintro rfl
  cases h

/-! ## Paths of entries -/

theorem start_join (d : Disk) (hp : p ≠ []) (name : Bytes) : d.start (p.join name) = d.start p := by
  unfold start
  rw [Path.head?_join hp]

theorem start_foldl_join (d : Disk) (hp : p ≠ []) (names : List Bytes) :
    d.start (names.foldl Path.join p) = d.start p := by
  induction names generalizing p with
  | nil => rfl
  | cons n names ih => exact (ih (Path.join_ne_nil hp)).trans (start_join d hp n)

theorem locate_join (d : Disk) (hp : p ≠ []) {name : Bytes} (hn : IsEntryName name) :
    d.locate (p.join name) = d.locate p ++ [name] := by
  unfold locate
  rw [start_join d hp]
  rcases Path.split_join hp hn.noSlash with h | ⟨parts, h₁, h₂⟩
  · rw [h, locateFrom_append, locateFrom_cons, turn_of_isName hn.toIsName, locateFrom_nil]
  · rw [h₁, h₂, locateFrom_append, locateFrom_append, locateFrom_cons, turn_of_isName hn.toIsName]
    rfl

theorem locate_foldl_join (d : Disk) (hp : p ≠ []) {names : List Bytes} (hn : ∀ n ∈ names, IsEntryName n) :
    d.locate (names.foldl Path.join p) = d.locate p ++ names := by
  induction names generalizing p with
  | nil => exact (List.append_nil _).symm
  | cons n names ih =>
    rw [List.foldl_cons, ih (Path.join_ne_nil hp) fun m hm => hn m (List.mem_cons_of_mem _ hm),
      locate_join d hp (hn n List.mem_cons_self), List.append_assoc]
    rfl

/-- A location that a path passes or leads to. -/
def OnWay (d : Disk) (p : Path) (l : Location) : Prop :=
  ∃ us, us <+: Bytes.split Byte.slash p ∧ l = locateFrom (d.start p) us

theorem onWay_congr (h : d'.cwd = d.cwd) (p : Path) : d'.OnWay p l ↔ d.OnWay p l := by
  unfold OnWay
  rw [start_congr h]

theorem node?_of_onWay (hp : d.look p = .ok .dir) (h : d.OnWay p l) : d.node? l = some .dir := by
  obtain ⟨us, ⟨vs, hvs⟩, rfl⟩ := h
  cases vs with
  | nil =>
    rw [List.append_nil] at hvs
    rw [hvs]
    exact (look_eq_ok.1 hp).2
  | cons v vs =>
    have hf := (resolve_eq_ok.1 (look_eq_ok.1 hp).1).2
    rw [← hvs] at hf
    exact node?_of_followAll hf

theorem onWay_join (hp : p ≠ []) {name : Bytes} (hn : IsEntryName name) (h : d.OnWay (p.join name) l) :
    d.OnWay p l ∨ l = d.locate (p.join name) := by
  obtain ⟨us, hus, rfl⟩ := h
  rw [start_join d hp]
  rcases Path.split_join hp hn.noSlash with h | ⟨parts, h₁, h₂⟩
  · rw [h, List.prefix_concat_iff] at hus
    rcases hus with rfl | hus
    · rw [locate, start_join d hp, h]
      exact .inr rfl
    · exact .inl ⟨us, hus, rfl⟩
  · rw [h₂, List.prefix_concat_iff] at hus
    rcases hus with rfl | hus
    · rw [locate, start_join d hp, h₂]
      exact .inr rfl
    · exact .inl ⟨us, by rw [h₁]; exact hus.trans (List.prefix_append _ _), rfl⟩

theorem onWay_foldl_join (hp : p ≠ []) {names : List Bytes} (hn : ∀ n ∈ names, IsEntryName n)
    (h : d.OnWay (names.foldl Path.join p) l) : d.OnWay p l ∨ ∃ us, us <+: names ∧ l = d.locate p ++ us := by
  induction names generalizing p with
  | nil => exact .inl h
  | cons n names ih =>
    have hn₁ := hn n List.mem_cons_self
    rcases ih (Path.join_ne_nil hp) (fun m hm => hn m (List.mem_cons_of_mem _ hm)) h with h | ⟨us, hus, rfl⟩
    · refine (onWay_join hp hn₁ h).imp_right fun h => ⟨[n], ?_, ?_⟩
      · exact List.cons_prefix_cons.2 ⟨rfl, List.nil_prefix⟩
      · rw [h, locate_join d hp hn₁]
    · refine .inr ⟨n :: us, List.cons_prefix_cons.2 ⟨rfl, hus⟩, ?_⟩
      rw [locate_join d hp hn₁, List.append_assoc]
      rfl

/-! ## Directories that stay -/

/-- Every directory of the first disk is one of the second, and they have the same working directory. -/
structure DirsStay (d d' : Disk) : Prop where
  cwd : d'.cwd = d.cwd
  dir : ∀ l, d.node? l = some .dir → d'.node? l = some .dir

theorem DirsStay.followAll (h : DirsStay d d') {parts : List Bytes} (hf : d.followAll l parts = .ok l') :
    d'.followAll l parts = .ok l' := by
  induction parts generalizing l with
  | nil => exact hf
  | cons part parts ih =>
    obtain ⟨hd, hv, hf⟩ := followAll_cons_eq_ok.1 hf
    exact followAll_cons_eq_ok.2 ⟨h.dir _ hd, hv, ih hf⟩

theorem DirsStay.resolve (h : DirsStay d d') (hr : d.resolve p = .ok l) : d'.resolve p = .ok l := by
  obtain ⟨hc, hf⟩ := resolve_eq_ok.1 hr
  exact resolve_eq_ok.2 ⟨hc, by rw [start_congr h.cwd]; exact h.followAll hf⟩

theorem DirsStay.look (h : DirsStay d d') (hp : d.look p = .ok n) (hn : d'.node? (d.locate p) = some n) :
    d'.look p = .ok n := by
  rw [look_eq_ok, locate_congr h.cwd]
  exact ⟨h.resolve (look_eq_ok.1 hp).1, hn⟩

theorem dirsStay_set (hl : d.node? l ≠ some .dir) (n : Node) : DirsStay d (d.set l n) := by
  refine ⟨rfl, fun k hk => ?_⟩
  rw [node?_set_of_ne d (by rintro rfl; exact hl hk)]
  exact hk

/-! ## Entries of directories -/

/-- The last of the parts names an entry of the directory that the parts before it lead to.  The entry need not
exist. -/
inductive LeadsToEntry (d : Disk) (l : Location) : List Bytes → Location → Prop
  | intro {parts : List Bytes} {part : Bytes} : d.followAll l parts = .ok (locateFrom l parts) →
      d.node? (locateFrom l parts) = some .dir → IsName part → part.length ≤ maxName →
      LeadsToEntry d l (parts ++ [part]) (locateFrom l parts ++ [part])

theorem LeadsToEntry.ne_nil {parts : List Bytes} (h : LeadsToEntry d l parts l') : l' ≠ [] := by
  cases h
  exact List.concat_ne_nil _ _

theorem LeadsToEntry.parent {parts : List Bytes} (h : LeadsToEntry d l parts l') :
    ∃ k part, l' = k ++ [part] ∧ part ∈ parts ∧ IsName part ∧ d.node? k = some .dir := by
  cases h with
  | intro hf hd hn hlen => exact ⟨_, _, rfl, by simp, hn, hd⟩

theorem LeadsToEntry.length_le {us : List Bytes} {name : Bytes} (h : LeadsToEntry d l (us ++ [name]) l') :
    name.length ≤ maxName := by
  generalize hparts : us ++ [name] = parts at h
  cases h with
  | intro _ _ _ hlen =>
    obtain ⟨-, hname⟩ := List.append_inj' hparts rfl
    rw [List.cons.injEq] at hname
    exact hname.1 ▸ hlen

theorem LeadsToEntry.followAll {parts : List Bytes} (h : LeadsToEntry d l parts l') :
    d.followAll l parts = .ok l' := by
  cases h with
  | intro hf hd hn hlen =>
    refine followAll_append_eq_ok.2 ⟨hf, followAll_cons_eq_ok.2 ⟨hd, ?_, ?_⟩⟩
    · rw [follow_of_isName hn, if_neg (Nat.not_lt.2 hlen), turn_of_isName hn]
    · rw [turn_of_isName hn]
      rfl

theorem parentOf_eq_ok {parts : List Bytes} : d.parentOf l parts = .ok l' ↔
    d.followAll l parts.dropLast = .ok l' ∧ d.node? l' = some .dir := by
  unfold parentOf
  rw [bind_eq_ok]
  constructor
  · rintro ⟨k, hk, h⟩
    obtain ⟨_, hd, h⟩ := bind_eq_ok.1 h
    obtain rfl := Except.ok.inj h
    exact ⟨hk, needDir_eq_ok.1 hd⟩
  · rintro ⟨hk, hd⟩
    exact ⟨_, hk, bind_eq_ok.2 ⟨(), needDir_eq_ok.2 hd, rfl⟩⟩

theorem entry_of_isName {part : Bytes} (h : IsName part) (l : Location) : entry l (some part) =
    if maxName < part.length then .error .nameTooLong else .ok (some (l ++ [part])) := by
  rw [entry, if_neg fun hne => Path.not_isName_iff.2 hne h, follow_of_isName h]
  split <;> rfl

theorem entry_eq_some {parent : Location} {part? : Option Bytes} : entry parent part? = .ok (some l') ↔
    ∃ part, part? = some part ∧ IsName part ∧ part.length ≤ maxName ∧ l' = parent ++ [part] := by
  cases part? with
  | none => simp [entry]
  | some part =>
    by_cases hn : IsName part
    · rw [entry_of_isName hn]
      split
      · simp
        omega
      · simp [hn, eq_comm]
        omega
    · rw [entry, if_pos (Path.not_isName_iff.1 hn)]
      simp [hn]

theorem entry_of_parentOf {parts : List Bytes} {parent : Location} (hp : d.parentOf l parts = .ok parent) :
    entry parent parts.getLast? = .ok (some l') ↔ LeadsToEntry d l parts l' := by
  obtain ⟨hf, hd⟩ := parentOf_eq_ok.1 hp
  obtain rfl := followAll_eq_ok hf
  rw [entry_eq_some]
  constructor
  · rintro ⟨part, hl, hn, hlen, rfl⟩
    obtain ⟨us, rfl⟩ := List.getLast?_eq_some_iff.1 hl
    rw [List.dropLast_concat] at hf hd ⊢
    exact .intro hf hd hn hlen
  · intro h
    cases h with
    | intro _ _ hn hlen => exact ⟨_, List.getLast?_concat, hn, hlen, by rw [List.dropLast_concat]⟩

theorem LeadsToEntry.parentOf {parts : List Bytes} (h : LeadsToEntry d l parts l') :
    ∃ parent, d.parentOf l parts = .ok parent ∧ entry parent parts.getLast? = .ok (some l') := by
  have hp : ∃ parent, d.parentOf l parts = .ok parent := by
    cases h with
    | intro hf hd hn hlen => exact ⟨_, parentOf_eq_ok.2 ⟨by rwa [List.dropLast_concat], hd⟩⟩
  obtain ⟨parent, hp⟩ := hp
  exact ⟨parent, hp, (entry_of_parentOf hp).2 h⟩

/-! ## Slashes at the end -/

theorem split_eq_partsOf (p : Path) :
    ∃ k, Bytes.split Byte.slash p = partsOf p ++ List.replicate k [] := by
  unfold partsOf
  generalize Bytes.split Byte.slash p = parts
  refine ⟨(parts.reverse.takeWhile (· = [])).length, ?_⟩
  have h : parts.reverse.takeWhile (· = []) = List.replicate (parts.reverse.takeWhile (· = [])).length [] :=
    List.eq_replicate_of_mem fun b hb => by simpa using List.mem_takeWhile_imp hb
  rw [← List.reverse_inj, List.reverse_append, List.reverse_reverse, List.reverse_replicate, ← h,
    List.takeWhile_append_dropWhile]

theorem locateFrom_replicate_nil (l : Location) (k : Nat) : locateFrom l (List.replicate k []) = l := by
  induction k with
  | zero => rfl
  | succ k ih => exact ih

theorem locate_eq_partsOf (d : Disk) (p : Path) : d.locate p = locateFrom (d.start p) (partsOf p) := by
  obtain ⟨k, h⟩ := split_eq_partsOf p
  rw [locate, h, locateFrom_append, locateFrom_replicate_nil]

theorem getLast?_ne_slash {us : List Bytes} {name : Bytes} (h : Bytes.split Byte.slash p = us ++ [name])
    (hne : name ≠ []) : p.getLast? ≠ some Byte.slash := by
  intro hs
  obtain ⟨q, rfl⟩ := List.getLast?_eq_some_iff.1 hs
  rw [Bytes.split_append_sep] at h
  exact hne (by simpa [Bytes.split] using (List.append_inj_right' h rfl).symm)

theorem partsOf_eq_split (hp : p ≠ []) (hs : p.getLast? ≠ some Byte.slash) :
    partsOf p = Bytes.split Byte.slash p := by
  obtain ⟨k, h⟩ := split_eq_partsOf p
  cases k with
  | zero => rw [h, List.replicate_zero, List.append_nil]
  | succ k =>
    rw [List.replicate_succ', ← List.append_assoc] at h
    exact absurd (Bytes.getLast?_split Byte.slash (by rw [h, List.getLast?_concat])) (by simp [hp, hs])

end Disk
end Stencil
