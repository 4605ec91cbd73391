import Stencil.Proofs.Disk.Places
/-!
# Changes — what operations do to a disk

A file is written at the one location its path leads to (`Disk.writeFile_eq_ok`), and a directory is made at the
location its path leads to and, where they are missing, at those on the way to it (`Disk.createDir_makesDirs`).
Directories stay whatever is done, and everything stands in a directory (`Disk.WellFormed`) before and after.
-/
namespace Stencil
namespace Disk

open Stencil.Path (IsName IsEntryName)

variable {d d' d'' : Disk} {l l' : Location} {n : Node} {p q : Path} {c : Bytes}

/-! ## Disks that are well formed -/

/-- Everything stands in a directory, under a name that a path can tell. -/
structure WellFormed (d : Disk) : Prop where
  parent : ∀ l name, d.node? (l ++ [name]) ≠ none → d.node? l = some .dir
  name : ∀ l name, d.node? (l ++ [name]) ≠ none → IsEntryName name

theorem WellFormed.dropLast (h : d.WellFormed) (hl : d.node? l = some .dir) : d.node? l.dropLast = some .dir := by
  rcases List.eq_nil_or_concat' l with rfl | ⟨k, name, rfl⟩
  · rfl
  · rw [List.dropLast_concat]
    exact h.parent k name (by simp [hl])

theorem WellFormed.turn (h : d.WellFormed) {part : Bytes} (hn : ¬IsName part) (hl : d.node? l = some .dir) :
    d.node? (turn l part) = some .dir := by
  rcases Path.not_isName_iff.1 hn with rfl | rfl | rfl
  · exact hl
  · exact hl
  · exact h.dropLast hl

theorem WellFormed.above (h : d.WellFormed) {us : Location} (hl : d.node? (l ++ us) = some n) (hus : us ≠ []) :
    d.node? l = some .dir := by
  induction us using List.reverseRecOn generalizing n with
  | nil => exact absurd rfl hus
  | append_singleton us u ih =>
    rw [← List.append_assoc] at hl
    have hp := h.parent _ _ (Option.ne_none_iff_exists'.2 ⟨n, hl⟩)
    by_cases hn : us = []
    · rwa [hn, List.append_nil] at hp
    · exact ih hp hn

theorem WellFormed.names (h : d.WellFormed) {us : Location} (hl : d.node? (l ++ us) = some n) :
    ∀ u ∈ us, IsEntryName u := by
  induction us using List.reverseRecOn generalizing n with
  | nil => exact fun _ hu => absurd hu List.not_mem_nil
  | append_singleton us u ih =>
    rw [← List.append_assoc] at hl
    have hl' := Option.ne_none_iff_exists'.2 ⟨n, hl⟩
    intro v hv
    rcases List.mem_append.1 hv with hv | hv
    · exact ih (h.parent _ _ hl') v hv
    · rw [List.mem_singleton.1 hv]
      exact h.name _ _ hl'

theorem WellFormed.set (h : d.WellFormed) {name : Bytes} (hd : d.node? l = some .dir) (hn : IsEntryName name)
    (hnd : d.node? (l ++ [name]) ≠ some .dir) (n : Node) : (d.set (l ++ [name]) n).WellFormed := by
  constructor
  · intro k m hk
    by_cases he : k ++ [m] = l ++ [name]
    · obtain rfl := (List.append_inj_left' he rfl)
      rw [node?_set_of_ne d (by simp), hd]
    · rw [node?_set_of_ne d he] at hk
      exact (dirsStay_set hnd n).dir _ (h.parent k m hk)
  · intro k m hk
    by_cases he : k ++ [m] = l ++ [name]
    · obtain rfl : m = name := by simpa using List.append_inj_right' he rfl
      exact hn
    · rw [node?_set_of_ne d he] at hk
      exact h.name k m hk

theorem wellFormed_iff : d.WellFormed ↔ ∀ e ∈ d.nodes.toList,
    d.node? e.1.dropLast = some .dir ∧ ∀ name ∈ e.1.getLast?, IsEntryName name := by
  have hmem (l : Location) (name : Bytes) : d.node? (l ++ [name]) ≠ none ↔ ∃ n, (l ++ [name], n) ∈ d.nodes.toList := by
    rw [node?_of_ne_nil d (by simp), Option.ne_none_iff_exists']
    exact exists_congr fun n => ⟨SortedMap.mem_of_find?, SortedMap.find?_of_mem⟩
  constructor
  · rintro h ⟨l, n⟩ he
    rcases List.eq_nil_or_concat' l with rfl | ⟨k, name, rfl⟩
    · exact ⟨rfl, nofun⟩
    · rw [List.dropLast_concat, List.getLast?_concat]
      have hn := (hmem k name).2 ⟨n, he⟩
      refine ⟨h.parent k name hn, fun m hm => ?_⟩
      rw [← Option.some.inj hm]
      exact h.name k name hn
  · intro h
    constructor <;> intro l name hn <;> obtain ⟨n, he⟩ := (hmem l name).1 hn
    · simpa using (h _ he).1
    · exact (h _ he).2 name List.getLast?_concat

instance (d : Disk) : Decidable d.WellFormed := decidable_of_iff _ wellFormed_iff.symm

/-! ## Files -/

theorem after_eq_ok {r : Except IoFailure Disk} : d.after r = (d', .ok ()) ↔ r = .ok d' := by
  cases r <;> simp [after]

theorem after_eq_error {r : Except IoFailure Disk} {f : IoFailure} :
    d.after r = (d', .error f) ↔ r = .error f ∧ d' = d := by
  cases r <;> simp [after, and_comm, eq_comm]

theorem writeFile_eq_ok : d.writeFile p c = .ok d' ↔
    checkPath p = .ok () ∧ p.getLast? ≠ some Byte.slash ∧ LeadsToEntry d (d.start p) (partsOf p) (d.locate p) ∧
      d.node? (d.locate p) ≠ some .dir ∧ d' = d.set (d.locate p) (.file c) := by
  unfold writeFile
  rw [bind_eq_ok]
  constructor
  · rintro ⟨_, hc, h⟩
    obtain ⟨parent, hp, h⟩ := bind_eq_ok.1 h
    split at h
    · cases h
    · rename_i hs
      obtain ⟨l?, he, h⟩ := bind_eq_ok.1 h
      split at h
      · cases h
      · rename_i l
        have hl := (entry_of_parentOf hp).1 he
        obtain rfl : l = d.locate p := by rw [locate_eq_partsOf, followAll_eq_ok hl.followAll]
        split at h
        · cases h
        · rename_i hd
          exact ⟨hc, hs, hl, hd, (Except.ok.inj h).symm⟩
  · rintro ⟨hc, hs, hl, hd, rfl⟩
    obtain ⟨parent, hp, he⟩ := hl.parentOf
    refine ⟨(), hc, bind_eq_ok.2 ⟨parent, hp, ?_⟩⟩
    rw [if_neg hs, he]
    exact if_neg hd

theorem writeFile_of_readFile (hwf : d.WellFormed) {b : Bytes} (h : d.readFile p = .ok b) (c : Bytes) :
    d.writeFile p c = .ok (d.set (d.locate p) (.file c)) := by
  obtain ⟨hr, hn⟩ := look_eq_ok.1 (readFile_eq_ok.1 h)
  obtain ⟨hc, hf⟩ := resolve_eq_ok.1 hr
  have hp := ne_nil_of_checkPath hc
  obtain ⟨us, u, hu⟩ := (List.eq_nil_or_concat' (Bytes.split Byte.slash p)).resolve_left (Bytes.split_ne_nil _ _)
  rw [hu] at hf
  have hus := (followAll_append_eq_ok.1 hf).1
  obtain ⟨hd, hv, -⟩ := followAll_cons_eq_ok.1 (followAll_append_eq_ok.1 hf).2
  have hlast : d.locate p = turn (locateFrom (d.start p) us) u := by
    rw [locate, hu, locateFrom_append]
    rfl
  have hname : IsName u := by
    by_contra hu
    rw [hlast, hwf.turn hu hd] at hn
    cases hn
  have hlen : u.length ≤ maxName := by
    rw [follow_of_isName hname] at hv
    split at hv
    · cases hv
    · omega
  have hs := getLast?_ne_slash hu hname.ne_nil
  refine writeFile_eq_ok.2 ⟨hc, hs, ?_, by simp [hn], rfl⟩
  rw [partsOf_eq_split hp hs, hu, hlast, turn_of_isName hname]
  exact .intro hus hd hname hlen

theorem look_of_writeFile (h : d.writeFile p c = .ok d') : d'.look p = .ok (.file c) := by
  obtain ⟨hc, hs, hl, hd, rfl⟩ := writeFile_eq_ok.1 h
  have hstay := dirsStay_set hd (.file c)
  rw [look_eq_ok, locate_congr hstay.cwd, resolve_eq_ok, ← partsOf_eq_split (ne_nil_of_checkPath hc) hs, start_set]
  exact ⟨⟨hc, hstay.followAll hl.followAll⟩, node?_set_self d hl.ne_nil _⟩

theorem isEntryName_of_mem_partsOf {part : Bytes} (hm : part ∈ partsOf p) (h : IsName part) : IsEntryName part := by
  obtain ⟨k, hk⟩ := split_eq_partsOf p
  exact ⟨h, Bytes.notMem_of_mem_split (by rw [hk]; exact List.mem_append_left _ hm)⟩

theorem WellFormed.writeFile (hwf : d.WellFormed) (h : d.writeFile p c = .ok d') : d'.WellFormed := by
  obtain ⟨-, -, hl, hd, rfl⟩ := writeFile_eq_ok.1 h
  obtain ⟨k, part, hk, hm, hn, hdir⟩ := hl.parent
  rw [hk] at hd ⊢
  exact hwf.set hdir (isEntryName_of_mem_partsOf hm hn) hd _

/-- A copy is written like any file, with what the source holds once the target has been emptied. -/
theorem copyFile_eq_ok : d.copyFile p q = .ok d' ↔
    (∃ b, d.look p = .ok (.file b)) ∧ ∃ e c, d.writeFile q [] = .ok e ∧ e.look p = .ok (.file c) ∧
      e.writeFile q c = .ok d' := by
  unfold copyFile
  rw [bind_eq_ok]
  constructor
  · rintro ⟨n, hn, h⟩
    cases n with
    | dir => cases h
    | file b =>
      obtain ⟨e, he, h⟩ := bind_eq_ok.1 h
      obtain ⟨c, hc, h⟩ := bind_eq_ok.1 h
      exact ⟨⟨b, hn⟩, e, c, he, readFile_eq_ok.1 hc, h⟩
  · rintro ⟨⟨b, hb⟩, e, c, he, hc, h⟩
    exact ⟨_, hb, bind_eq_ok.2 ⟨e, he, bind_eq_ok.2 ⟨c, readFile_eq_ok.2 hc, h⟩⟩⟩

/-! ## Directories -/

theorem makeDir_eq_ok {parts : List Bytes} : d.makeDir l parts = .ok d' ↔
    ∃ k, LeadsToEntry d l parts k ∧ d.node? k = none ∧ d' = d.set k .dir := by
  unfold makeDir
  rw [bind_eq_ok]
  constructor
  · rintro ⟨parent, hp, h⟩
    obtain ⟨k?, hk, h⟩ := bind_eq_ok.1 h
    split at h
    · cases h
    · rename_i k
      refine ⟨k, (entry_of_parentOf hp).1 hk, ?_⟩
      split at h
      · cases h
      · exact ⟨‹_›, (Except.ok.inj h).symm⟩
  · rintro ⟨k, hk, hn, rfl⟩
    obtain ⟨parent, hp, he⟩ := hk.parentOf
    exact ⟨parent, hp, by rw [he]; simp [bind, Except.bind, hn]⟩

theorem leadsToDir_iff {parts : List Bytes} : d.leadsToDir l parts = true ↔
    d.followAll l parts = .ok (locateFrom l parts) ∧ d.node? (locateFrom l parts) = some .dir := by
  unfold leadsToDir
  split
  · rename_i k hk
    obtain rfl := followAll_eq_ok hk
    simp [hk]
  · simp_all

/-- Directories made one after the other at ends of lists of parts that satisfy `P`. -/
inductive MakesDirs (P : List Bytes → Prop) (l : Location) : Disk → Disk → Prop
  | refl (d : Disk) : MakesDirs P l d d
  | make {d e : Disk} {parts : List Bytes} {k : Location} : MakesDirs P l d e → P parts →
      LeadsToEntry e l parts k → e.node? k = none → MakesDirs P l d (e.set k .dir)

variable {P : List Bytes → Prop}

theorem MakesDirs.trans (h₁ : MakesDirs P l d d') (h₂ : MakesDirs P l d' d'') : MakesDirs P l d d'' := by
  induction h₂ with
  | refl => exact h₁
  | make _ hP hl hn ih => exact .make ih hP hl hn

theorem MakesDirs.cwd (h : MakesDirs P l d d') : d'.cwd = d.cwd := by
  induction h with
  | refl => rfl
  | make _ _ _ _ ih => exact ih

theorem MakesDirs.wellFormed (h : MakesDirs P l d d') (hP : ∀ parts, P parts → ∀ part ∈ parts, Byte.slash ∉ part)
    (hwf : d.WellFormed) : d'.WellFormed := by
  induction h with
  | refl => exact hwf
  | make _ hp hl hn ih =>
    obtain ⟨k, part, rfl, hm, hname, hdir⟩ := hl.parent
    exact ih.set hdir ⟨hname, hP _ hp part hm⟩ (by simp [hn]) _

theorem ensureDir_eq_ok {parts : List Bytes} (h : d.ensureDir l parts = .ok d') (hP : P parts) :
    MakesDirs P l d d' ∧ d'.leadsToDir l parts = true := by
  unfold ensureDir at h
  split at h
  · rename_i e he
    obtain rfl := Except.ok.inj h
    obtain ⟨k, hk, hn, rfl⟩ := makeDir_eq_ok.1 he
    obtain rfl := followAll_eq_ok hk.followAll
    have hstay : DirsStay d (d.set (locateFrom l parts) .dir) := dirsStay_set (by simp [hn]) _
    exact ⟨.make (.refl d) hP hk hn,
      leadsToDir_iff.2 ⟨hstay.followAll hk.followAll, node?_set_self d hk.ne_nil _⟩⟩
  · split at h
    · rename_i hl
      obtain rfl := Except.ok.inj h
      exact ⟨.refl d, hl.2⟩
    · cases h

theorem after_ensureDir (d : Disk) (l : Location) {parts : List Bytes} (hP : P parts) :
    MakesDirs P l d (d.after (d.ensureDir l parts)).1 ∧
      ((d.after (d.ensureDir l parts)).2 = .ok () → (d.after (d.ensureDir l parts)).1.leadsToDir l parts = true) := by
  cases h : d.ensureDir l parts with
  | ok e => exact ⟨(ensureDir_eq_ok h hP).1, fun _ => (ensureDir_eq_ok h hP).2⟩
  | error e => exact ⟨.refl d, nofun⟩

theorem ensureDirs_makesDirs (d : Disk) (l : Location) {parts : List Bytes}
    (hP : ∀ us, us <+: parts.reverse → P us) : MakesDirs P l d (d.ensureDirs l parts).1 := by
  induction parts with
  | nil => exact .refl d
  | cons part above ih =>
    have hwhole : P (part :: above).reverse := hP _ List.prefix_rfl
    have habove := ih fun us hus => hP us (by rw [List.reverse_cons]; exact hus.trans (List.prefix_append _ _))
    rw [ensureDirs]
    split
    · split
      · rename_i e he
        rw [he] at habove
        exact habove.trans (after_ensureDir e l hwhole).1
      · exact habove
    · exact (after_ensureDir d l hwhole).1

theorem partOf_component? (part : Bytes) :
    (Path.component? part).bind partOf = if part = [] ∨ part = [Byte.dot] then none else some part := by
  unfold Path.component?
  split
  · rfl
  · rfl
  · rfl
  · rename_i h₁ h₂ h₃
    rw [if_neg (by rintro (h | h); exacts [h₁ h, h₂ h])]
    rfl

def IsBlank (part : Bytes) : Prop := part = [] ∨ part = [Byte.dot]

instance (part : Bytes) : Decidable (IsBlank part) := inferInstanceAs (Decidable (_ ∨ _))

theorem turn_of_isBlank {part : Bytes} (h : IsBlank part) (l : Location) : turn l part = l := if_pos h

theorem locateFrom_filter (l : Location) (parts : List Bytes) :
    locateFrom l (parts.filter fun part => ¬IsBlank part) = locateFrom l parts := by
  induction parts generalizing l with
  | nil => rfl
  | cons part parts ih =>
    by_cases h : IsBlank part
    · rw [List.filter_cons_of_neg (by simp [h]), ih, locateFrom_cons, turn_of_isBlank h]
    · rw [List.filter_cons_of_pos (by simp [h]), locateFrom_cons, locateFrom_cons, ih]

theorem filterMap_partOf_components (p : Path) : p.components.filterMap partOf =
    p.front.filterMap partOf ++ (Bytes.split Byte.slash p).filter fun part => ¬IsBlank part := by
  rw [Path.components, List.filterMap_append, List.filterMap_filterMap]
  congr 1
  induction Bytes.split Byte.slash p with
  | nil => rfl
  | cons part parts ih =>
    by_cases h : IsBlank part
    · rw [List.filterMap_cons_none (by rw [partOf_component?]; exact if_pos h), ih,
        List.filter_cons_of_neg (by simp [h])]
    · rw [List.filterMap_cons_some (by rw [partOf_component?]; exact if_neg h), ih,
        List.filter_cons_of_pos (by simp [h])]

theorem front_partOf (p : Path) : p.front.filterMap partOf = [] ∨ p.front.filterMap partOf = [[Byte.dot]] := by
  unfold Path.front
  split
  · exact .inl rfl
  · exact .inr rfl
  · exact .inr rfl
  · exact .inl rfl

/-- Parts that lead to a place on the way of a path. -/
def Leading (p : Path) (parts : List Bytes) : Prop :=
  (∀ part ∈ parts, Byte.slash ∉ part) ∧
    ∃ us, us <+: Bytes.split Byte.slash p ∧ ∀ l, locateFrom l parts = locateFrom l us

theorem Leading.onWay {us : List Bytes} (h : Leading p us) : d.OnWay p (locateFrom (d.start p) us) := by
  obtain ⟨-, ws, hws, hl⟩ := h
  exact ⟨ws, hws, hl _⟩

theorem leading_partsOf {us : List Bytes} (h : us <+: partsOf p) : Leading p us := by
  obtain ⟨k, hk⟩ := split_eq_partsOf p
  have hus : us <+: Bytes.split Byte.slash p := h.trans (hk ▸ List.prefix_append _ _)
  exact ⟨fun part hm => Bytes.notMem_of_mem_split (hus.subset hm), us, hus, fun _ => rfl⟩

theorem leading_components {us : List Bytes} (h : us <+: p.components.filterMap partOf) : Leading p us := by
  have hsub : ∀ {vs : List Bytes}, vs <+: (Bytes.split Byte.slash p).filter (fun part => ¬IsBlank part) →
      Leading p vs := by
    intro vs hvs
    refine ⟨fun part hm => ?_, ?_⟩
    · exact Bytes.notMem_of_mem_split (List.mem_of_mem_filter (hvs.subset hm))
    · obtain ⟨ws, hws, rfl⟩ := List.prefix_filter_iff.1 hvs
      exact ⟨ws, hws, fun l => locateFrom_filter l ws⟩
  rw [filterMap_partOf_components] at h
  rcases front_partOf p with hf | hf
  · rw [hf] at h
    exact hsub h
  · rw [hf] at h
    cases us with
    | nil => exact ⟨fun _ hm => absurd hm List.not_mem_nil, [], List.nil_prefix, fun _ => rfl⟩
    | cons u us =>
      obtain ⟨rfl, hus⟩ := List.cons_prefix_cons.1 h
      obtain ⟨hslash, ws, hws, hl⟩ := hsub hus
      refine ⟨fun part hm => ?_, ws, hws, fun l => hl l⟩
      rcases List.mem_cons.1 hm with rfl | hm
      · decide
      · exact hslash part hm

theorem createDirAt_makesDirs (d : Disk) (p : Path) : MakesDirs (Leading p) (d.start p) d (d.createDirAt p).1 ∧
    ((d.createDirAt p).2 = .ok () → (d.createDirAt p).1.leadsToDir (d.start p) (partsOf p) = true) := by
  have hhere (e : Disk) := after_ensureDir e (d.start p) (leading_partsOf (p := p) List.prefix_rfl)
  have habove : MakesDirs (Leading p) (d.start p) d
      (d.ensureDirs (d.start p) (p.components.filterMap partOf).dropLast.reverse).1 := by
    refine ensureDirs_makesDirs d (d.start p) fun us hus => ?_
    rw [List.reverse_reverse] at hus
    exact leading_components (hus.trans (List.dropLast_prefix _))
  unfold createDirAt
  split
  · split
    · rename_i e he
      rw [he] at habove
      rw [start_congr habove.cwd]
      exact ⟨habove.trans (hhere e).1, (hhere e).2⟩
    · rename_i h
      exact ⟨habove, fun h' => (h _ (Prod.ext rfl h')).elim⟩
  · exact hhere d

theorem createDir_makesDirs (d : Disk) (p : Path) : MakesDirs (Leading p) (d.start p) d (d.createDir p).1 := by
  unfold createDir
  split
  · exact .refl d
  · split
    · exact (createDirAt_makesDirs d p).1
    · exact .refl d

theorem look_of_createDir (hp : p ≠ []) (h : (d.createDir p).2 = .ok ()) : (d.createDir p).1.look p = .ok .dir := by
  unfold createDir at h ⊢
  rw [if_neg hp] at h ⊢
  split at h
  · rename_i hc
    have hmade := (createDirAt_makesDirs d p).1
    obtain ⟨hf, hn⟩ := leadsToDir_iff.1 ((createDirAt_makesDirs d p).2 h)
    obtain ⟨k, hk⟩ := split_eq_partsOf p
    rw [look_eq_ok, locate_eq_partsOf, start_congr hmade.cwd, resolve_eq_ok, start_congr hmade.cwd]
    refine ⟨⟨hc, ?_⟩, hn⟩
    rw [hk, followAll_append_eq_ok]
    exact ⟨hf, followAll_replicate_nil hn k⟩
  · cases h

/-! ## What changes -/

/-- Directories are made where nothing stood, at places `made`, and files are written, at places `written`, where no
directory stood. -/
structure Changes (made written : Location → Prop) (d d' : Disk) : Prop where
  cwd : d'.cwd = d.cwd
  node : ∀ l, d'.node? l = d.node? l ∨ (made l ∧ d.node? l = none ∧ d'.node? l = some .dir) ∨
    (written l ∧ d.node? l ≠ some .dir ∧ ∃ c, d'.node? l = some (.file c))

variable {made written : Location → Prop}

theorem Changes.refl (d : Disk) : Changes made written d d := ⟨rfl, fun _ => .inl rfl⟩

theorem Changes.dirsStay (h : Changes made written d d') : DirsStay d d' := by
  refine ⟨h.cwd, fun l hl => ?_⟩
  rcases h.node l with hn | ⟨-, hn, -⟩ | ⟨-, hn, -⟩
  · rw [hn, hl]
  · simp [hn] at hl
  · exact absurd hl hn

theorem Changes.trans (h₁ : Changes made written d d') (h₂ : Changes made written d' d'') :
    Changes made written d d'' := by
  refine ⟨h₂.cwd.trans h₁.cwd, fun l => ?_⟩
  rcases h₁.node l with e₁ | ⟨m₁, n₁, e₁⟩ | ⟨m₁, n₁, c₁, e₁⟩
  · rw [← e₁]
    exact h₂.node l
  · have e₂ := h₂.dirsStay.dir l e₁
    exact .inr (.inl ⟨m₁, n₁, e₂⟩)
  · rcases h₂.node l with e₂ | ⟨-, n₂, -⟩ | ⟨m₂, -, e₂⟩
    · exact .inr (.inr ⟨m₁, n₁, c₁, e₂.trans e₁⟩)
    · simp [e₁] at n₂
    · exact .inr (.inr ⟨m₂, n₁, e₂⟩)

theorem Changes.mono {made' written' : Location → Prop} (h : Changes made written d d')
    (hm : ∀ l, made l → made' l) (hw : ∀ l, written l → written' l) : Changes made' written' d d' :=
  ⟨h.cwd, fun l => (h.node l).imp_right (Or.imp (And.imp_left (hm l)) (And.imp_left (hw l)))⟩

theorem Changes.stays (h : Changes made written d d') (hl : d.node? l = some n) (hw : ¬written l) :
    d'.node? l = some n := by
  rcases h.node l with hn | ⟨-, hn, -⟩ | ⟨hn, -, -⟩
  · rw [hn, hl]
  · simp [hn] at hl
  · exact absurd hn hw

theorem Changes.look (h : Changes made written d d') (hp : d.look p = .ok n) (hw : ¬written (d.locate p)) :
    d'.look p = .ok n := h.dirsStay.look hp (h.stays (look_eq_ok.1 hp).2 hw)

theorem changes_writeFile (h : d.writeFile p c = .ok d') : Changes (fun _ => False) (· = d.locate p) d d' := by
  obtain ⟨-, -, hl, hd, rfl⟩ := writeFile_eq_ok.1 h
  refine ⟨rfl, fun l => ?_⟩
  by_cases hk : l = d.locate p
  · subst hk
    exact .inr (.inr ⟨rfl, hd, c, node?_set_self d hl.ne_nil _⟩)
  · exact .inl (node?_set_of_ne d hk _)

theorem MakesDirs.changes (h : MakesDirs P l d d') :
    Changes (fun k => ∃ parts, P parts ∧ k = locateFrom l parts) (fun _ => False) d d' := by
  induction h with
  | refl => exact .refl _
  | make _ hP hl hn ih =>
    rename_i e parts k _
    refine ih.trans ⟨rfl, fun j => ?_⟩
    by_cases hj : j = k
    · subst hj
      exact .inr (.inl ⟨⟨parts, hP, followAll_eq_ok hl.followAll⟩, hn, node?_set_self e hl.ne_nil _⟩)
    · exact .inl (node?_set_of_ne e hj _)

theorem changes_createDir (d : Disk) (p : Path) : Changes (d.OnWay p) (fun _ => False) d (d.createDir p).1 := by
  refine (createDir_makesDirs d p).changes.mono ?_ fun _ h => h
  rintro k ⟨parts, hparts, rfl⟩
  exact hparts.onWay

end Disk
end Stencil
