import Stencil.Proofs.Disk.Changes
/-!
# Failures — why operations fail

An entry of a directory that is there can be made unless something is wrong with its path or its name
(`IoFailure.IsNaming`) or with what stands there.  A directory that cannot be made together with those above it leaves
the disk as it was unless something is wrong with a name, if its path is straight (`Disk.Straight`) and does not end in
a dot (`Disk.createDir_eq_error`).
-/
namespace Stencil

/-- A failure for which what is on the disk is no reason: a path or a name is too long or contains a NUL byte. -/
def IoFailure.IsNaming (f : IoFailure) : Prop := f = .nameTooLong ∨ f = .nulByte

namespace Disk

open Stencil.Path (IsName IsEntryName)

variable {d d' d₁ : Disk} {l k names : Location} {n : Node} {p : Path} {c : Bytes} {f : IoFailure}

theorem isNaming_of_checkPath (hp : p ≠ []) (h : checkPath p = .error f) : f.IsNaming := by
  unfold checkPath at h
  rw [if_neg hp] at h
  split at h
  · cases h
    exact .inr rfl
  · split at h
    · cases h
      exact .inl rfl
    · cases h

theorem followAll_append (d : Disk) (l : Location) (us vs : List Bytes) :
    d.followAll l (us ++ vs) = d.followAll l us >>= fun l => d.followAll l vs := by
  induction us generalizing l with
  | nil => rfl
  | cons u us ih =>
    rw [List.cons_append, followAll_cons, followAll_cons]
    cases d.needDir l <;> cases follow l u <;> simp [bind, Except.bind, ih]

theorem copyFile_eq_error {q : Path} (h : d.copyFile p q = .error f) :
    d.look p = .error f ∨ ∃ n, d.look p = .ok n ∧ (n = .dir ∨ d.writeFile q [] = .error f ∨
      ∃ e, d.writeFile q [] = .ok e ∧
        (e.readFile p = .error f ∨ ∃ c, e.readFile p = .ok c ∧ e.writeFile q c = .error f)) := by
  unfold Disk.copyFile at h
  rcases bind_eq_error.1 h with h | ⟨n, hn, h⟩
  · exact .inl h
  · refine .inr ⟨n, hn, ?_⟩
    cases n with
    | dir => exact .inl rfl
    | file b =>
      refine .inr ((bind_eq_error.1 h).imp_right ?_)
      rintro ⟨e, he, h⟩
      exact ⟨e, he, bind_eq_error.1 h⟩

/-! ## Entries of a directory that is there -/

theorem split_foldl_join_eq (hp : d.look p = .ok .dir) (hn : ∀ n ∈ names, IsEntryName n) :
    ∃ us, Bytes.split Byte.slash (names.foldl Path.join p) = us ++ names ∧
      d.followAll (d.start p) us = .ok (d.locate p) := by
  have hf := (resolve_eq_ok.1 (look_eq_ok.1 hp).1).2
  rcases Path.split_foldl_join (ne_nil_of_checkPath (checkPath_of_look hp)) hn with h | ⟨us, h₁, h₂⟩
  · exact ⟨_, h, hf⟩
  · refine ⟨us, h₂, ?_⟩
    rw [h₁] at hf
    have hus := (followAll_append_eq_ok.1 hf).1
    rwa [show locateFrom (d.start p) us = d.locate p by rw [locate, h₁, locateFrom_append]; rfl] at hus

def Fits (p : Path) (name : Bytes) : Prop := checkPath p = .ok () ∧ name.length ≤ maxName

structure EntryOf (d : Disk) (p : Path) (name : Bytes) (us : List Bytes) : Prop where
  split : Bytes.split Byte.slash (p.join name) = us ++ [name]
  partsOf : Disk.partsOf (p.join name) = us ++ [name]
  noSlash : (p.join name).getLast? ≠ some Byte.slash
  start : d.start (p.join name) = d.start p
  parent : d.followAll (d.start p) us = .ok (d.locate p)
  dir : d.node? (d.locate p) = some .dir
  locate : d.locate (p.join name) = d.locate p ++ [name]

theorem entryOf (hp : d.look p = .ok .dir) {name : Bytes} (hn : IsEntryName name) : ∃ us, EntryOf d p name us := by
  have hne := ne_nil_of_checkPath (checkPath_of_look hp)
  obtain ⟨us, hsplit, hus⟩ := split_foldl_join_eq hp (List.forall_mem_singleton.2 hn)
  have hs := getLast?_ne_slash hsplit hn.ne_nil
  refine ⟨us, hsplit, ?_, hs, start_join d hne name, hus, (look_eq_ok.1 hp).2, locate_join d hne hn⟩
  rw [partsOf_eq_split (Path.join_ne_nil hne) hs]
  exact hsplit

variable {name : Bytes} {us : List Bytes}

theorem EntryOf.parentOf (h : EntryOf d p name us) : d.parentOf (d.start p) (us ++ [name]) = .ok (d.locate p) :=
  parentOf_eq_ok.2 ⟨by rw [List.dropLast_concat]; exact h.parent, h.dir⟩

theorem EntryOf.leadsToEntry (h : EntryOf d p name us) (hn : IsEntryName name) (hlen : name.length ≤ maxName) :
    LeadsToEntry d (d.start p) (us ++ [name]) (d.locate p ++ [name]) := by
  have hl := followAll_eq_ok h.parent
  rw [hl]
  exact .intro (hl ▸ h.parent) (hl ▸ h.dir) hn.toIsName hlen

theorem writeFile_join (hp : d.look p = .ok .dir) (hn : IsEntryName name) (hfits : Fits (p.join name) name)
    (hnode : d.node? (d.locate (p.join name)) ≠ some .dir) (c : Bytes) :
    d.writeFile (p.join name) c = .ok (d.set (d.locate (p.join name)) (.file c)) := by
  obtain ⟨us, h⟩ := entryOf hp hn
  refine writeFile_eq_ok.2 ⟨hfits.1, h.noSlash, ?_, hnode, rfl⟩
  rw [h.start, h.partsOf, h.locate]
  exact h.leadsToEntry hn hfits.2

theorem writeFile_join_of_not_fits (hp : d.look p = .ok .dir) (hn : IsEntryName name)
    (hfits : ¬Fits (p.join name) name) (h : d.writeFile (p.join name) c = .error f) : f.IsNaming := by
  obtain ⟨us, he⟩ := entryOf hp hn
  unfold writeFile at h
  cases hc : checkPath (p.join name) with
  | error e =>
    rw [hc] at h
    cases h
    exact isNaming_of_checkPath (Path.join_ne_nil (ne_nil_of_checkPath (checkPath_of_look hp))) hc
  | ok =>
    have hlen : maxName < name.length := Nat.lt_of_not_le fun hlen => hfits ⟨hc, hlen⟩
    rw [hc, he.start, he.partsOf, he.parentOf, List.getLast?_concat] at h
    simp only [bind, Except.bind, if_neg he.noSlash, entry_of_isName hn.toIsName, if_pos hlen] at h
    cases h
    exact .inl rfl

theorem fits_of_writeFile (hp : d.look p = .ok .dir) (hn : IsEntryName name)
    (h : d.writeFile (p.join name) c = .ok d') : Fits (p.join name) name := by
  obtain ⟨us, he⟩ := entryOf hp hn
  obtain ⟨hc, -, hl, -, -⟩ := writeFile_eq_ok.1 h
  rw [he.partsOf] at hl
  exact ⟨hc, hl.length_le⟩

theorem makeDir_concat {parent : Location} (hp : d.parentOf l (us ++ [name]) = .ok parent) (hn : IsName name) :
    d.makeDir l (us ++ [name]) =
      if maxName < name.length then .error .nameTooLong
      else if d.node? (parent ++ [name]) = none then .ok (d.set (parent ++ [name]) .dir)
      else .error .exists := by
  unfold makeDir
  simp only [bind, Except.bind, hp, List.getLast?_concat, entry_of_isName hn]
  by_cases hlen : maxName < name.length
  · rw [if_pos hlen, if_pos hlen]
  · rw [if_neg hlen, if_neg hlen]
    cases hnode : d.node? (parent ++ [name]) <;> simp [hnode]

theorem ensureDir_concat_eq_error {parent : Location} (hp : d.parentOf l (us ++ [name]) = .ok parent) (hn : IsName name)
    (h : d.ensureDir l (us ++ [name]) = .error f) :
    maxName < name.length ∧ f = .nameTooLong ∨
      name.length ≤ maxName ∧ f = .exists ∧ ∃ c, d.node? (parent ++ [name]) = some (.file c) := by
  have hf := (parentOf_eq_ok.1 hp).1
  rw [List.dropLast_concat] at hf
  obtain rfl := followAll_eq_ok hf
  have hdir := (parentOf_eq_ok.1 hp).2
  unfold ensureDir at h
  rw [makeDir_concat hp hn] at h
  by_cases hlen : maxName < name.length
  · rw [if_pos hlen] at h
    dsimp only at h
    split at h
    · cases h
    · cases h
      exact .inl ⟨hlen, rfl⟩
  · rw [if_neg hlen] at h
    by_cases hnone : d.node? (locateFrom l us ++ [name]) = none
    · rw [if_pos hnone] at h
      cases h
    · rw [if_neg hnone] at h
      dsimp only at h
      split at h
      · cases h
      · rename_i hleads
        cases h
        refine .inr ⟨Nat.le_of_not_lt hlen, rfl, ?_⟩
        obtain ⟨n, hn'⟩ := Option.ne_none_iff_exists'.1 hnone
        cases n with
        | file c => exact ⟨c, hn'⟩
        | dir =>
          have hentry : LeadsToEntry d l (us ++ [name]) (locateFrom l us ++ [name]) :=
            .intro hf hdir hn (Nat.le_of_not_lt hlen)
          refine absurd ⟨nofun, leadsToDir_iff.2 ?_⟩ hleads
          rw [← followAll_eq_ok hentry.followAll]
          exact ⟨hentry.followAll, hn'⟩

theorem createDir_join_eq_error (hp : d.look p = .ok .dir) (hn : IsEntryName name)
    (h : d.createDir (p.join name) = (d', .error f)) :
    f.IsNaming ∨ f = .exists ∧ Fits (p.join name) name ∧ ∃ c, d.node? (d.locate (p.join name)) = some (.file c) := by
  obtain ⟨us, he⟩ := entryOf hp hn
  have hne : p.join name ≠ [] := Path.join_ne_nil (ne_nil_of_checkPath (checkPath_of_look hp))
  unfold createDir at h
  rw [if_neg hne] at h
  split at h
  · rename_i hc
    unfold createDirAt at h
    rw [he.start, he.partsOf] at h
    cases hensure : d.ensureDir (d.start p) (us ++ [name]) with
    | ok e =>
      rw [hensure] at h
      cases h
    | error e =>
      rw [he.locate]
      rcases ensureDir_concat_eq_error he.parentOf hn.toIsName hensure with ⟨-, rfl⟩ | ⟨hlen, rfl, hfile⟩ <;>
        rw [hensure] at h <;> cases h
      · exact .inl (.inl rfl)
      · exact .inr ⟨rfl, ⟨hc, hlen⟩, hfile⟩
  · rename_i hc
    cases h
    exact .inl (isNaming_of_checkPath hne hc)

theorem followAll_names {parts : List Bytes} (hn : ∀ n ∈ parts, IsName n)
    (hdirs : ∀ us v vs, parts = us ++ v :: vs → d.node? (l ++ us) = some .dir) :
    d.followAll l parts = .ok (l ++ parts) ∨ d.followAll l parts = .error .nameTooLong := by
  induction parts generalizing l with
  | nil => exact .inl (by rw [List.append_nil]; rfl)
  | cons v vs ih =>
    have hdir := hdirs [] v vs rfl
    rw [List.append_nil] at hdir
    rw [followAll_cons, needDir_eq_ok.2 hdir]
    simp only [bind, Except.bind, follow_of_isName (hn v List.mem_cons_self)]
    by_cases hlen : maxName < v.length
    · rw [if_pos hlen]
      exact .inr rfl
    · rw [if_neg hlen, List.append_cons l v vs]
      refine ih (fun n hm => hn n (List.mem_cons_of_mem v hm)) fun us u ws hus => ?_
      rw [List.append_assoc]
      exact hdirs (v :: us) u ws (by rw [hus]; rfl)

theorem look_below (hp : d.look p = .ok .dir) (hn : ∀ n ∈ names, IsEntryName n)
    (hdirs : ∀ us v vs, names = us ++ v :: vs → d.node? (d.locate p ++ us) = some .dir)
    (hnode : d.node? (d.locate p ++ names) = some n) :
    d.look (names.foldl Path.join p) = .ok n ∨
      ∃ f, f.IsNaming ∧ d.look (names.foldl Path.join p) = .error f := by
  have hne := ne_nil_of_checkPath (checkPath_of_look hp)
  cases hc : checkPath (names.foldl Path.join p) with
  | error f =>
    refine .inr ⟨f, isNaming_of_checkPath (Path.foldl_join_ne_nil hne names) hc, ?_⟩
    unfold look resolve
    rw [hc]
    rfl
  | ok =>
    obtain ⟨us, hsplit, hus⟩ := split_foldl_join_eq hp hn
    have hresolve : d.resolve (names.foldl Path.join p) = d.followAll (d.locate p) names := by
      unfold resolve
      rw [hc, start_foldl_join d hne, hsplit, followAll_append, hus]
      rfl
    rcases followAll_names (fun n hm => (hn n hm).toIsName) hdirs with h | h
    · refine .inl (look_eq_ok.2 ?_)
      rw [hresolve, h, locate_foldl_join d hne hn]
      exact ⟨rfl, hnode⟩
    · refine .inr ⟨_, .inl rfl, ?_⟩
      unfold look
      rw [hresolve, h]
      rfl

/-! ## Directories with those above them -/

/-- All that a path passes is above where it leads, or a directory already. -/
def Straight (d : Disk) (p : Path) : Prop := ∀ l, d.OnWay p l → l <+: d.locate p ∨ d.node? l = some .dir

theorem straight_iff : d.Straight p ↔ ∀ us ∈ (Bytes.split Byte.slash p).inits,
    locateFrom (d.start p) us <+: d.locate p ∨ d.node? (locateFrom (d.start p) us) = some .dir := by
  constructor
  · intro h us hus
    exact h _ ⟨us, (List.mem_inits _ _).1 hus, rfl⟩
  · rintro h l ⟨us, hus, rfl⟩
    exact h us ((List.mem_inits _ _).2 hus)

instance (d : Disk) (p : Path) : Decidable (d.Straight p) := decidable_of_iff _ straight_iff.symm

/-- Directories that are there can be left again. -/
example : Disk.Straight ⟨[utf8 "a"], .ofList [([utf8 "a"], .dir)]⟩ (utf8 "../out") := by decide

theorem prefix_turn {part : Bytes} (h : part ≠ [Byte.dot, Byte.dot]) (l : Location) : l <+: turn l part := by
  unfold turn
  rw [if_neg h]
  split
  · exact List.prefix_rfl
  · exact List.prefix_append _ _

theorem prefix_locateFrom {parts : List Bytes} (h : [Byte.dot, Byte.dot] ∉ parts) (l : Location) :
    l <+: locateFrom l parts := by
  induction parts generalizing l with
  | nil => exact List.prefix_rfl
  | cons part parts ih =>
    rw [List.mem_cons, not_or] at h
    exact (prefix_turn (Ne.symm h.1) l).trans (ih h.2 _)

theorem straight_of_noUp (h : [Byte.dot, Byte.dot] ∉ Bytes.split Byte.slash p) : d.Straight p := by
  rintro l ⟨us, ⟨vs, hvs⟩, rfl⟩
  refine .inl ?_
  rw [locate, ← hvs, locateFrom_append]
  exact prefix_locateFrom (fun hm => h (hvs ▸ List.mem_append_right _ hm)) _

theorem followAll_of_dirs {parts : List Bytes} (hdirs : ∀ us, us <+: parts → d.node? (locateFrom l us) = some .dir)
    (h : d₁.followAll l parts = .ok k) : d.followAll l parts = .ok k := by
  induction parts generalizing l with
  | nil => exact h
  | cons part parts ih =>
    obtain ⟨-, hv, hf⟩ := followAll_cons_eq_ok.1 h
    refine followAll_cons_eq_ok.2 ⟨hdirs [] List.nil_prefix, hv, ih (fun us hus => ?_) hf⟩
    exact hdirs (part :: us) (List.cons_prefix_cons.2 ⟨rfl, hus⟩)

/-- If a file has been in the way all along, what the path passes in front of it has been there all along. -/
theorem Straight.isDir {made : Location → Prop} {j : Location} (h : d.Straight p) (hwf : d.WellFormed)
    (hwf₁ : d₁.WellFormed) (hc : Changes made (fun _ => False) d d₁) (hj : d.OnWay p j) (hk : d.OnWay p k)
    (hdir : d₁.node? j = some .dir) (hfile : d₁.node? k = some (.file c)) : d.node? j = some .dir := by
  have hne : j ≠ k := by
    rintro rfl
    rw [hdir] at hfile
    cases hfile
  have hfile' : d.node? k = some (.file c) := by
    rcases hc.node k with hsame | ⟨-, -, hdir⟩ | ⟨hno, -, -⟩
    · rw [← hsame, hfile]
    · rw [hfile] at hdir
      cases hdir
    · exact hno.elim
  rcases h j hj with hj | hj
  · rcases h k hk with hk | hk
    · rcases List.prefix_or_prefix_of_prefix hj hk with ⟨vs, rfl⟩ | ⟨vs, rfl⟩
      · exact hwf.above hfile' (by simpa using hne)
      · rw [hwf₁.above hdir (by simpa using hne)] at hfile
        cases hfile
    · rw [hfile'] at hk
      cases hk
  · exact hj

theorem entry_ne_notFound (l : Location) (part? : Option Bytes) : entry l part? ≠ .error .notFound := by
  intro h
  cases part? with
  | none => cases h
  | some part =>
    rw [entry] at h
    split at h
    · cases h
    · unfold follow at h
      split at h
      · cases h
      · split at h
        · cases h
        · split at h <;> cases h

theorem makeDir_ne_notFound {parts : List Bytes} {parent : Location} (hp : d.parentOf l parts = .ok parent) :
    d.makeDir l parts ≠ .error .notFound := by
  unfold makeDir
  rw [hp]
  intro h
  cases he : entry parent parts.getLast? with
  | error e =>
    simp only [bind, Except.bind, he] at h
    cases h
    exact entry_ne_notFound _ _ he
  | ok k? =>
    simp only [bind, Except.bind, he] at h
    split at h
    · cases h
    · split at h <;> cases h

theorem ensureDir_of_leadsToDir {parts : List Bytes} {parent : Location} (hp : d.parentOf l parts = .ok parent)
    (h : d.leadsToDir l parts = true) : d.ensureDir l parts = .ok d := by
  unfold ensureDir
  split
  · rename_i e he
    obtain ⟨k, hk, hnone, -⟩ := makeDir_eq_ok.1 he
    obtain ⟨-, hdir⟩ := leadsToDir_iff.1 h
    rw [← followAll_eq_ok hk.followAll, hnone] at hdir
    cases hdir
  · rename_i e he
    exact if_pos ⟨fun hne => makeDir_ne_notFound hp (hne ▸ he), h⟩

theorem ensureDir_ne_notFound {parts : List Bytes} {parent : Location} (hp : d.parentOf l parts = .ok parent) :
    d.ensureDir l parts ≠ .error .notFound := by
  unfold ensureDir
  intro h
  split at h
  · cases h
  · rename_i e he
    split at h
    · cases h
    · cases h
      exact makeDir_ne_notFound hp he

theorem leadsToDir_concat {part : Bytes} (hwf : d.WellFormed) (hn : ¬IsName part) (h : d.leadsToDir l us = true) :
    d.leadsToDir l (us ++ [part]) = true := by
  obtain ⟨hus, hdir⟩ := leadsToDir_iff.1 h
  rw [leadsToDir_iff, locateFrom_append, locateFrom_cons]
  refine ⟨followAll_append_eq_ok.2 ⟨hus, followAll_cons_eq_ok.2 ⟨hdir, follow_of_not_isName hn _, rfl⟩⟩, ?_⟩
  exact hwf.turn hn hdir

/-- What cannot be made once all above it has been made has a name that is too long. -/
theorem ensureDir_retry {part : Bytes} (hwf : d.WellFormed) (hstraight : d.Straight p)
    (hmade : MakesDirs (Leading p) (d.start p) d d₁) (hlead : ∀ vs, vs <+: us ++ [part] → Leading p vs)
    (hfirst : d.ensureDir (d.start p) (us ++ [part]) = .error .notFound)
    (habove : d₁.leadsToDir (d.start p) us = true) (h : d₁.ensureDir (d.start p) (us ++ [part]) = .error f) :
    f = .nameTooLong := by
  have hwf₁ := hmade.wellFormed (fun _ h => h.1) hwf
  obtain ⟨hus, hdir⟩ := leadsToDir_iff.1 habove
  have hp₁ : d₁.parentOf (d.start p) (us ++ [part]) = .ok (locateFrom (d.start p) us) :=
    parentOf_eq_ok.2 ⟨by rwa [List.dropLast_concat], hdir⟩
  by_cases hn : IsName part
  · rcases ensureDir_concat_eq_error hp₁ hn h with ⟨-, rfl⟩ | ⟨-, -, c, hfile⟩
    · rfl
    · -- the file was there before, and so was all on the way to it
      have hfile_onWay : d.OnWay p (locateFrom (d.start p) us ++ [part]) := by
        have := (hlead _ List.prefix_rfl).onWay (d := d)
        rwa [locateFrom_append, locateFrom_cons, turn_of_isName hn] at this
      have hdirs : ∀ vs, vs <+: us → d.node? (locateFrom (d.start p) vs) = some .dir := by
        intro vs hvs
        have hpassed : d₁.node? (locateFrom (d.start p) vs) = some .dir := by
          obtain ⟨ws, rfl⟩ := hvs
          cases ws with
          | nil => rwa [List.append_nil] at hdir
          | cons w ws => exact node?_of_followAll hus
        exact hstraight.isDir hwf hwf₁ hmade.changes (hlead vs (hvs.trans (List.prefix_append _ _))).onWay hfile_onWay
          hpassed hfile
      have hp : d.parentOf (d.start p) (us ++ [part]) = .ok (locateFrom (d.start p) us) :=
        parentOf_eq_ok.2 ⟨by rw [List.dropLast_concat]; exact followAll_of_dirs hdirs hus, hdirs us List.prefix_rfl⟩
      exact absurd hfirst (ensureDir_ne_notFound hp)
  · rw [ensureDir_of_leadsToDir hp₁ (leadsToDir_concat hwf₁ hn habove)] at h
    cases h

theorem ensureDirs_eq_ok {parts : List Bytes} (h : d.ensureDirs l parts = (d', .ok ())) :
    parts = [] ∧ d' = d ∨ d'.leadsToDir l parts.reverse = true := by
  cases parts with
  | nil =>
    cases h
    exact .inl ⟨rfl, rfl⟩
  | cons part above =>
    have hlast {e : Disk} (h : e.after (e.ensureDir l (part :: above).reverse) = (d', .ok ())) :
        d'.leadsToDir l (part :: above).reverse = true :=
      (ensureDir_eq_ok (P := fun _ => True) (after_eq_ok.1 h) trivial).2
    rw [ensureDirs] at h
    split at h
    · split at h
      · exact .inr (hlast h)
      · rename_i hne
        exact (hne _ h).elim
    · exact .inr (hlast h)

theorem ensureDirs_eq_error {parts : List Bytes} (hwf : d.WellFormed) (hstraight : d.Straight p)
    (hlead : ∀ vs, vs <+: parts.reverse → Leading p vs) (h : d.ensureDirs (d.start p) parts = (d', .error f)) :
    d' = d ∨ f = .nameTooLong := by
  induction parts with
  | nil => cases h
  | cons part above ih =>
    have habove : ∀ vs, vs <+: above.reverse → Leading p vs := fun vs hvs =>
      hlead vs (by rw [List.reverse_cons]; exact hvs.trans (List.prefix_append _ _))
    rw [ensureDirs] at h
    split at h
    · rename_i hfirst
      split at h
      · rename_i d₁ hd₁
        obtain ⟨hretry, rfl⟩ := after_eq_error.1 h
        rcases ensureDirs_eq_ok hd₁ with ⟨rfl, rfl⟩ | hleads
        · exact .inl rfl
        · have hmade := ensureDirs_makesDirs d (d.start p) habove
          rw [hd₁] at hmade
          rw [List.reverse_cons] at hlead hfirst hretry
          exact .inr (ensureDir_retry hwf hstraight hmade hlead hfirst hleads hretry)
      · exact ih habove h
    · exact .inl (after_eq_error.1 h).2

theorem leadsToDir_cons {part : Bytes} {parts : List Bytes} : d.leadsToDir l (part :: parts) = true ↔
    d.node? l = some .dir ∧ follow l part = .ok (turn l part) ∧ d.leadsToDir (turn l part) parts = true := by
  rw [leadsToDir_iff, leadsToDir_iff, followAll_cons_eq_ok, locateFrom_cons, and_assoc, and_assoc]

theorem leadsToDir_filter (parts : List Bytes) :
    d.leadsToDir l (parts.filter fun part => ¬IsBlank part) = d.leadsToDir l parts := by
  induction parts generalizing l with
  | nil => rfl
  | cons part parts ih =>
    by_cases h : IsBlank part
    · rw [List.filter_cons_of_neg (by simp [h]), ih, Bool.eq_iff_iff, leadsToDir_cons, turn_of_isBlank h]
      refine ⟨fun hleads => ⟨?_, if_pos h, hleads⟩, fun hleads => hleads.2.2⟩
      cases parts with
      | nil => exact (leadsToDir_iff.1 hleads).2
      | cons v vs => exact (leadsToDir_cons.1 hleads).1
    · rw [List.filter_cons_of_pos (by simp [h]), Bool.eq_iff_iff, leadsToDir_cons, leadsToDir_cons, ih]

theorem getLast?_partsOf (p : Path) : (partsOf p).getLast? ≠ some [] := by
  unfold partsOf
  rw [List.getLast?_reverse]
  intro h
  have := List.head?_dropWhile_not (· = []) (Bytes.split Byte.slash p).reverse
  rw [h] at this
  simp at this

theorem filter_components_dropLast {part : Bytes} (hparts : partsOf p = us ++ [part]) (hdot : part ≠ [Byte.dot]) :
    (p.components.filterMap partOf).dropLast.filter (fun part => ¬IsBlank part) =
      us.filter fun part => ¬IsBlank part := by
  have hb : ¬IsBlank part := by
    rintro (rfl | rfl)
    · exact getLast?_partsOf p (by rw [hparts, List.getLast?_concat])
    · exact hdot rfl
  have hfront : (p.front.filterMap partOf).filter (fun part => ¬IsBlank part) = [] := by
    rcases front_partOf p with h | h <;> rw [h] <;> rfl
  obtain ⟨k, hk⟩ := split_eq_partsOf p
  have hnil : (List.replicate k ([] : Bytes)).filter (fun part => ¬IsBlank part) = [] :=
    List.filter_eq_nil_iff.2 fun v hv => by simp [List.eq_of_mem_replicate hv, IsBlank]
  rw [filterMap_partOf_components, hk, hparts, List.filter_append, List.filter_append, hnil, List.append_nil,
    List.filter_cons_of_pos (by simp [hb]), List.filter_nil, ← List.append_assoc, List.dropLast_concat,
    List.filter_append, hfront, List.nil_append, List.filter_filter]
  simp

theorem components_dropLast_of_partsOf (h : partsOf p = []) : (p.components.filterMap partOf).dropLast = [] := by
  obtain ⟨k, hk⟩ := split_eq_partsOf p
  have hnil : (Bytes.split Byte.slash p).filter (fun part => ¬IsBlank part) = [] := by
    rw [hk, h, List.nil_append]
    exact List.filter_eq_nil_iff.2 fun v hv => by simp [List.eq_of_mem_replicate hv, IsBlank]
  rw [filterMap_partOf_components, hnil, List.append_nil]
  rcases front_partOf p with hf | hf <;> rw [hf] <;> rfl

/-- A directory that cannot be made with those above it: the disk is as it was, or the name of one that is to be made
is too long. -/
theorem createDirAt_eq_error (hwf : d.WellFormed) (hstraight : d.Straight p)
    (hdot : (partsOf p).getLast? ≠ some [Byte.dot]) (h : d.createDirAt p = (d', .error f)) :
    d' = d ∨ f = .nameTooLong := by
  have hlead : ∀ vs, vs <+: (p.components.filterMap partOf).dropLast → Leading p vs := fun vs hvs =>
    leading_components (hvs.trans (List.dropLast_prefix _))
  unfold createDirAt at h
  split at h
  · rename_i hfirst
    split at h
    · rename_i e he
      have hmade : MakesDirs (Leading p) (d.start p) d
          (d.ensureDirs (d.start p) (p.components.filterMap partOf).dropLast.reverse).1 :=
        ensureDirs_makesDirs d (d.start p) (by rwa [List.reverse_reverse])
      rw [he] at hmade
      rw [start_congr hmade.cwd] at h
      obtain ⟨hretry, rfl⟩ := after_eq_error.1 h
      rcases ensureDirs_eq_ok he with ⟨-, rfl⟩ | habove
      · exact .inl rfl
      · rw [List.reverse_reverse] at habove
        rcases List.eq_nil_or_concat' (partsOf p) with hnil | ⟨us, u, hparts⟩
        · rw [components_dropLast_of_partsOf hnil] at he
          cases he
          exact .inl rfl
        · rw [hparts, List.getLast?_concat, ne_eq, Option.some.injEq] at hdot
          rw [← leadsToDir_filter, filter_components_dropLast hparts hdot, leadsToDir_filter] at habove
          rw [hparts] at hfirst hretry
          exact .inr (ensureDir_retry hwf hstraight hmade (fun vs hvs => leading_partsOf (hparts ▸ hvs)) hfirst habove
            hretry)
    · exact ensureDirs_eq_error hwf hstraight (by rwa [List.reverse_reverse]) h
  · exact .inl (after_eq_error.1 h).2

theorem createDir_eq_error (hwf : d.WellFormed) (hstraight : d.Straight p)
    (hdot : (partsOf p).getLast? ≠ some [Byte.dot]) (h : d.createDir p = (d', .error f)) :
    d' = d ∨ f = .nameTooLong := by
  unfold createDir at h
  split at h
  · cases h
  · split at h
    · exact createDirAt_eq_error hwf hstraight hdot h
    · cases h
      exact .inl rfl

end Disk
end Stencil
