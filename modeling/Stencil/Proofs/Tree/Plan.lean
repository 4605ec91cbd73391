import Stencil.Proofs.Tree.Source
/-!
# Plan — where everything goes and what it comes to

What stands below a source is placed below the destination under what the names that lead to it render to
(`Tree.renderedNames`), and comes to `Tree.renderedNode`; a name that renders to nothing leaves out all that it leads to
(`Tree.Skipped`).  A plan without an error has a step for everything that is not left out, each with a target of its
own (`Tree.planEntries_eq_ok`).
-/
namespace Stencil
namespace Tree

open Stencil.Path (IsEntryName)

variable {scope : Scope} {d : Disk} {source dest : Path} {l names targets : Location} {n n' : Node} {e : Entry}

/-! ## Names and contents -/

def renderedName (scope : Scope) (d : Disk) (l : Location) : Option Bytes := do
  let n ← d.node? l
  let t ← (Template.parse (nameSource (l.getLast?.getD []) n)).toOption
  (t.output scope).toOption

def renderedNames (scope : Scope) (d : Disk) (l : Location) : List Bytes → Option (List Bytes)
  | [] => some []
  | name :: names => do
    let b ← renderedName scope d (l ++ [name])
    let bs ← renderedNames scope d (l ++ [name]) names
    some (b :: bs)

/-- What something with the given name comes to: a template to what it renders to, anything else to itself. -/
def renderedNode (scope : Scope) (name : Bytes) : Node → Option Node
  | .dir => some .dir
  | .file c =>
    match stem? name with
    | some _ => do
      let t ← (Template.parse c).toOption
      let b ← (t.output scope).toOption
      some (.file b)
    | none => some (.file c)

def Skipped (scope : Scope) (d : Disk) (l names : Location) : Prop :=
  ∃ us, us <+: names ∧ us ≠ [] ∧ renderedName scope d (l ++ us) = some []

theorem Skipped.mono {us : Location} (h : Skipped scope d l us) (hus : us <+: names) : Skipped scope d l names := by
  obtain ⟨vs, hvs, hne, hr⟩ := h
  exact ⟨vs, hvs.trans hus, hne, hr⟩

theorem renderedNames_cons {name b : Bytes} {bs : List Bytes} : renderedNames scope d l (name :: names) = some (b :: bs) ↔
    renderedName scope d (l ++ [name]) = some b ∧ renderedNames scope d (l ++ [name]) names = some bs := by
  simp [renderedNames, Option.bind_eq_some_iff]

theorem renderedNames_concat {name : Bytes} : renderedNames scope d l (names ++ [name]) = some targets ↔
    ∃ ts b, targets = ts ++ [b] ∧ renderedNames scope d l names = some ts ∧
      renderedName scope d (l ++ names ++ [name]) = some b := by
  induction names generalizing l targets with
  | nil =>
    simp only [List.nil_append, renderedNames, Option.bind_eq_bind, Option.bind_eq_some_iff, List.append_nil]
    grind
  | cons m names ih =>
    constructor
    · intro h
      cases targets with
      | nil => simp [renderedNames, Option.bind_eq_some_iff] at h
      | cons t targets =>
        obtain ⟨hm, h⟩ := renderedNames_cons.1 h
        obtain ⟨ts, b, rfl, hs, hb⟩ := ih.1 h
        exact ⟨t :: ts, b, rfl, renderedNames_cons.2 ⟨hm, hs⟩, by simpa using hb⟩
    · rintro ⟨ts, b, rfl, hs, hb⟩
      cases ts with
      | nil => simp [renderedNames, Option.bind_eq_some_iff] at hs
      | cons t ts =>
        obtain ⟨hm, hs⟩ := renderedNames_cons.1 hs
        exact renderedNames_cons.2 ⟨hm, ih.2 ⟨ts, b, rfl, hs, by simpa using hb⟩⟩

theorem renderedNames_take (hs : renderedNames scope d l names = some targets) (k : Nat) :
    renderedNames scope d l (names.take k) = some (targets.take k) := by
  induction names generalizing l targets k with
  | nil =>
    cases hs
    simp [renderedNames]
  | cons m names ih =>
    cases targets with
    | nil => simp [renderedNames, Option.bind_eq_some_iff] at hs
    | cons t targets =>
      obtain ⟨hm, hs⟩ := renderedNames_cons.1 hs
      cases k with
      | zero => rfl
      | succ k => exact renderedNames_cons.2 ⟨hm, ih hs k⟩

theorem not_skipped (hs : renderedNames scope d l names = some targets) (ht : ∀ t ∈ targets, t ≠ []) :
    ¬Skipped scope d l names := by
  rintro ⟨us, hus, hne, hr⟩
  have htake := renderedNames_take hs us.length
  rw [← List.prefix_iff_eq_take.1 hus] at htake
  obtain ⟨vs, v, rfl⟩ := (List.eq_nil_or_concat' us).resolve_left hne
  obtain ⟨ts, b, hts, -, hb⟩ := renderedNames_concat.1 htake
  rw [List.append_assoc, hr] at hb
  have hmem : b ∈ targets := List.mem_of_mem_take (hts ▸ List.mem_append_right _ List.mem_cons_self)
  exact ht b hmem (Option.some.inj hb).symm

theorem renderedName_of_describes (hn : d.node? (l ++ names) = some n) (hne : names ≠ [])
    (h : Describes source names n e) {b : Bytes} (hb : e.name.output scope = .ok b) :
    renderedName scope d (l ++ names) = some b := by
  have hlast : (l ++ names).getLast? = names.getLast? := List.getLast?_append_of_ne_nil l hne
  unfold renderedName
  rw [hn, hlast]
  simp [h.name, hb, Except.toOption]

/-! ## Actions -/

/-- What is to be done where something that stands below a source is to come to `n'`. -/
inductive ActionFor (source : Path) (names : Location) : Node → Node → Action → Prop
  | createDir : ActionFor source names .dir .dir .createDir
  | copy {c : Bytes} : ActionFor source names (.file c) (.file c) (.copy (names.foldl Path.join source))
  | write {c b : Bytes} : ActionFor source names (.file c) (.file b) (.write b)

theorem outputAt_eq_ok {path : Path} {t : Template} {b : Bytes} :
    outputAt scope path t = .ok b ↔ t.output scope = .ok b := by
  unfold outputAt
  split <;> simp_all

theorem action_eq_ok (h : Describes source names n e) {a : Action} (ha : action scope e = .ok a) :
    ∃ n', renderedNode scope (names.getLast?.getD []) n = some n' ∧ ActionFor source names n n' a := by
  have hbody := h.body
  unfold action at ha
  cases n with
  | dir =>
    rw [← Except.ok.inj hbody] at ha
    cases ha
    exact ⟨.dir, rfl, .createDir⟩
  | file c =>
    unfold bodyOf at hbody
    unfold renderedNode
    dsimp only at hbody ⊢
    cases hstem : stem? (names.getLast?.getD []) with
    | none =>
      rw [hstem] at hbody
      rw [← Except.ok.inj hbody] at ha
      cases ha
      rw [h.source_eq]
      exact ⟨.file c, rfl, .copy⟩
    | some stem =>
      rw [hstem] at hbody
      obtain ⟨t, ht, hrendered⟩ := map_eq_ok.1 hbody
      rw [← hrendered] at ha
      obtain ⟨b, hb, rfl⟩ := map_eq_ok.1 ha
      rw [outputAt_eq_ok] at hb
      exact ⟨.file b, by simp [ht, hb, Except.toOption], .write⟩

theorem outputAt_eq_error {path : Path} {t : Template} {err : CommandError} (h : outputAt scope path t = .error err) :
    ∃ r, err = .render path r := by
  unfold outputAt at h
  split at h
  · cases h
  · cases h
    exact ⟨_, rfl⟩

theorem action_eq_error {err : CommandError} (h : action scope e = .error err) : ∃ r, err = .render e.source r := by
  unfold action at h
  split at h
  · cases h
  · cases h
  · rename_i t hbody
    cases hout : outputAt scope e.source t with
    | ok b =>
      rw [hout] at h
      cases h
    | error err' =>
      rw [hout] at h
      cases h
      exact outputAt_eq_error hout

/-- What a name may render to: one component of a path, on every system. -/
structure IsTargetName (name : Bytes) : Prop extends IsEntryName name where
  noBackslash : Byte.backslash ∉ name

theorem isTargetName_of_isFileName {name : Bytes} (hne : name ≠ []) (h : isFileName name = true) : IsTargetName name := by
  rw [isFileName, Bool.not_eq_true', Bool.or_eq_false_iff, Bool.or_eq_false_iff, Bool.or_eq_false_iff] at h
  obtain ⟨⟨⟨hdot, hdots⟩, hslash⟩, hbackslash⟩ := h
  exact ⟨⟨⟨hne, by simpa using hdot, by simpa using hdots⟩, by simpa using hslash⟩, by simpa using hbackslash⟩

/-! ## Planning -/

/-- What planning one more entry comes to: it is left out with the directory it is in, or because its name renders to
nothing, or it is placed under its rendered name, where nothing has been placed yet. -/
theorem planEntry_eq_ok {p p' : Planning} {step? : Option (Path × Action)} (h : planEntry scope p e = .ok (p', step?)) :
    (p' = p.skip e ∧ step? = none ∧ (p.placed.find? e.source.components.dropLast = some none ∨
      (∃ parent, p.placed.find? e.source.components.dropLast = some (some parent)) ∧ e.name.output scope = .ok [])) ∨
    ∃ parent name a, p.placed.find? e.source.components.dropLast = some (some parent) ∧
      e.name.output scope = .ok name ∧ IsTargetName name ∧ p.owners.find? (parent.join name).components = none ∧
      action scope e = .ok a ∧ p' = p.place e (parent.join name) ∧ step? = some (parent.join name, a) := by
  unfold planEntry at h
  split at h
  · cases h
  · rename_i hparent
    cases h
    exact .inl ⟨rfl, rfl, .inl hparent⟩
  · rename_i parent hparent
    obtain ⟨name, hname, h⟩ := bind_eq_ok.1 h
    rw [outputAt_eq_ok] at hname
    split at h
    · rename_i hempty
      cases h
      rw [List.isEmpty_iff.1 hempty] at hname
      exact .inl ⟨rfl, rfl, .inr ⟨⟨parent, hparent⟩, hname⟩⟩
    · rename_i hempty
      split at h
      · cases h
      · split at h
        · cases h
        · rename_i hfile
          dsimp only at h
          split at h
          · cases h
          · rename_i howner
            obtain ⟨a, ha, h⟩ := bind_eq_ok.1 h
            cases h
            have hname' : IsTargetName name := isTargetName_of_isFileName (by simpa using hempty) (by simpa using hfile)
            exact .inr ⟨parent, name, a, hparent, hname, hname', howner, ha, rfl, rfl⟩

/-- Why an entry cannot be planned: the directory it is in is not known, a template of it cannot be rendered, or what its
name renders to cannot be a name or is that of another target. -/
theorem planEntry_eq_error {p : Planning} {err : CommandError} (h : planEntry scope p e = .error err) :
    (err = .unvisitedParent e.source ∧ p.placed.find? e.source.components.dropLast = none) ∨
    (∃ r, err = .render e.source r) ∨
    ∃ name, e.name.output scope = .ok name ∧
      ((err = .targetEncoding e.source ∧ Utf8.isValid name = false) ∨
        (err = .targetName e.source name ∧ isFileName name = false) ∨
        ∃ other target, err = .collision other e.source target ∧ p.owners.find? target.components = some other) := by
  unfold planEntry at h
  split at h
  · rename_i hparent
    cases h
    exact .inl ⟨rfl, hparent⟩
  · cases h
  · rename_i parent hparent
    refine .inr ?_
    rcases bind_eq_error.1 h with ho | ⟨name, hname, h⟩
    · exact .inl (outputAt_eq_error ho)
    rw [outputAt_eq_ok] at hname
    split at h
    · cases h
    split at h
    · rename_i hinvalid
      cases h
      exact .inr ⟨name, hname, .inl ⟨rfl, by simpa using hinvalid⟩⟩
    split at h
    · rename_i hfile
      cases h
      exact .inr ⟨name, hname, .inr (.inl ⟨rfl, by simpa using hfile⟩)⟩
    dsimp only at h
    split at h
    · rename_i other howner
      cases h
      exact .inr ⟨name, hname, .inr (.inr ⟨other, _, rfl, howner⟩)⟩
    · rcases bind_eq_error.1 h with ha | ⟨a, -, h⟩
      · exact .inl (action_eq_error ha)
      · cases h

def key (source : Path) (names : Location) : List Component := source.components ++ names.map .name

theorem key_injective (source : Path) {us vs : Location} (h : key source us = key source vs) : us = vs :=
  List.map_injective_iff.2 (fun _ _ h => Component.name.inj h) (List.append_cancel_left h)

theorem key_concat (source : Path) (us : Location) (u : Bytes) : key source (us ++ [u]) = key source us ++ [.name u] := by
  simp [key]

theorem key_dropLast (source : Path) (us : Location) (u : Bytes) : (key source (us ++ [u])).dropLast = key source us := by
  rw [key_concat, List.dropLast_concat]

theorem components_of_describes (hsource : source ≠ []) (hnames : ∀ u ∈ names, IsEntryName u)
    (h : Describes source names n e) : e.source.components = key source names := by
  rw [h.source_eq, Path.components_foldl_join hsource hnames, key]

/-- What is known of the directories that have been planned: each that is placed is placed under the names it renders
to, and each that is left out is left out for a name. -/
structure Consistent (scope : Scope) (d : Disk) (source dest : Path) (p : Planning) : Prop where
  placed : ∀ names path, p.placed.find? (key source names) = some (some path) → ∃ targets,
    renderedNames scope d (d.locate source) names = some targets ∧ (∀ t ∈ targets, IsEntryName t) ∧
      path = targets.foldl Path.join dest
  skipped : ∀ names, p.placed.find? (key source names) = some none → Skipped scope d (d.locate source) names

theorem find?_placed_start {k : List Component} {path? : Option Path} :
    (Planning.start source dest).placed.find? k = some path? ↔ k = source.components ∧ path? = some dest := by
  refine SortedMap.find?_insert_eq_some.trans ⟨fun h => h.resolve_right fun h => ?_, .inl⟩
  cases h.2

theorem consistent_start (scope : Scope) (d : Disk) (source dest : Path) :
    Consistent scope d source dest (.start source dest) := by
  constructor
  · intro names path h
    obtain ⟨hk, hpath⟩ := find?_placed_start.1 h
    obtain rfl : names = [] := by
      have hnil : key source [] = source.components := by simp [key]
      exact key_injective source (hk.trans hnil.symm)
    exact ⟨[], rfl, nofun, Option.some.inj hpath⟩
  · intro names h
    cases (find?_placed_start.1 h).2

theorem Consistent.insert {p p' : Planning} {path? : Option Path} (h : Consistent scope d source dest p)
    (hp' : p'.placed = p.placed.insert (key source names) path?)
    (hsome : ∀ path, path? = some path → ∃ targets, renderedNames scope d (d.locate source) names = some targets ∧
      (∀ t ∈ targets, IsEntryName t) ∧ path = targets.foldl Path.join dest)
    (hnone : path? = none → Skipped scope d (d.locate source) names) : Consistent scope d source dest p' := by
  constructor
  · intro us path hus
    rw [hp'] at hus
    rcases SortedMap.find?_insert_eq_some.1 hus with ⟨hk, hpath⟩ | ⟨-, hus⟩
    · rw [key_injective source hk]
      exact hsome path hpath.symm
    · exact h.placed us path hus
  · intro us hus
    rw [hp'] at hus
    rcases SortedMap.find?_insert_eq_some.1 hus with ⟨hk, hpath⟩ | ⟨-, hus⟩
    · rw [key_injective source hk]
      exact hnone hpath.symm
    · exact h.skipped us hus

theorem placed_place (p : Planning) (e : Entry) (target : Path) : (p.place e target).placed = p.placed ∨
    e.body = .dir ∧ (p.place e target).placed = p.placed.insert e.source.components (some target) := by
  unfold Planning.place
  split
  · exact .inr ⟨‹_›, rfl⟩
  · exact .inl rfl
  · exact .inl rfl

theorem owners_place (p : Planning) (e : Entry) (target : Path) :
    (p.place e target).owners = p.owners.insert target.components e.source := by
  unfold Planning.place
  split <;> rfl

theorem Consistent.place {p : Planning} (h : Consistent scope d source dest p) (hkey : e.source.components =
    key source names) (hr : renderedNames scope d (d.locate source) names = some targets)
    (ht : ∀ t ∈ targets, IsEntryName t) : Consistent scope d source dest (p.place e (targets.foldl Path.join dest)) := by
  rcases placed_place p e (targets.foldl Path.join dest) with hp | ⟨-, hp⟩
  · exact ⟨hp ▸ h.placed, hp ▸ h.skipped⟩
  · rw [hkey] at hp
    refine h.insert hp (fun path hpath => ?_) nofun
    exact ⟨targets, hr, ht, (Option.some.inj hpath).symm⟩

/-- A step of a plan for what stands below a source: where it is placed and what is to be done there. -/
structure StepFor (scope : Scope) (d : Disk) (source dest : Path) (names : Location) (n : Node)
    (step : Path × Action) (targets : Location) (n' : Node) : Prop where
  rendered : renderedNames scope d (d.locate source) names = some targets
  ne_nil : targets ≠ []
  isEntryName : ∀ t ∈ targets, IsEntryName t
  target : step.1 = targets.foldl Path.join dest
  outcome : renderedNode scope (names.getLast?.getD []) n = some n'
  action : ActionFor source names n n' step.2

theorem Consistent.planEntry {p p' : Planning} {step? : Option (Path × Action)} (h : Consistent scope d source dest p)
    (hwf : d.WellFormed) (hsource : source ≠ []) (hne : names ≠ []) (hn : d.node? (d.locate source ++ names) = some n)
    (he : Describes source names n e) (hplan : Tree.planEntry scope p e = .ok (p', step?)) :
    Consistent scope d source dest p' ∧
      ((step? = none ∧ Skipped scope d (d.locate source) names ∧ p'.owners = p.owners) ∨
        ∃ step targets n', step? = some step ∧ StepFor scope d source dest names n step targets n' ∧
          p.owners.find? step.1.components = none ∧ p'.owners = p.owners.insert step.1.components e.source) := by
  have hnames := hwf.names hn
  have hkey := components_of_describes hsource hnames he
  obtain ⟨us, u, rfl⟩ := (List.eq_nil_or_concat' names).resolve_left hne
  rcases planEntry_eq_ok hplan with ⟨rfl, rfl, hskip⟩ | ⟨parent, name, a, hparent, hname, hentry, howner, ha, rfl, rfl⟩
  · have hs : Skipped scope d (d.locate source) (us ++ [u]) := by
      rcases hskip with hskip | ⟨-, hempty⟩
      · rw [hkey, key_dropLast] at hskip
        exact (h.skipped us hskip).mono (List.prefix_append _ _)
      · exact ⟨_, List.prefix_rfl, hne, renderedName_of_describes hn hne he hempty⟩
    have hp' : (p.skip e).placed = p.placed.insert (key source (us ++ [u])) none := by rw [Planning.skip, hkey]
    exact ⟨h.insert hp' nofun fun _ => hs, .inl ⟨rfl, hs, rfl⟩⟩
  · rw [hkey, key_dropLast] at hparent
    obtain ⟨targets, hr, ht, rfl⟩ := h.placed us parent hparent
    obtain ⟨n', hn', hact⟩ := action_eq_ok he ha
    have hrendered : renderedNames scope d (d.locate source) (us ++ [u]) = some (targets ++ [name]) :=
      renderedNames_concat.2 ⟨targets, name, rfl, hr, by
        rw [List.append_assoc]
        exact renderedName_of_describes hn hne he hname⟩
    have htarget : (targets.foldl Path.join dest).join name = (targets ++ [name]).foldl Path.join dest := by
      rw [List.foldl_append]
      rfl
    have hproper : ∀ t ∈ targets ++ [name], IsEntryName t := by
      intro t hm
      rcases List.mem_append.1 hm with hm | hm
      · exact ht t hm
      · rw [List.mem_singleton.1 hm]
        exact hentry.toIsEntryName
    rw [htarget] at howner ⊢
    refine ⟨h.place hkey hrendered hproper, .inr ⟨_, _, n', rfl, ⟨hrendered, by simp, hproper, rfl, hn', hact⟩, howner, ?_⟩⟩
    exact owners_place _ _ _

theorem planEntries_cons_eq_ok {p : Planning} {es : List Entry} {steps : List (Path × Action)} {summary : Summary}
    (h : planEntries scope p (e :: es) = (steps, .ok summary)) : ∃ p' step? rest,
      planEntry scope p e = .ok (p', step?) ∧ planEntries scope p' es = (rest, .ok summary) ∧
      steps = step?.toList ++ rest := by
  rw [planEntries] at h
  split at h
  · cases h
  · rename_i p' hp
    exact ⟨p', none, steps, hp, h, rfl⟩
  · rename_i p' step hp
    obtain ⟨hsteps, hr⟩ := Prod.mk.inj h
    exact ⟨p', some step, _, hp, Prod.ext rfl hr, hsteps.symm⟩

/-- **A plan without an error**: each step is for something below the source and has a target of its own, and everything
below the source is left out or has a step. -/
theorem planEntries_eq_ok {p : Planning} {es : List Entry} {steps : List (Path × Action)} {summary : Summary}
    (hwf : d.WellFormed) (hsource : source ≠ []) (hes : ∀ e ∈ es, ∃ names n, names ≠ [] ∧
      d.node? (d.locate source ++ names) = some n ∧ Describes source names n e)
    (hp : Consistent scope d source dest p) (h : planEntries scope p es = (steps, .ok summary)) :
    (∀ step ∈ steps, p.owners.find? step.1.components = none ∧ ∃ names n targets n',
      d.node? (d.locate source ++ names) = some n ∧ StepFor scope d source dest names n step targets n') ∧
    steps.Pairwise (fun s t => s.1.components ≠ t.1.components) ∧
    ∀ e ∈ es, ∀ names n, names ≠ [] → d.node? (d.locate source ++ names) = some n → Describes source names n e →
      Skipped scope d (d.locate source) names ∨
        ∃ step ∈ steps, ∃ targets n', StepFor scope d source dest names n step targets n' := by
  induction es generalizing p steps with
  | nil =>
    cases h
    exact ⟨nofun, .nil, nofun⟩
  | cons e es ih =>
    obtain ⟨p', step?, rest, hone, hrest, rfl⟩ := planEntries_cons_eq_ok h
    obtain ⟨names, n, hne, hn, he⟩ := hes e List.mem_cons_self
    obtain ⟨hp', hstep⟩ := hp.planEntry hwf hsource hne hn he hone
    obtain ⟨hsteps, hdistinct, hentries⟩ := ih (fun e he => hes e (List.mem_cons_of_mem _ he)) hp' hrest
    have hlater : ∀ e ∈ es, ∀ names n, names ≠ [] → d.node? (d.locate source ++ names) = some n →
        Describes source names n e → Skipped scope d (d.locate source) names ∨
          ∃ step ∈ step?.toList ++ rest, ∃ targets n', StepFor scope d source dest names n step targets n' := by
      intro e he names n hne hn hd
      refine (hentries e he names n hne hn hd).imp_right ?_
      rintro ⟨step, hm, hfor⟩
      exact ⟨step, List.mem_append_right _ hm, hfor⟩
    refine ⟨?_, ?_, fun f hf => ?_⟩
    · rcases hstep with ⟨rfl, -, howners⟩ | ⟨step, targets, n', rfl, hfor, hfree, howners⟩
      · rw [howners] at hsteps
        exact hsteps
      · intro t ht
        rcases List.mem_cons.1 ht with rfl | ht
        · exact ⟨hfree, names, n, targets, n', hn, hfor⟩
        · obtain ⟨hfree', hfor'⟩ := hsteps t ht
          rw [howners] at hfree'
          exact ⟨(SortedMap.find?_insert_eq_none.1 hfree').2, hfor'⟩
    · rcases hstep with ⟨rfl, -, -⟩ | ⟨step, targets, n', rfl, hfor, hfree, howners⟩
      · exact hdistinct
      · refine List.pairwise_cons.2 ⟨fun t ht hc => ?_, hdistinct⟩
        have hfree' := (hsteps t ht).1
        rw [howners] at hfree'
        exact (SortedMap.find?_insert_eq_none.1 hfree').1 hc.symm
    · rcases List.mem_cons.1 hf with rfl | hf
      · intro names' n₂ hne' hn₂ hd
        rcases (hp.planEntry hwf hsource hne' hn₂ hd hone).2 with ⟨-, hs, -⟩ | ⟨step, targets, n', rfl, hfor, -⟩
        · exact .inl hs
        · exact .inr ⟨step, List.mem_cons_self, targets, n', hfor⟩
      · exact hlater f hf

/-- Each target stands in a known directory or in one that an earlier step makes. -/
def ParentsFirst : List Path → List (Path × Action) → Prop
  | _, [] => True
  | known, step :: steps => (∃ parent ∈ known, ∃ name, IsEntryName name ∧ step.1 = parent.join name) ∧
    ParentsFirst (if step.2 = .createDir then step.1 :: known else known) steps

theorem planEntries_parentsFirst {p : Planning} {es : List Entry} {steps : List (Path × Action)} {summary : Summary}
    {known : List Path} (hknown : ∀ key path, p.placed.find? key = some (some path) → path ∈ known)
    (h : planEntries scope p es = (steps, .ok summary)) : ParentsFirst known steps := by
  induction es generalizing p steps known with
  | nil =>
    cases h
    trivial
  | cons e es ih =>
    obtain ⟨p', step?, rest, hone, hrest, rfl⟩ := planEntries_cons_eq_ok h
    rcases planEntry_eq_ok hone with ⟨rfl, rfl, -⟩ | ⟨parent, name, a, hparent, -, hname, -, ha, rfl, rfl⟩
    · refine ih (fun key path hpath => hknown key path ?_) hrest
      rcases SortedMap.find?_insert_eq_some.1 hpath with ⟨-, hpath⟩ | ⟨-, hpath⟩
      · cases hpath
      · exact hpath
    · refine ⟨⟨parent, hknown _ _ hparent, name, hname.toIsEntryName, rfl⟩, ih (fun key path hpath => ?_) hrest⟩
      rcases placed_place p e (parent.join name) with hp | ⟨hdir, hp⟩ <;> rw [hp] at hpath
      · split
        · exact List.mem_cons_of_mem _ (hknown key path hpath)
        · exact hknown key path hpath
      · obtain rfl : a = .createDir := by
          unfold action at ha
          rw [hdir] at ha
          exact (Except.ok.inj ha).symm
        rw [if_pos rfl]
        rcases SortedMap.find?_insert_eq_some.1 hpath with ⟨-, hpath⟩ | ⟨-, hpath⟩
        · cases hpath
          exact List.mem_cons_self
        · exact List.mem_cons_of_mem _ (hknown key path hpath)

end Tree
end Stencil
