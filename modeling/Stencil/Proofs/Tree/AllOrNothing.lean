import Stencil.Proofs.Disk.Failures
import Stencil.Proofs.Tree.Effect
/-!
# AllOrNothing — what rendering a tree leaves when it fails

Without force nothing is written where something stands, and each target has a place of its own, so what has been done
before a step takes away nothing and is not in the way of the step (`Tree.Adds`).  A step can fail then because
something is wrong with a name, or because a file stands where a directory is to be made: that is not looked for before
the first step, and what was done until then stays (`Tree.run_all_or_nothing`, `Tree.run_leaves_copy`).
-/
namespace Stencil
namespace Tree

open Stencil.Path (IsEntryName)
open Command.Run (on)
open Disk (Changes Fits)

variable {scope : Scope} {d d' e : Disk} {source dest parent target : Path} {l names targets : Location} {n n' : Node}
variable {name : Bytes} {f : IoFailure} {done : List Location} {known : List Path}
variable {w w' : World} {step : Path × Action} {steps : List (Path × Action)}

/-! ## What has been added -/

/-- What the disk `d` has become: everything is still there, new directories are on the way to the destination, all
else that is new is in a place where something has been done, and the known directories are there. -/
structure Adds (dest : Path) (d : Disk) (done : List Location) (known : List Path) (d' : Disk) : Prop where
  cwd : d'.cwd = d.cwd
  stays : ∀ l n, d.node? l = some n → d'.node? l = some n
  added : ∀ l, d'.node? l = d.node? l ∨ d.node? l = none ∧ (l <+: d.locate dest ∨ l ∈ done)
  isDir : ∀ p ∈ known, d'.look p = .ok .dir

theorem Adds.locate (h : Adds dest d done known d') (p : Path) : d'.locate p = d.locate p := Disk.locate_congr h.cwd p

theorem Adds.changes {made written : Location → Prop} (h : Adds dest d done known d') (hc : Changes made written d' e)
    (hmade : ∀ k, made k → d'.node? k = none → k = l) (hwritten : ∀ k, written k → k = l ∧ d'.node? l = none) :
    Adds dest d (l :: done) known e := by
  have hw : ∀ k n, d'.node? k = some n → ¬written k := by
    intro k n hk hwk
    obtain ⟨rfl, hnone⟩ := hwritten k hwk
    rw [hk] at hnone
    cases hnone
  refine ⟨hc.cwd.trans h.cwd, fun k n hk => hc.stays (h.stays k n hk) (hw k n (h.stays k n hk)), fun k => ?_,
    fun p hp => hc.look (h.isDir p hp) (hw _ _ (Disk.look_eq_ok.1 (h.isDir p hp)).2)⟩
  have hnew : d'.node? k = none → k = l → d.node? k = none ∧ (k <+: d.locate dest ∨ k ∈ l :: done) := by
    rintro hk rfl
    refine ⟨?_, .inr List.mem_cons_self⟩
    cases hd : d.node? k with
    | none => rfl
    | some n => rw [h.stays k n hd] at hk; cases hk
  rcases hc.node k with hsame | ⟨hm, hnone, -⟩ | ⟨hwk, -, -⟩
  · rw [hsame]
    exact (h.added k).imp_right (And.imp_right (Or.imp_right (List.mem_cons_of_mem l)))
  · exact .inr (hnew hnone (hmade k hm hnone))
  · obtain ⟨rfl, hnone⟩ := hwritten k hwk
    exact .inr (hnew hnone rfl)

/-! ## Targets -/

/-- What is known of a target: it stands in a known directory, below the destination, and nothing has been done
there. -/
structure Target (dest : Path) (d : Disk) (done : List Location) (known : List Path) (parent target : Path)
    (name : Bytes) : Prop where
  mem : parent ∈ known
  isEntryName : IsEntryName name
  eq : target = parent.join name
  straight : d.Straight target
  below : ¬d.locate target <+: d.locate dest
  notDone : d.locate target ∉ done

theorem Target.node? (ht : Target dest d done known parent target name) (h : Adds dest d done known d') :
    d'.node? (d.locate target) = d.node? (d.locate target) := by
  rcases h.added (d.locate target) with hsame | ⟨-, hway | hdone⟩
  · exact hsame
  · exact absurd hway ht.below
  · exact absurd hdone ht.notDone

theorem Target.look (ht : Target dest d done known parent target name) (h : Adds dest d done known d')
    (hwf : d.WellFormed) (hfits : Fits target name) (hn : d.node? (d.locate target) = some n) :
    d.look target = .ok n := by
  have hparent := h.isDir parent ht.mem
  obtain ⟨us, he⟩ := Disk.entryOf hparent ht.isEntryName
  have hsplit := he.split
  have hlocate := he.locate
  have hus := he.parent
  rw [← he.start] at hus
  rw [← ht.eq] at hsplit hlocate hus
  rw [Disk.start_congr h.cwd] at hus
  rw [h.locate, h.locate] at hlocate
  -- all that the path passes has been there from the start
  have hdirs : ∀ vs, vs <+: us → d.node? (Disk.locateFrom (d.start target) vs) = some .dir := by
    intro vs hvs
    have hway : d.OnWay target (Disk.locateFrom (d.start target) vs) :=
      ⟨vs, by rw [hsplit]; exact hvs.trans (List.prefix_append _ _), rfl⟩
    have hpassed : d'.node? (Disk.locateFrom (d.start target) vs) = some .dir := by
      obtain ⟨ws, rfl⟩ := hvs
      cases ws with
      | nil =>
        rw [List.append_nil] at hus
        rw [← Disk.followAll_eq_ok hus]
        exact (Disk.look_eq_ok.1 hparent).2
      | cons w ws => exact Disk.node?_of_followAll hus
    rcases ht.straight _ hway with ⟨ws, hws⟩ | hdir
    · rw [← hws] at hn
      by_cases hnil : ws = []
      · rw [hnil, List.append_nil] at hws
        rw [hws, ht.node? h] at hpassed
        rw [hws, hpassed]
      · exact hwf.above hn hnil
    · exact hdir
  have hfollow := Disk.followAll_of_dirs hdirs hus
  have hl := Disk.followAll_eq_ok hfollow
  have hentry : Disk.LeadsToEntry d (d.start target) (us ++ [name]) (Disk.locateFrom (d.start target) us ++ [name]) :=
    .intro (hl ▸ hfollow) (hdirs us List.prefix_rfl) ht.isEntryName.toIsName hfits.2
  refine Disk.look_eq_ok.2 ⟨Disk.resolve_eq_ok.2 ⟨hfits.1, ?_⟩, hn⟩
  rw [hsplit, hlocate, ← h.locate, hl]
  exact hentry.followAll

theorem Target.free (ht : Target dest d done known parent target name) (h : Adds dest d done known d')
    (hwf : d.WellFormed) (hfits : Fits target name) (hexists : d.pathExists target = false) :
    d'.node? (d.locate target) = none := by
  rw [ht.node? h]
  cases hn : d.node? (d.locate target) with
  | none => rfl
  | some n =>
    rw [Disk.pathExists, ht.look h hwf hfits hn] at hexists
    cases hexists

/-! ## Steps -/

theorem Adds.performed (h : Adds dest d done known d') (hwf : d.WellFormed)
    (ht : Target dest d done known parent step.1 name)
    (hexists : step.2 ≠ .createDir → d.pathExists step.1 = false) (hp : effect d' step = (e, .ok ())) :
    Adds dest d (d.locate step.1 :: done) (if step.2 = .createDir then step.1 :: known else known) e := by
  obtain ⟨target, a⟩ := step
  dsimp only at ht hexists hp ⊢
  have hparent := h.isDir parent ht.mem
  have hne := Disk.ne_nil_of_checkPath (Disk.checkPath_of_look hparent)
  have htarget : target ≠ [] := ht.eq ▸ Path.join_ne_nil hne
  have hfree {e₁ : Disk} {b : Bytes} (hw : d'.writeFile target b = .ok e₁) (ha : a ≠ .createDir) :
      d'.node? (d.locate target) = none := by
    refine ht.free h hwf ?_ (hexists ha)
    rw [ht.eq] at hw ⊢
    exact Disk.fits_of_writeFile hparent ht.isEntryName hw
  cases a with
  | createDir =>
    have hlook := Disk.look_of_createDir htarget (congrArg Prod.snd hp)
    have hchanges := Disk.changes_createDir d' target
    rw [show (d'.createDir target).1 = e from congrArg Prod.fst hp] at hlook hchanges
    have hadds := h.changes (l := d.locate target) hchanges (fun k hk hnone => ?_) nofun
    · rw [if_pos rfl]
      exact ⟨hadds.cwd, hadds.stays, hadds.added, List.forall_mem_cons.2 ⟨hlook, hadds.isDir⟩⟩
    · rw [ht.eq] at hk
      rcases Disk.onWay_join hne ht.isEntryName hk with hk | hk
      · rw [Disk.node?_of_onWay hparent hk] at hnone
        cases hnone
      · rw [hk, ← ht.eq, h.locate]
  | write b =>
    rw [if_neg nofun]
    have hwrite := Disk.after_eq_ok.1 hp
    refine h.changes (Disk.changes_writeFile hwrite) nofun fun k hk => ?_
    rw [hk, h.locate]
    exact ⟨rfl, hfree hwrite nofun⟩
  | copy from_ =>
    obtain ⟨-, e₁, c, hempty, -, hwrite⟩ := Disk.copyFile_eq_ok.1 (Disk.after_eq_ok.1 hp)
    have h₁ := Disk.changes_writeFile hempty
    have h₂ := Disk.changes_writeFile hwrite
    rw [Disk.locate_congr h₁.cwd] at h₂
    rw [if_neg nofun]
    refine h.changes (h₁.trans h₂) nofun fun k hk => ?_
    rw [hk, h.locate]
    exact ⟨rfl, hfree hempty nofun⟩

theorem perform_eq_error {err : CommandError} (h : on (perform step) w = (.error err, w')) :
    ∃ f, err = .write step.1 f ∧ effect w.disk step = (w'.disk, .error f) := by
  rw [on_perform, Prod.mk.injEq, mapError_eq_error] at h
  obtain ⟨⟨f, hf, rfl⟩, rfl⟩ := h
  exact ⟨f, rfl, Prod.ext rfl hf⟩

theorem performAll_cons_eq_error {err : CommandError} (h : on (performAll (step :: steps)) w = (.error err, w')) :
    on (perform step) w = (.error err, w') ∨
      ∃ v, on (perform step) w = (.ok (), v) ∧ on (performAll steps) v = (.error err, w') := by
  rw [performAll, Command.Run.on_bind] at h
  rcases hone : on (perform step) w with ⟨e | _, v⟩ <;> rw [hone] at h
  · exact .inl h
  · exact .inr ⟨v, rfl, h⟩

theorem Target.isNaming_of_writeFile (ht : Target dest d done known parent target name)
    (h : Adds dest d done known d') (hwf : d.WellFormed) (hexists : d.pathExists target = false) {b : Bytes}
    (hw : d'.writeFile target b = .error f) : f.IsNaming := by
  have hparent := h.isDir parent ht.mem
  by_cases hfits : Fits target name
  · have hfree := ht.free h hwf hfits hexists
    rw [ht.eq] at hw hfits hfree
    rw [Disk.writeFile_join hparent ht.isEntryName hfits (by rw [h.locate, hfree]; nofun)] at hw
    cases hw
  · rw [ht.eq] at hw hfits
    exact Disk.writeFile_join_of_not_fits hparent ht.isEntryName hfits hw

/-- Once the target of a copy has been emptied nothing can go wrong. -/
theorem Target.copy_succeeds (ht : Target dest d done known parent target name) (h : Adds dest d done known d')
    (hwf : d.WellFormed) (hexists : d.pathExists target = false) {p : Path} {c : Bytes}
    (hlook : d'.look p = .ok (.file c)) (hempty : d'.writeFile target [] = .ok e)
    (hf : e.readFile p = .error f ∨ ∃ b, e.readFile p = .ok b ∧ e.writeFile target b = .error f) : False := by
  have hparent := h.isDir parent ht.mem
  have hempty' := hempty
  rw [ht.eq] at hempty'
  have hfits := Disk.fits_of_writeFile hparent ht.isEntryName hempty'
  have hnone := ht.free h hwf (ht.eq ▸ hfits) hexists
  have hchanges := Disk.changes_writeFile hempty
  rw [h.locate] at hchanges
  have hkeeps {p : Path} {n : Node} (hp : d'.look p = .ok n) : e.look p = .ok n := by
    refine hchanges.look hp fun hl => ?_
    rw [← hl, (Disk.look_eq_ok.1 hp).2] at hnone
    cases hnone
  rcases hf with hf | ⟨b, -, hf⟩
  · rw [Disk.readFile_eq_ok.2 (hkeeps hlook)] at hf
    cases hf
  · have hnode := (Disk.look_eq_ok.1 (Disk.look_of_writeFile hempty)).2
    rw [ht.eq] at hf hnode
    rw [Disk.writeFile_join (hkeeps hparent) ht.isEntryName hfits (by rw [hnode]; nofun)] at hf
    cases hf

theorem Adds.dirsStay (h : Adds dest d done known d') : Disk.DirsStay d d' := ⟨h.cwd, fun l hl => h.stays l _ hl⟩

theorem Adds.look_source (h : Adds dest d done known d') (hwf : d.WellFormed) (hsource : d.look source = .ok .dir)
    (hn : d.node? (d.locate source ++ names) = some n) :
    d'.look (names.foldl Path.join source) = .ok n ∨
      ∃ f, f.IsNaming ∧ d'.look (names.foldl Path.join source) = .error f := by
  have hsource' := h.dirsStay.look hsource (h.stays _ _ (Disk.look_eq_ok.1 hsource).2)
  refine Disk.look_below hsource' (hwf.names hn) (fun us v vs hvs => ?_) ?_
  · rw [hvs, ← List.append_assoc] at hn
    rw [h.locate]
    exact h.stays _ _ (hwf.above hn (List.cons_ne_nil v vs))
  · rw [h.locate]
    exact h.stays _ _ hn

theorem Target.isNaming_of_copyFile (ht : Target dest d done known parent target name)
    (h : Adds dest d done known d') (hwf : d.WellFormed) (hexists : d.pathExists target = false)
    (hsource : d.look source = .ok .dir) {c : Bytes} (hn : d.node? (d.locate source ++ names) = some (.file c))
    (hf : d'.copyFile (names.foldl Path.join source) target = .error f) : f.IsNaming := by
  have hsees := h.look_source hwf hsource hn
  rcases Disk.copyFile_eq_error hf with hf | ⟨n, hlook, hf⟩
  · rcases hsees with hlook | ⟨f', hnaming, hlook⟩ <;> rw [hf] at hlook <;> cases hlook
    exact hnaming
  · obtain rfl : n = .file c := by
      rcases hsees with hlook' | ⟨f', -, hlook'⟩ <;> rw [hlook] at hlook' <;> cases hlook'
      rfl
    rcases hf with hf | hf | ⟨e₁, hempty, hf⟩
    · cases hf
    · exact ht.isNaming_of_writeFile h hwf hexists hf
    · exact (ht.copy_succeeds h hwf hexists hlook hempty hf).elim

/-- **Why a step fails**: something is wrong with a name, or a file stands where a directory is to be made. -/
theorem Adds.failed (h : Adds dest d done known d') (hwf : d.WellFormed) (hsource : d.look source = .ok .dir)
    (ht : Target dest d done known parent step.1 name)
    (hexists : step.2 ≠ .createDir → d.pathExists step.1 = false)
    (hn : d.node? (d.locate source ++ names) = some n) (hact : ActionFor source names n n' step.2)
    (hf : effect d' step = (e, .error f)) :
    f.IsNaming ∨ f = .exists ∧ step.2 = .createDir ∧ ∃ c, d.node? (d.locate step.1) = some (.file c) := by
  obtain ⟨target, a⟩ := step
  dsimp only at ht hexists hact hf ⊢
  cases hact with
  | createDir =>
    rw [effect, ht.eq] at hf
    rcases Disk.createDir_join_eq_error (h.isDir parent ht.mem) ht.isEntryName hf with hnaming | ⟨hexist, -, c, hc⟩
    · exact .inl hnaming
    · rw [← ht.eq, h.locate, ht.node? h] at hc
      exact .inr ⟨hexist, rfl, c, hc⟩
  | write =>
    have hfree := hexists Action.noConfusion
    exact .inl (ht.isNaming_of_writeFile h hwf hfree (Disk.after_eq_error.1 hf).1)
  | copy =>
    have hfree := hexists Action.noConfusion
    exact .inl (ht.isNaming_of_copyFile h hwf hfree hsource hn (Disk.after_eq_error.1 hf).1)

/-! ## Runs -/

theorem StepFor.straight (hdest : dest ≠ []) (hstraight : d.Straight dest)
    (hfor : StepFor scope d source dest names n step targets n') : d.Straight step.1 := by
  intro l hl
  rw [hfor.locate hdest]
  rw [hfor.target] at hl
  rcases Disk.onWay_foldl_join hdest hfor.isEntryName hl with hl | ⟨us, hus, rfl⟩
  · exact (hstraight l hl).imp_left fun h => h.trans (List.prefix_append _ _)
  · exact .inl ((List.prefix_append_right_inj _).2 hus)

theorem StepFor.toTarget (hdest : dest ≠ []) (hstraight : d.Straight dest)
    (hfor : StepFor scope d source dest names n step targets n') (hmem : parent ∈ known) (hname : IsEntryName name)
    (heq : step.1 = parent.join name) (hdone : d.locate step.1 ∉ done) :
    Target dest d done known parent step.1 name := by
  refine ⟨hmem, hname, heq, hfor.straight hdest hstraight, ?_, hdone⟩
  rw [hfor.locate hdest]
  intro hprefix
  have hlength := hprefix.length_le
  have hpositive := List.length_pos_iff.2 hfor.ne_nil
  rw [List.length_append] at hlength
  omega

/-- **Why the steps of a plan fail**, when nothing stands where a file is to be written. -/
theorem performAll_failed {err : CommandError} (hwf : d.WellFormed) (hsource : d.look source = .ok .dir)
    (hdest : dest ≠ []) (hstraight : d.Straight dest) (h : Adds dest d done known w.disk)
    (hparents : ParentsFirst known steps) (hfor : ∀ step ∈ steps, ∃ names n targets n', d.node? (d.locate source ++ names) = some n ∧
      StepFor scope d source dest names n step targets n')
    (hdistinct : steps.Pairwise fun s t => d.locate s.1 ≠ d.locate t.1)
    (hdone : ∀ step ∈ steps, d.locate step.1 ∉ done)
    (hexists : ∀ step ∈ steps, step.2 ≠ .createDir → d.pathExists step.1 = false)
    (hf : on (performAll steps) w = (.error err, w')) :
    ∃ step ∈ steps, ∃ f, err = .write step.1 f ∧ (f.IsNaming ∨
      f = .exists ∧ step.2 = .createDir ∧ ∃ c, d.node? (d.locate step.1) = some (.file c)) := by
  induction steps generalizing w done known with
  | nil => cases hf
  | cons step steps ih =>
    obtain ⟨⟨parent, hmem, name, hname, heq⟩, hparents⟩ := hparents
    obtain ⟨names, n, targets, n', hn, hstep⟩ := hfor step List.mem_cons_self
    have ht := hstep.toTarget hdest hstraight hmem hname heq (hdone step List.mem_cons_self)
    have hexists₁ := hexists step List.mem_cons_self
    rcases performAll_cons_eq_error hf with hone | ⟨v, hone, hrest⟩
    · obtain ⟨f, rfl, hfailed⟩ := perform_eq_error hone
      exact ⟨step, List.mem_cons_self, f, rfl, h.failed hwf hsource ht hexists₁ hn hstep.action hfailed⟩
    · have hadds := h.performed hwf ht hexists₁ (perform_eq_ok hone)
      obtain ⟨hne, hdistinct⟩ := List.pairwise_cons.1 hdistinct
      obtain ⟨s, hs, hresult⟩ := ih hadds hparents (fun s hs => hfor s (List.mem_cons_of_mem _ hs)) hdistinct
        (fun s hs => List.not_mem_cons_of_ne_of_not_mem (hne s hs).symm (hdone s (List.mem_cons_of_mem _ hs)))
        (fun s hs => hexists s (List.mem_cons_of_mem _ hs)) hrest
      exact ⟨s, List.mem_cons_of_mem _ hs, hresult⟩

theorem pathExists_of_checkTargets (h : on (checkTargets false steps) w = (.ok (), w')) :
    ∀ step ∈ steps, step.2 ≠ .createDir → w.disk.pathExists step.1 = false := by
  intro step hstep hfile
  rw [on_checkTargets] at h
  cases hfind : steps.find? fun step => !false && decide (Blocked w.disk step) with
  | some s =>
    rw [hfind] at h
    cases h
  | none =>
    have hfree := List.find?_eq_none.1 hfind step hstep
    simpa [Blocked, hfile] using hfree

/-- **All or nothing, up to names and files in the way of directories.**  A run without force that fails leaves the disk
as it was, unless something is wrong with a name, or a file stands where a directory is to be made.  The destination is
a path that is not empty and does not end in a dot, and all that it passes is above where it leads or there already. -/
theorem run_all_or_nothing {p : Palette} {context : Context} {err : CommandError} (hwf : w.disk.WellFormed)
    (hdest : dest ≠ []) (hstraight : w.disk.Straight dest) (hdot : (Disk.partsOf dest).getLast? ≠ some [Byte.dot])
    (h : on (run p source dest context false) w = (.error err, w')) :
    w'.disk = w.disk ∨ ∃ target f, err = .write target f ∧ (f.IsNaming ∨ f = .exists ∧ ∃ entries names targets c,
      on (collect source) w = (.ok entries, w) ∧ w.disk.node? (w.disk.locate source ++ names) = some .dir ∧
      renderedNames (scopeOf context entries) w.disk (w.disk.locate source) names = some targets ∧
      target = targets.foldl Path.join dest ∧ w.disk.node? (w.disk.locate target) = some (.file c)) := by
  rcases run_cases h with ⟨hsame, -⟩ | ⟨entries, steps, summary, r, hcollect, hplan, hcheck, hperform, hr⟩
  · exact .inl hsame
  obtain rfl : r = .error err := by
    cases r with
    | error e => rw [Except.error.inj hr]
    | ok => cases hr
  obtain ⟨hsource, hdescribes, -⟩ := collect_eq_ok hwf hcollect
  obtain ⟨hsteps, hdistinct, -⟩ := planEntries_eq_ok hwf (Disk.ne_nil_of_checkPath (Disk.checkPath_of_look hsource))
    hdescribes (consistent_start _ _ source dest) hplan
  rcases performAll_cons_eq_error hperform with hfirst | ⟨v, hfirst, hrest⟩
  · -- the destination itself
    obtain ⟨f, rfl, hfailed⟩ := perform_eq_error hfirst
    rcases Disk.createDir_eq_error hwf hstraight hdot hfailed with hsame | rfl
    · exact .inl hsame
    · exact .inr ⟨dest, _, rfl, .inl (.inl rfl)⟩
  · obtain ⟨hlook, hmade⟩ := perform_destination hdest hfirst
    have hadds : Adds dest w.disk [] [dest] v.disk := by
      refine ⟨hmade.cwd, fun l n hl => hmade.stays hl id, fun l => ?_, List.forall_mem_singleton.2 hlook⟩
      rcases hmade.node l with hsame | ⟨hway, hnone, -⟩ | ⟨hno, -, -⟩
      · exact .inl hsame
      · refine .inr ⟨hnone, .inl ((hstraight l hway).resolve_right fun hdir => ?_)⟩
        rw [hnone] at hdir
        cases hdir
      · exact hno.elim
    have hparents : ParentsFirst [dest] steps := by
      refine planEntries_parentsFirst (fun key path hpath => ?_) hplan
      obtain ⟨-, hpath⟩ := find?_placed_start.1 hpath
      cases hpath
      exact List.mem_cons_self
    have hfor := fun step hstep => (hsteps step hstep).2
    obtain ⟨step, hstep, f, rfl, hf⟩ := performAll_failed hwf hsource hdest hstraight hadds hparents hfor
      (locate_ne_of_components_ne hdest hfor hdistinct) (fun _ _ => List.not_mem_nil)
      (fun step hstep => pathExists_of_checkTargets hcheck step (List.mem_cons_of_mem _ hstep)) hrest
    refine .inr ⟨step.1, f, rfl, hf.imp_right ?_⟩
    rintro ⟨hexist, hdir, c, hc⟩
    obtain ⟨names, n, targets, n', hn, hstep⟩ := hfor step hstep
    have hact := hstep.action
    rw [hdir] at hact
    cases hact
    exact ⟨hexist, entries, names, targets, c, hcollect, hn, hstep.rendered, hstep.target, hc⟩

/-- A file stands at the destination where a directory of the source goes. -/
def fileInTheWay : World :=
  ⟨⟨[], .ofList [([utf8 "src"], .dir), ([utf8 "src", utf8 "a"], .file (utf8 "1")), ([utf8 "src", utf8 "b"], .dir),
    ([utf8 "out"], .dir), ([utf8 "out", utf8 "b"], .file (utf8 "2"))]⟩, [], []⟩

def blockedRun : Except CommandError Summary × World :=
  on (run ⟨false⟩ (utf8 "src") (utf8 "out") .empty false) fileInTheWay

theorem blockedRun_eq : on (run ⟨false⟩ (utf8 "src") (utf8 "out") .empty false) fileInTheWay =
    (.error (.write (utf8 "out/b") .exists), blockedRun.2) := by
  have herr : blockedRun.1 = .error (.write (utf8 "out/b") .exists) := by decide_cbv
  exact Prod.ext herr rfl

theorem blockedRun_disk : blockedRun.2.disk ≠ fileInTheWay.disk := by
  intro h
  have hread : blockedRun.2.disk.readFile (utf8 "out/a") ≠ fileInTheWay.disk.readFile (utf8 "out/a") := by decide_cbv
  rw [h] at hread
  exact hread rfl

theorem run_all_or_nothing_at_fileInTheWay : ∃ (names targets : Location) (c : Bytes),
    fileInTheWay.disk.node? (fileInTheWay.disk.locate (utf8 "src") ++ names) = some .dir ∧
      utf8 "out/b" = targets.foldl Path.join (utf8 "out") ∧
      fileInTheWay.disk.node? (fileInTheWay.disk.locate (utf8 "out/b")) = some (.file c) := by
  rcases run_all_or_nothing (by decide) (by decide) (Disk.straight_of_noUp (by decide)) (by decide) blockedRun_eq with
    hsame | ⟨target, f, herr, hf⟩
  · exact absurd hsame blockedRun_disk
  · cases herr
    rcases hf with (hf | hf) | ⟨-, entries, names, targets, c, -, hn, -, htarget, hc⟩
    · cases hf
    · cases hf
    · exact ⟨names, targets, c, hn, htarget, hc⟩

/-- What was done before a file in the way is noticed stays done. -/
theorem run_leaves_copy : ¬∀ (w w' : World) (source dest : Path) (context : Context) (err : CommandError),
    w.disk.WellFormed → on (run ⟨false⟩ source dest context false) w = (.error err, w') → w'.disk = w.disk := by
  intro h
  exact blockedRun_disk (h _ _ _ _ _ _ (by decide) blockedRun_eq)

end Tree
end Stencil
