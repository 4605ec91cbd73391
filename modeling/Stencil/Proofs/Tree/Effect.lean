import Stencil.Proofs.Tree.Plan
/-!
# Effect — what rendering a tree leaves on the disk

Each step of a plan makes its target what it is to be and touches nothing else but missing directories on the way
(`Tree.perform_effect`).  Targets are below the destination and differ, so no later step touches what an earlier one
made, and none touches the source (`Tree.performAll_effect`).  Together with what a plan is, this tells all that
rendering a tree does (`Tree.run_effect`).
-/
namespace Stencil
namespace Tree

open Stencil.Path (IsEntryName)
open Command.Run (on)
open Disk (Changes)

variable {scope : Scope} {d d' e : Disk} {source dest : Path} {l names targets : Location} {n n' : Node}
variable {w w' : World} {step : Path × Action} {steps : List (Path × Action)}

/-! ## Steps -/

def effect (d : Disk) : Path × Action → Disk × Except IoFailure Unit
  | (target, .createDir) => d.createDir target
  | (target, .copy source) => d.after (d.copyFile source target)
  | (target, .write b) => d.after (d.writeFile target b)

theorem on_perform (step : Path × Action) (w : World) : on (perform step) w =
    ((effect w.disk step).2.mapError (.write step.1), { w with disk := (effect w.disk step).1 }) := by
  obtain ⟨target, a⟩ := step
  cases a with
  | createDir => rw [perform, Command.Run.on_attempt, World.run_createDir, effect]
  | copy source => rw [perform, Command.Run.on_attempt, World.run_copyFile, effect]
  | write b => rw [perform, Command.Run.on_attempt, World.run_writeFile, effect]

theorem perform_eq_ok (h : on (perform step) w = (.ok (), w')) : effect w.disk step = (w'.disk, .ok ()) := by
  rw [on_perform, Prod.mk.injEq, mapError_eq_ok] at h
  obtain ⟨h, rfl⟩ := h
  exact Prod.ext rfl h

/-- What stood at a location or below it still stands. -/
structure Intact (l : Location) (d d' : Disk) : Prop where
  cwd : d'.cwd = d.cwd
  node : ∀ k n, l <+: k → d.node? k = some n → d'.node? k = some n

theorem Intact.changes {made written : Location → Prop} (h : Intact l d d') (hc : Changes made written d' e)
    (hw : ∀ k, written k → ¬l <+: k) : Intact l d e :=
  ⟨hc.cwd.trans h.cwd, fun k n hk hn => hc.stays (h.node k n hk hn) fun hwk => hw k hwk hk⟩

/-- **A step makes its target what it is to be**, and touches nothing else but missing directories on the way. -/
theorem perform_effect (hwf : d.WellFormed) (hsource : source ≠ []) (hdest : dest ≠ [])
    (hn : d.node? (d.locate source ++ names) = some n) (hfor : StepFor scope d source dest names n step targets n')
    (hintact : Intact (d.locate source) d d') (hout : ¬d.locate source <+: d.locate step.1)
    (h : effect d' step = (e, .ok ())) :
    e.look step.1 = .ok n' ∧ Changes (d'.OnWay step.1) (· = d.locate step.1) d' e := by
  have hlocate := Disk.locate_congr hintact.cwd step.1
  have hact := hfor.action
  have htarget : step.1 ≠ [] := by
    rw [hfor.target]
    exact Path.foldl_join_ne_nil hdest _
  obtain ⟨target, a⟩ := step
  dsimp only at h hact hlocate htarget hout ⊢
  cases hact with
  | createDir =>
    have hlook := Disk.look_of_createDir htarget (congrArg Prod.snd h)
    have hchanges := Disk.changes_createDir d' target
    rw [show (d'.createDir target).1 = e from congrArg Prod.fst h] at hlook hchanges
    exact ⟨hlook, hchanges.mono (fun _ h => h) nofun⟩
  | write =>
    have hwrite := Disk.after_eq_ok.1 h
    have hchanges := Disk.changes_writeFile hwrite
    rw [hlocate] at hchanges
    exact ⟨Disk.look_of_writeFile hwrite, hchanges.mono nofun fun _ h => h⟩
  | @copy c =>
    obtain ⟨-, e₁, c', hempty, hread, hwrite⟩ := Disk.copyFile_eq_ok.1 (Disk.after_eq_ok.1 h)
    have h₁ := Disk.changes_writeFile hempty
    have h₂ := Disk.changes_writeFile hwrite
    rw [hlocate] at h₁
    rw [Disk.locate_congr h₁.cwd, hlocate] at h₂
    have hintact₁ := hintact.changes h₁ fun k hk => hk ▸ hout
    -- what is copied is what stood at the source before anything was done
    obtain rfl : c' = c := by
      have hnode := (Disk.look_eq_ok.1 hread).2
      have hnames := hwf.names hn
      rw [Disk.locate_congr hintact₁.cwd, Disk.locate_foldl_join _ hsource hnames,
        hintact₁.node _ _ (List.prefix_append _ _) hn] at hnode
      cases hnode
      rfl
    exact ⟨Disk.look_of_writeFile hwrite, (h₁.trans h₂).mono nofun fun _ h => h⟩

theorem performAll_cons_eq_ok (h : on (performAll (step :: steps)) w = (.ok (), w')) : ∃ v,
    on (perform step) w = (.ok (), v) ∧ on (performAll steps) v = (.ok (), w') := by
  rw [performAll] at h
  obtain ⟨_, v, hv, h⟩ := Command.Run.on_bind_eq_ok.1 h
  exact ⟨v, hv, h⟩

/-- **The steps of a plan**: each target is what it is to be when all is done, and nothing else is touched but missing
directories on the way. -/
theorem performAll_effect (hwf : d.WellFormed) (hsource : source ≠ []) (hdest : dest ≠ [])
    (hfor : ∀ step ∈ steps, ∃ names n targets n', d.node? (d.locate source ++ names) = some n ∧
      StepFor scope d source dest names n step targets n')
    (hdistinct : steps.Pairwise fun s t => d.locate s.1 ≠ d.locate t.1)
    (hout : ∀ step ∈ steps, ¬d.locate source <+: d.locate step.1) (hintact : Intact (d.locate source) d w.disk)
    (h : on (performAll steps) w = (.ok (), w')) :
    Changes (fun k => ∃ step ∈ steps, d.OnWay step.1 k) (fun k => ∃ step ∈ steps, k = d.locate step.1)
        w.disk w'.disk ∧
      ∀ step ∈ steps, ∀ names n targets n', d.node? (d.locate source ++ names) = some n →
        StepFor scope d source dest names n step targets n' → w'.disk.look step.1 = .ok n' := by
  induction steps generalizing w with
  | nil =>
    cases h
    exact ⟨.refl _, nofun⟩
  | cons step steps ih =>
    obtain ⟨v, hone, hrest⟩ := performAll_cons_eq_ok h
    have hperformed := perform_eq_ok hone
    obtain ⟨hne, hdistinct⟩ := List.pairwise_cons.1 hdistinct
    have hout₁ := hout step List.mem_cons_self
    have heffect {names n targets n'} (hn : d.node? (d.locate source ++ names) = some n)
        (hs : StepFor scope d source dest names n step targets n') :=
      perform_effect hwf hsource hdest hn hs hintact hout₁ hperformed
    obtain ⟨names, n, targets, n', hn, hs⟩ := hfor step List.mem_cons_self
    have hc₁ := (heffect hn hs).2
    have hintact' := hintact.changes hc₁ fun k hk => hk ▸ hout₁
    obtain ⟨hc₂, hlook⟩ := ih (fun s hs => hfor s (List.mem_cons_of_mem _ hs)) hdistinct
      (fun s hs => hout s (List.mem_cons_of_mem _ hs)) hintact' hrest
    constructor
    · refine .trans (hc₁.mono ?_ ?_) (hc₂.mono ?_ ?_)
      · exact fun k hk => ⟨step, List.mem_cons_self, (Disk.onWay_congr hintact.cwd step.1).1 hk⟩
      · exact fun k hk => ⟨step, List.mem_cons_self, hk⟩
      · exact fun k ⟨s, hs, hk⟩ => ⟨s, List.mem_cons_of_mem _ hs, hk⟩
      · exact fun k ⟨s, hs, hk⟩ => ⟨s, List.mem_cons_of_mem _ hs, hk⟩
    · intro s hs names n targets n' hn hfor'
      rcases List.mem_cons.1 hs with rfl | hs
      · refine hc₂.look (heffect hn hfor').1 ?_
        rintro ⟨t, ht, hk⟩
        rw [Disk.locate_congr hintact'.cwd] at hk
        exact hne t ht hk
      · exact hlook s hs names n targets n' hn hfor'

/-! ## Runs -/

def Blocked (d : Disk) (step : Path × Action) : Prop := step.2 ≠ .createDir ∧ d.pathExists step.1 = true

instance (d : Disk) (step : Path × Action) : Decidable (Blocked d step) := inferInstanceAs (Decidable (_ ∧ _))

theorem on_checkTargets (force : Bool) (steps : List (Path × Action)) (w : World) :
    on (checkTargets force steps) w = (match steps.find? fun step => !force && decide (Blocked w.disk step) with
      | none => .ok ()
      | some step => .error (.targetExists step.1), w) := by
  induction steps with
  | nil => rfl
  | cons step steps ih =>
    obtain ⟨target, a⟩ := step
    by_cases ha : a = .createDir
    · rw [ha, List.find?_cons_of_neg (by simp [Blocked])]
      exact ih
    · have hcheck : on (checkTargets force ((target, a) :: steps)) w =
          if w.disk.pathExists target && !force then (.error (.targetExists target), w)
          else on (checkTargets force steps) w := by
        cases a with
        | createDir => exact absurd rfl ha
        | copy | write =>
          rw [checkTargets, Command.Run.on_bind, Command.Run.on_lift, World.run_pathExists]
          · cases w.disk.pathExists target <;> cases force <;> rfl
          · exact nofun
      rw [hcheck]
      split
      · rename_i hb
        rw [Bool.and_eq_true, Bool.not_eq_true'] at hb
        rw [List.find?_cons_of_pos (by simp [Blocked, ha, hb])]
      · rename_i hb
        rw [List.find?_cons_of_neg (by cases force <;> simp_all [Blocked])]
        exact ih

def scopeOf (context : Context) (entries : List Entry) : Scope :=
  ⟨.standard, context, (analyze .standard (entries.flatMap Entry.templates)).1⟩

theorem carryOut_cases {force : Bool} {plan : List (Path × Action) × Except CommandError Summary}
    {r : Except CommandError Summary}
    (h : on (do
      checkTargets force plan.1
      let summary ← Command.Run.ofExcept plan.2 id
      performAll plan.1
      return summary) w = (r, w')) :
    (w' = w ∧ ∃ e, r = .error e) ∨ ∃ summary r', plan.2 = .ok summary ∧
      on (checkTargets force plan.1) w = (.ok (), w) ∧ on (performAll plan.1) w = (r', w') ∧
      r = r'.map fun _ => summary := by
  rw [Command.Run.on_bind, on_checkTargets] at h
  rw [on_checkTargets]
  split at h
  · rename_i v hv
    obtain ⟨hcheck, rfl⟩ := Prod.mk.inj hv
    rw [Command.Run.on_bind, Command.Run.on_ofExcept] at h
    cases hsummary : plan.2 with
    | error e =>
      rw [hsummary] at h
      cases h
      exact .inl ⟨rfl, e, rfl⟩
    | ok summary =>
      rw [hsummary] at h
      dsimp only [Except.mapError] at h
      rw [Command.Run.on_bind] at h
      rcases hperform : on (performAll plan.1) w with ⟨e | _, v⟩ <;> rw [hperform] at h <;> cases h
      · exact .inr ⟨summary, .error e, rfl, by rw [hcheck], rfl, rfl⟩
      · exact .inr ⟨summary, .ok (), rfl, by rw [hcheck], rfl, rfl⟩
  · rename_i e v hv
    cases h
    obtain ⟨-, rfl⟩ := Prod.mk.inj hv
    exact .inl ⟨rfl, e, rfl⟩

theorem run_cases {p : Palette} {context : Context} {force : Bool} {r : Except CommandError Summary}
    (h : on (run p source dest context force) w = (r, w')) :
    (w'.disk = w.disk ∧ ∃ e, r = .error e) ∨ ∃ entries steps summary r', on (collect source) w = (.ok entries, w) ∧
      planEntries (scopeOf context entries) (.start source dest) entries = (steps, .ok summary) ∧
      on (checkTargets force ((dest, .createDir) :: steps)) w = (.ok (), w) ∧
      on (performAll ((dest, .createDir) :: steps)) w = (r', w') ∧ r = r'.map fun _ => summary := by
  unfold run at h
  rw [Command.Run.on_bind] at h
  rcases hc : on (collect source) w with ⟨e | entries, v⟩ <;> rw [hc] at h <;>
    obtain rfl := (onlyReads_collect source).on_eq hc
  · cases h
    exact .inl ⟨rfl, e, rfl⟩
  · dsimp only at h
    split at h
    · rcases carryOut_cases h with ⟨rfl, e, rfl⟩ | ⟨summary, r', hplan, hcheck, hperform, rfl⟩
      · exact .inl ⟨rfl, e, rfl⟩
      · exact .inr ⟨entries, _, summary, r', rfl, Prod.ext rfl hplan, hcheck, hperform, rfl⟩
    · cases h
      exact .inl ⟨rfl, _, rfl⟩

theorem StepFor.locate (hdest : dest ≠ []) (h : StepFor scope d source dest names n step targets n') :
    d.locate step.1 = d.locate dest ++ targets := by
  rw [h.target, Disk.locate_foldl_join d hdest h.isEntryName]

theorem locate_ne_of_components_ne (hdest : dest ≠ []) (hfor : ∀ step ∈ steps, ∃ names n targets n',
      d.node? (d.locate source ++ names) = some n ∧ StepFor scope d source dest names n step targets n')
    (hdistinct : steps.Pairwise fun s t => s.1.components ≠ t.1.components) :
    steps.Pairwise fun s t => d.locate s.1 ≠ d.locate t.1 := by
  refine hdistinct.imp_of_mem fun {s t} hs ht hne heq => hne ?_
  obtain ⟨_, _, us, _, _, hsus⟩ := hfor s hs
  obtain ⟨_, _, vs, _, _, htvs⟩ := hfor t ht
  rw [hsus.locate hdest, htvs.locate hdest] at heq
  rw [hsus.target, htvs.target, List.append_cancel_left heq]

theorem StepFor.not_skipped (h : StepFor scope d source dest names n step targets n') :
    ¬Skipped scope d (d.locate source) names :=
  Tree.not_skipped h.rendered fun t ht => (h.isEntryName t ht).ne_nil

theorem StepFor.onWay (hdest : dest ≠ []) (h : StepFor scope d source dest names n step targets n')
    (hl : d.OnWay step.1 l) : d.OnWay dest l ∨ ∃ us ts, renderedNames scope d (d.locate source) us = some ts ∧
      ¬Skipped scope d (d.locate source) us ∧ l = d.locate dest ++ ts := by
  rw [h.target] at hl
  rcases Disk.onWay_foldl_join hdest h.isEntryName hl with hl | ⟨ts, hts, rfl⟩
  · exact .inl hl
  · have htake := renderedNames_take h.rendered ts.length
    rw [← List.prefix_iff_eq_take.1 hts] at htake
    exact .inr ⟨_, ts, htake, Tree.not_skipped htake fun t ht => (h.isEntryName t (hts.subset ht)).ne_nil, rfl⟩

theorem not_prefix_append (h₁ : ¬l <+: names) (h₂ : ¬names <+: l) (us : Location) : ¬l <+: names ++ us := fun h =>
  (List.prefix_or_prefix_of_prefix h (List.prefix_append names us)).elim h₁ h₂

theorem StepFor.outside (hdest : dest ≠ []) (hout : ¬d.locate source <+: d.locate dest)
    (hin : ¬d.locate dest <+: d.locate source) (h : StepFor scope d source dest names n step targets n') :
    ¬d.locate source <+: d.locate step.1 := by
  rw [h.locate hdest]
  exact not_prefix_append hout hin targets

/-- Where nothing is placed nothing changes, but for directories that were missing on the way to the destination. -/
theorem elsewhere (hdest : dest ≠ []) (hfor : ∀ step ∈ steps, ∃ names n targets n',
      d.node? (d.locate source ++ names) = some n ∧ StepFor scope d source dest names n step targets n')
    (hc : Changes (fun k => d.OnWay dest k ∨ ∃ step ∈ steps, d.OnWay step.1 k)
      (fun k => ∃ step ∈ steps, k = d.locate step.1) d d')
    (hl : ∀ names targets, renderedNames scope d (d.locate source) names = some targets →
      ¬Skipped scope d (d.locate source) names → l ≠ d.locate dest ++ targets) :
    d'.node? l = d.node? l ∨ d.OnWay dest l ∧ d.node? l = none ∧ d'.node? l = some .dir := by
  rcases hc.node l with hsame | ⟨hway, hnone, hmade⟩ | ⟨⟨step, hstep, rfl⟩, -, -⟩
  · exact .inl hsame
  · refine .inr ⟨?_, hnone, hmade⟩
    rcases hway with hway | ⟨step, hstep, hway⟩
    · exact hway
    · obtain ⟨names, n, targets, n', -, hstep⟩ := hfor step hstep
      rcases hstep.onWay hdest hway with hway | ⟨us, ts, hus, hskip, rfl⟩
      · exact hway
      · exact absurd rfl (hl us ts hus hskip)
  · obtain ⟨names, n, targets, n', -, hstep⟩ := hfor step hstep
    exact absurd (hstep.locate hdest) (hl names targets hstep.rendered hstep.not_skipped)

theorem perform_destination (hdest : dest ≠ []) (h : on (perform (dest, .createDir)) w = (.ok (), w')) :
    w'.disk.look dest = .ok .dir ∧ Changes (w.disk.OnWay dest) (fun _ => False) w.disk w'.disk := by
  have hcreate : w.disk.createDir dest = (w'.disk, .ok ()) := perform_eq_ok h
  have hlook := Disk.look_of_createDir hdest (congrArg Prod.snd hcreate)
  have hmade := Disk.changes_createDir w.disk dest
  rw [hcreate] at hlook hmade
  exact ⟨hlook, hmade⟩

/-- **What rendering a tree does.**  Source and destination do not contain each other, and the destination is no empty
path, which no command line can ask for (`Command.ofArguments?_paths`).  When all has gone well the destination is a
directory.  Whatever stands below the source and is not left out for a name that renders to nothing has come to what it
renders to, at the destination followed by the names that the names leading to it render to.  Everything else is as it
was but for directories that were missing on the way to the destination, and so is the source. -/
theorem run_effect {p : Palette} {context : Context} {force : Bool} {summary : Summary} (hwf : w.disk.WellFormed)
    (hdest : dest ≠ []) (hout : ¬w.disk.locate source <+: w.disk.locate dest)
    (hin : ¬w.disk.locate dest <+: w.disk.locate source)
    (h : on (run p source dest context force) w = (.ok summary, w')) :
    ∃ entries, on (collect source) w = (.ok entries, w) ∧
      let scope := scopeOf context entries
      let root := w.disk.locate source
      w'.disk.isDir dest = true ∧
      (∀ names n, names ≠ [] → w.disk.node? (root ++ names) = some n → ¬Skipped scope w.disk root names →
        ∃ targets n', renderedNames scope w.disk root names = some targets ∧
          renderedNode scope (names.getLast?.getD []) n = some n' ∧
          w'.disk.look (targets.foldl Path.join dest) = .ok n') ∧
      (∀ l, (∀ names targets, renderedNames scope w.disk root names = some targets →
          ¬Skipped scope w.disk root names → l ≠ w.disk.locate dest ++ targets) →
        w'.disk.node? l = w.disk.node? l ∨
          w.disk.OnWay dest l ∧ w.disk.node? l = none ∧ w'.disk.node? l = some .dir) ∧
      (∀ l n, root <+: l → w.disk.node? l = some n → w'.disk.node? l = some n) ∧
      w'.disk.cwd = w.disk.cwd := by
  rcases run_cases h with ⟨-, e, he⟩ | ⟨entries, steps, summary', r, hcollect, hplan, -, hperform, hr⟩
  · cases he
  obtain ⟨hlook, hdescribes, hall⟩ := collect_eq_ok hwf hcollect
  have hsource := Disk.ne_nil_of_checkPath (Disk.checkPath_of_look hlook)
  obtain ⟨hsteps, hdistinct, hentries⟩ :=
    planEntries_eq_ok hwf hsource hdescribes (consistent_start _ _ source dest) hplan
  obtain rfl : r = .ok () := by
    cases r with
    | error e => cases hr
    | ok => rfl
  obtain ⟨v, hfirst, hrest⟩ := performAll_cons_eq_ok hperform
  obtain ⟨hdir, hmade⟩ := perform_destination hdest hfirst
  have hfor := fun step hstep => (hsteps step hstep).2
  have houtside : ∀ step ∈ steps, ¬w.disk.locate source <+: w.disk.locate step.1 := by
    intro step hstep
    obtain ⟨names, n, targets, n', -, hstep⟩ := hfor step hstep
    exact hstep.outside hdest hout hin
  have hintact : Intact (w.disk.locate source) w.disk v.disk :=
    Intact.changes ⟨rfl, fun _ _ _ h => h⟩ hmade nofun
  obtain ⟨hchanges, hlooks⟩ := performAll_effect hwf hsource hdest hfor
    (locate_ne_of_components_ne hdest hfor hdistinct) houtside hintact hrest
  have htotal : Changes (fun k => w.disk.OnWay dest k ∨ ∃ step ∈ steps, w.disk.OnWay step.1 k)
      (fun k => ∃ step ∈ steps, k = w.disk.locate step.1) w.disk w'.disk :=
    .trans (hmade.mono (fun _ h => .inl h) nofun) (hchanges.mono (fun _ h => .inr h) fun _ h => h)
  refine ⟨entries, hcollect, ?_, ?_, fun l hl => elsewhere hdest hfor htotal hl, ?_, htotal.cwd⟩
  · exact Disk.isDir_iff.2 (hchanges.dirsStay.look hdir (hchanges.dirsStay.dir _ (Disk.look_eq_ok.1 hdir).2))
  · intro names n hne hn hskip
    obtain ⟨e, he, hdescribed⟩ := hall names n hne hn
    obtain ⟨step, hstep, targets, n', hfor⟩ := (hentries e he names n hne hn hdescribed).resolve_left hskip
    exact ⟨targets, n', hfor.rendered, hfor.outcome, hfor.target ▸ hlooks step hstep names n targets n' hn hfor⟩
  · intro l n hl hn
    exact htotal.stays hn fun ⟨step, hstep, hk⟩ => houtside step hstep (hk ▸ hl)

/-- A directory named after a binding with a template in it, and a directory that is left out with what is in it. -/
def smallTree : World :=
  ⟨⟨[], .ofList [([utf8 "src"], .dir), ([utf8 "src", utf8 "\x7b\x7bn\x7d\x7d"], .dir),
    ([utf8 "src", utf8 "\x7b\x7bn\x7d\x7d", utf8 "t.vie"], .file (utf8 "\x7b\x7bn|upper\x7d\x7d")),
    ([utf8 "src", utf8 "\x7b%if d%\x7dx\x7b%end%\x7d"], .dir),
    ([utf8 "src", utf8 "\x7b%if d%\x7dx\x7b%end%\x7d", utf8 "a"], .file (utf8 "a"))]⟩, [], []⟩

def smallContext : Context := .ofList [(utf8 "n", .string (utf8 "b")), (utf8 "d", .bool false)]

def smallRun : Except CommandError Summary × World :=
  on (run ⟨false⟩ (utf8 "src") (utf8 "o/out") smallContext false) smallTree

theorem run_effect_at_smallTree : smallRun.1 = .ok ⟨1, 1, 0, 2⟩ ∧ smallRun.2.disk.isDir (utf8 "o/out") = true ∧
    smallRun.2.disk.node? [utf8 "src"] = some .dir := by
  have hok : smallRun.1 = .ok ⟨1, 1, 0, 2⟩ := by decide_cbv
  have hrun : on (run ⟨false⟩ (utf8 "src") (utf8 "o/out") smallContext false) smallTree =
      (.ok ⟨1, 1, 0, 2⟩, smallRun.2) := Prod.ext hok rfl
  obtain ⟨entries, -, hdir, -, -, hsource, -⟩ :=
    run_effect (by decide) (by decide) (by decide) (by decide) hrun
  exact ⟨hok, hdir, hsource _ _ (by decide) (by decide)⟩

end Tree
end Stencil
