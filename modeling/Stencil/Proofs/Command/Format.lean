import Stencil.Command.Format
import Stencil.Proofs.Disk.Changes
import Stencil.Proofs.Host
import Stencil.Proofs.Source.LineEnds
/-!
# Format — what checking and rewriting files come to

Rewriting files changes what is read at a path to its canonical form, if at all (`Disk.Formatted`), and so never changes
what that form is.  A check and a rewriting of the same files therefore look at the same ones, however often one of them
is named, and a check passes exactly those that a rewriting leaves alone
(`Command.formatFiles_check_iff_untouched`).
-/
namespace Stencil

namespace Template

theorem format_eq_ok {s out : Bytes} : format s = .ok out ↔ ∃ t, parse s = .ok t ∧ t.print = out := by
  unfold format
  cases parse s <;> simp

theorem format_format {s out : Bytes} (h : format s = .ok out) : format out = .ok out := by
  obtain ⟨t, hp, rfl⟩ := format_eq_ok.1 h
  obtain ⟨t₀, f, g, -, -, ht, hp'⟩ := parse_print hp
  rw [format_of_parse hp', print_mapPos, ht, print_mapPos]

theorem sameUpToLineEnds_iff {s out : Bytes} (h : format s = .ok out) :
    out.sameUpToLineEnds s = true ↔ out = s := by
  constructor
  · intro hsame
    obtain ⟨t, hp, rfl⟩ := format_eq_ok.1 h
    exact print_eq_of_sameUpToLineEnds hp hsame
  · rintro rfl
    exact beq_self_eq_true _

end Template

/-! ## Files and their canonical forms -/

namespace Disk

variable {d d' d'' : Disk} {l : Location} {p q : Path} {s out : Bytes}

def canonical (d : Disk) (p : Path) : Except CommandError Bytes :=
  match d.readFile p with
  | .ok s => (Template.format s).mapError (.parse p)
  | .error f => .error (.read p f)

def isCanonical (d : Disk) (p : Path) : Bool :=
  match d.readFile p with
  | .ok s => decide (Template.format s = .ok s)
  | .error _ => false

theorem canonical_eq_ok : d.canonical p = .ok out ↔ ∃ s, d.readFile p = .ok s ∧ Template.format s = .ok out := by
  unfold canonical
  cases d.readFile p with
  | error f => simp
  | ok s => cases h : Template.format s <;> simp [Except.mapError, h]

theorem format_of_canonical (h : d.canonical p = .ok out) : Template.format out = .ok out := by
  obtain ⟨s, -, hf⟩ := canonical_eq_ok.1 h
  exact Template.format_format hf

theorem isCanonical_iff (hs : d.readFile p = .ok s) (hf : Template.format s = .ok out) :
    d.isCanonical p = true ↔ out = s := by
  unfold isCanonical
  rw [hs]
  simp [hf]

/-- What is read is what was read before or its canonical form. -/
def Formatted (d d' : Disk) : Prop := ∀ q, d'.readFile q = d.readFile q ∨
  ∃ s out, d.readFile q = .ok s ∧ Template.format s = .ok out ∧ d'.readFile q = .ok out

theorem Formatted.refl (d : Disk) : Formatted d d := fun _ => .inl rfl

theorem Formatted.trans (h₁ : Formatted d d') (h₂ : Formatted d' d'') : Formatted d d'' := by
  intro q
  rcases h₁ q with e₁ | ⟨s, out, hs, hf, e₁⟩ <;> rcases h₂ q with e₂ | ⟨s', out', hs', hf', e₂⟩
  · exact .inl (e₂.trans e₁)
  · exact .inr ⟨s', out', e₁ ▸ hs', hf', e₂⟩
  · exact .inr ⟨s, out, hs, hf, e₂.trans e₁⟩
  · obtain rfl : s' = out := Except.ok.inj (hs'.symm.trans e₁)
    obtain rfl : out' = s' := Except.ok.inj (hf'.symm.trans (Template.format_format hf))
    exact .inr ⟨s, out', hs, hf, e₂⟩

/-- Rewriting never changes what the canonical form of a file is. -/
theorem Formatted.canonical (h : Formatted d d') (q : Path) : d'.canonical q = d.canonical q := by
  rcases h q with e | ⟨s, out, hs, hf, e⟩
  · rw [Disk.canonical, e, Disk.canonical]
  · rw [canonical_eq_ok.2 ⟨s, hs, hf⟩, canonical_eq_ok.2 ⟨out, e, Template.format_format hf⟩]

theorem Formatted.stays (h : Formatted d d') (hr : d.readFile q = .ok s) (hs : Template.format s = .ok s) :
    d'.readFile q = .ok s := by
  rcases h q with e | ⟨s', out, hs', hf, e⟩
  · rw [e, hr]
  · obtain rfl : s = s' := Except.ok.inj (hr.symm.trans hs')
    rw [e, Except.ok.inj (hf.symm.trans hs)]

theorem followAll_set_file {b c : Bytes} (hl : d.node? l = some (.file b)) (k : Location) (parts : List Bytes) :
    (d.set l (.file c)).followAll k parts = d.followAll k parts := by
  have hneed : ∀ j, (d.set l (.file c)).needDir j = d.needDir j := by
    intro j
    by_cases hj : j = l
    · rw [hj, needDir, needDir, hl, node?_set_self d (by rintro rfl; cases hl)]
    · rw [needDir, needDir, node?_set_of_ne d hj]
  induction parts generalizing k with
  | nil => rfl
  | cons part parts ih =>
    rw [followAll_cons, followAll_cons, hneed]
    simp only [ih]

theorem readFile_set_file {b c : Bytes} (hl : d.node? l = some (.file b)) (q : Path) :
    (d.resolve q = .ok l → (d.set l (.file c)).readFile q = .ok c) ∧
      (d.resolve q ≠ .ok l → (d.set l (.file c)).readFile q = d.readFile q) := by
  have hr : (d.set l (.file c)).resolve q = d.resolve q := by
    rw [resolve, resolve, start_set]
    simp only [followAll_set_file hl]
  unfold readFile look
  rw [hr]
  constructor
  · intro h
    have hne : l ≠ [] := by
      rintro rfl
      cases hl
    rw [h]
    simp [bind, Except.bind, node?_set_self d hne]
  · intro h
    cases hq : d.resolve q with
    | error f => rfl
    | ok k =>
      have hk : k ≠ l := fun hk => h (hk ▸ hq)
      simp [bind, Except.bind, node?_set_of_ne d hk]

theorem formatted_set (hs : d.readFile p = .ok s) (hf : Template.format s = .ok out) :
    Formatted d (d.set (d.locate p) (.file out)) ∧ (d.set (d.locate p) (.file out)).readFile p = .ok out := by
  obtain ⟨hr, hn⟩ := look_eq_ok.1 (readFile_eq_ok.1 hs)
  refine ⟨fun q => ?_, (readFile_set_file hn p).1 hr⟩
  by_cases hq : d.resolve q = .ok (d.locate p)
  · refine .inr ⟨s, out, ?_, hf, (readFile_set_file hn q).1 hq⟩
    have hl := locate_of_resolve hq
    exact readFile_eq_ok.2 (look_eq_ok.2 ⟨hl ▸ hq, hl ▸ hn⟩)
  · exact .inl ((readFile_set_file hn q).2 hq)

end Disk

/-! ## Runs -/

namespace Command

open Run (on)

variable {w w' : World} {p : Path} {out : Bytes}

def passedLine (p : Path) : Bytes := utf8 (p.describe ++ ": ok\n")

def failedLine (p : Path) : String := p.describe ++ ": not formatted\n"

/-- Every command on a file reads it and forms its canonical form first. -/
theorem formatFile_error {mode : FormatMode} {e : CommandError} (h : w.disk.canonical p = .error e) :
    on (formatFile mode p) w = (.error e, w) := by
  unfold Disk.canonical at h
  unfold formatFile
  rw [Run.on_bind, Run.on_attempt, World.run_readFile]
  cases hs : w.disk.readFile p with
  | error f =>
    rw [hs] at h
    cases h
    rfl
  | ok s =>
    rw [hs] at h
    dsimp only [Except.mapError]
    rw [Run.on_bind, Run.on_ofExcept, show (Template.format s).mapError (CommandError.parse p) = .error e from h]

theorem formatFile_check (h : w.disk.canonical p = .ok out) : on (formatFile .check p) w =
    if w.disk.isCanonical p then (.ok true, { w with printed := passedLine p :: w.printed })
    else (.ok false, { w with reported := failedLine p :: w.reported }) := by
  obtain ⟨s, hs, hf⟩ := Disk.canonical_eq_ok.1 h
  have hclean : w.disk.isCanonical p = out.sameUpToLineEnds s := by
    rw [Bool.eq_iff_iff, Disk.isCanonical_iff hs hf, Template.sameUpToLineEnds_iff hf]
  unfold formatFile
  rw [Run.on_bind, Run.on_attempt, World.run_readFile, hs, hclean]
  dsimp only [Except.mapError]
  rw [Run.on_bind, Run.on_ofExcept, hf]
  dsimp only [Except.mapError]
  split <;> rfl

theorem formatFile_inPlace (hwf : w.disk.WellFormed) (h : w.disk.canonical p = .ok out) :
    on (formatFile .inPlace p) w = (.ok true,
      if w.disk.isCanonical p then w else { w with disk := w.disk.set (w.disk.locate p) (.file out) }) := by
  obtain ⟨s, hs, hf⟩ := Disk.canonical_eq_ok.1 h
  have hclean : w.disk.isCanonical p = (out == s) := by
    rw [Bool.eq_iff_iff, Disk.isCanonical_iff hs hf, beq_iff_eq]
  unfold formatFile
  rw [Run.on_bind, Run.on_attempt, World.run_readFile, hs, hclean]
  dsimp only [Except.mapError]
  rw [Run.on_bind, Run.on_ofExcept, hf]
  dsimp only [Except.mapError]
  split
  · rfl
  · rw [Run.on_bind, Run.on_attempt, World.run_writeFile, Disk.writeFile_of_readFile hwf hs]
    rfl

theorem on_formatFile_inPlace (hwf : w.disk.WellFormed) (h : w.disk.canonical p = .ok out) :
    ∃ d, on (formatFile .inPlace p) w = (.ok true, { w with disk := d }) ∧
      d.WellFormed ∧ w.disk.Formatted d ∧ d.readFile p = .ok out := by
  obtain ⟨s, hs, hf⟩ := Disk.canonical_eq_ok.1 h
  have hp := formatFile_inPlace hwf h
  by_cases hc : w.disk.isCanonical p = true
  · rw [if_pos hc] at hp
    exact ⟨w.disk, hp, hwf, .refl _, by rw [hs, (Disk.isCanonical_iff hs hf).1 hc]⟩
  · rw [if_neg hc] at hp
    have hset := Disk.formatted_set hs hf
    exact ⟨_, hp, hwf.writeFile (Disk.writeFile_of_readFile hwf hs out), hset.1, hset.2⟩

/-- The files that a command comes to: those before the first that has no canonical form. -/
def reached (d : Disk) (paths : List Path) : List Path := paths.takeWhile fun p => (d.canonical p).isOk

def outcome (d : Disk) : List Path → Except CommandError Unit
  | [] => .ok ()
  | p :: paths =>
    match d.canonical p with
    | .ok _ => outcome d paths
    | .error e => .error e

theorem reached_cons {d : Disk} (h : d.canonical p = .ok out) (paths : List Path) :
    reached d (p :: paths) = p :: reached d paths := List.takeWhile_cons_of_pos (by rw [h]; rfl)

theorem reached_cons_of_error {d : Disk} {e : CommandError} (h : d.canonical p = .error e) (paths : List Path) :
    reached d (p :: paths) = [] := List.takeWhile_cons_of_neg (by rw [h]; nofun)

theorem outcome_congr {d d' : Disk} (h : ∀ q, d'.canonical q = d.canonical q) (paths : List Path) :
    outcome d' paths = outcome d paths := by
  induction paths with
  | nil => rfl
  | cons p paths ih => rw [outcome, outcome, h, ih]

theorem reached_congr {d d' : Disk} (h : ∀ q, d'.canonical q = d.canonical q) (paths : List Path) :
    reached d' paths = reached d paths := by
  unfold reached
  simp only [h]

theorem reached_of_outcome {d : Disk} {paths : List Path} (h : outcome d paths = .ok ()) : reached d paths = paths := by
  induction paths with
  | nil => rfl
  | cons p paths ih =>
    rw [outcome] at h
    split at h
    · rename_i out hp
      rw [reached_cons hp, ih h]
    · cases h

/-- **A check looks at each file it comes to.** -/
theorem on_formatFiles_check (paths : List Path) (w : World) : on (formatFiles .check paths) w =
    ((outcome w.disk paths).map fun _ => paths.all w.disk.isCanonical,
      { w with
        printed := (((reached w.disk paths).filter w.disk.isCanonical).map passedLine).reverse ++ w.printed
        reported := (((reached w.disk paths).filter fun p => !w.disk.isCanonical p).map failedLine).reverse
          ++ w.reported }) := by
  induction paths generalizing w with
  | nil => rfl
  | cons p paths ih =>
    cases h : w.disk.canonical p with
    | error e =>
      rw [outcome, h, reached_cons_of_error h]
      exact Run.on_bind_error (formatFile_error h) _
    | ok out =>
      rw [outcome, h, reached_cons h]
      have hp := formatFile_check h
      by_cases hc : w.disk.isCanonical p = true
      · rw [if_pos hc] at hp
        refine (Run.on_bind_ok hp _).trans ?_
        rw [Run.on_bind, ih]
        cases outcome w.disk paths <;> simp [hc, Except.map]
      · rw [if_neg hc] at hp
        refine (Run.on_bind_ok hp _).trans ?_
        rw [Run.on_bind, ih]
        cases outcome w.disk paths <;> simp [hc, Except.map]

/-- **A rewriting leaves the canonical form of each file it comes to**, and says nothing. -/
theorem on_formatFiles_inPlace (paths : List Path) {w : World} (hwf : w.disk.WellFormed) :
    ∃ d, on (formatFiles .inPlace paths) w = ((outcome w.disk paths).map fun _ => true, { w with disk := d }) ∧
      d.WellFormed ∧ w.disk.Formatted d ∧
      ∀ p ∈ reached w.disk paths, ∃ out, w.disk.canonical p = .ok out ∧ d.readFile p = .ok out := by
  induction paths generalizing w with
  | nil => exact ⟨w.disk, rfl, hwf, .refl _, nofun⟩
  | cons p paths ih =>
    cases h : w.disk.canonical p with
    | error e =>
      rw [outcome, h, reached_cons_of_error h]
      exact ⟨w.disk, Run.on_bind_error (formatFile_error h) _, hwf, .refl _, nofun⟩
    | ok out =>
      have hout := Disk.format_of_canonical h
      obtain ⟨d₁, hp, hwf₁, hform₁, hread₁⟩ := on_formatFile_inPlace hwf h
      obtain ⟨d, hrest, hwf', hform, hread⟩ := ih (w := { w with disk := d₁ }) hwf₁
      dsimp only at hrest hform hread
      rw [outcome_congr hform₁.canonical] at hrest
      rw [reached_congr hform₁.canonical] at hread
      refine ⟨d, ?_, hwf', hform₁.trans hform, ?_⟩
      · refine (Run.on_bind_ok hp _).trans ?_
        rw [Run.on_bind, hrest, outcome, h]
        cases outcome w.disk paths <;> rfl
      · rw [reached_cons h]
        intro q hq
        rcases List.mem_cons.1 hq with rfl | hq
        · refine ⟨out, h, ?_⟩
          exact hform.stays hread₁ hout
        · obtain ⟨out', hq', hr⟩ := hread q hq
          exact ⟨out', (hform₁.canonical q).symm.trans hq', hr⟩

theorem on_formatFiles_of_isCanonical (paths : List Path) {w : World} (hwf : w.disk.WellFormed)
    (h : ∀ p ∈ paths, w.disk.isCanonical p = true) : on (formatFiles .inPlace paths) w = (.ok true, w) := by
  induction paths with
  | nil => rfl
  | cons p paths ih =>
    have hp := h p List.mem_cons_self
    have hcan : ∃ out, w.disk.canonical p = .ok out := by
      unfold Disk.isCanonical at hp
      split at hp
      · rename_i s hs
        exact ⟨s, Disk.canonical_eq_ok.2 ⟨s, hs, of_decide_eq_true hp⟩⟩
      · cases hp
    obtain ⟨out, hout⟩ := hcan
    have hone := formatFile_inPlace hwf hout
    rw [if_pos hp] at hone
    refine (Run.on_bind_ok hone _).trans ?_
    rw [Run.on_bind, ih fun q hq => h q (List.mem_cons_of_mem _ hq)]
    rfl

/-- **A check and a rewriting agree.**  A source is the same as its canonical form up to line ends only if it is in
canonical form.  So a check of files passes exactly those that it comes to whose bytes a rewriting of the same files
leaves untouched, and comes to the same error.  A rewriting that ends well leaves files that a check passes and that a
rewriting leaves alone. -/
theorem formatFiles_check_iff_untouched :
    (∀ s out : Bytes, Template.format s = .ok out → (out.sameUpToLineEnds s = true ↔ out = s)) ∧
      ∀ (paths : List Path) (w : World), w.disk.WellFormed →
        let checked := on (formatFiles .check paths) w
        let written := on (formatFiles .inPlace paths) w
        let untouched := fun p => decide (written.2.disk.readFile p = w.disk.readFile p)
        (checked.1 = written.1.map (fun _ => paths.all untouched) ∧ written.1 = written.1.map (fun _ => true) ∧
          written.2 = { w with disk := written.2.disk } ∧
          checked.2 = { w with
            printed := (((reached w.disk paths).filter untouched).map passedLine).reverse ++ w.printed
            reported := (((reached w.disk paths).filter fun p => !untouched p).map failedLine).reverse
              ++ w.reported }) ∧
        (written.1 = .ok true → (on (formatFiles .check paths) written.2).1 = .ok true ∧
          on (formatFiles .inPlace paths) written.2 = (.ok true, written.2)) := by
  refine ⟨fun s out => Template.sameUpToLineEnds_iff, ?_⟩
  intro paths w hwf checked written untouched
  obtain ⟨d, hd, hwf', hform, hread⟩ := on_formatFiles_inPlace paths hwf
  rw [show written = _ from hd, show checked = _ from on_formatFiles_check paths w]
  have huntouched : ∀ p ∈ reached w.disk paths, untouched p = w.disk.isCanonical p := by
    intro p hp
    obtain ⟨out, hout, hr⟩ := hread p hp
    obtain ⟨s, hs, hf⟩ := Disk.canonical_eq_ok.1 hout
    rw [Bool.eq_iff_iff, Disk.isCanonical_iff hs hf, decide_eq_true_iff, show written = _ from hd, hr, hs,
      Except.ok.injEq]
  refine ⟨⟨?_, ?_, rfl, ?_⟩, fun hok => ?_⟩
  · cases ho : outcome w.disk paths with
    | error e => rfl
    | ok =>
      rw [reached_of_outcome ho] at huntouched
      exact congrArg Except.ok (Bool.eq_iff_iff.2 (by simp +contextual [List.all_eq_true, huntouched]))
  · cases outcome w.disk paths <;> rfl
  · rw [List.filter_congr huntouched, List.filter_congr fun p hp => congrArg not (huntouched p hp)]
  · have ho : outcome w.disk paths = .ok () := by
      cases ho : outcome w.disk paths with
      | ok => rfl
      | error e =>
        rw [ho] at hok
        cases hok
    have hall : ∀ p ∈ paths, d.isCanonical p = true := by
      intro p hp
      rw [reached_of_outcome ho] at hread
      obtain ⟨out, hout, hr⟩ := hread p hp
      exact (Disk.isCanonical_iff hr (Disk.format_of_canonical hout)).2 rfl
    refine ⟨?_, on_formatFiles_of_isCanonical paths hwf' hall⟩
    rw [on_formatFiles_check, outcome_congr hform.canonical, ho, List.all_eq_true.2 hall]
    rfl

/-- Two files, of which the first is not in canonical form and is named twice. -/
def twoFiles : World :=
  ⟨⟨[], .ofList [([utf8 "a"], .file (utf8 "\x7b\x7ba\x7d\x7d")), ([utf8 "b"], .file (utf8 "\x7b\x7b b \x7d\x7d\n"))]⟩, [], []⟩

theorem formatFiles_check_iff_untouched_at_twoFiles :
    let paths := [utf8 "a", utf8 "b", utf8 "a"]
    let written := (on (formatFiles .inPlace paths) twoFiles).2
    (on (formatFiles .check paths) twoFiles).2.printed = [passedLine (utf8 "b")] ∧
      (on (formatFiles .check paths) written).1 = .ok true ∧
      ¬(utf8 "\x7b\x7b a \x7d\x7d").sameUpToLineEnds (utf8 "\x7b\x7ba\x7d\x7d") = true := by
  intro paths written
  obtain ⟨hsame, hfiles⟩ := formatFiles_check_iff_untouched
  have h := hfiles paths twoFiles (by decide)
  refine ⟨?_, (h.2 (by decide_cbv)).1, ?_⟩
  · rw [h.1.2.2.2]
    decide_cbv
  · rw [hsame _ _ (by decide_cbv)]
    decide_cbv

end Command
end Stencil
