import Stencil.Command
import Stencil.Proofs.Command.Arguments
import Stencil.Proofs.Context
import Stencil.Proofs.Tree.Effect
/-!
# Names — rendered names are text

Rendering a tree refuses a rendered name that is no text.  That never happens: names below the source are looked at
before they are read as templates, a context file and the assignments of a command line are too, and rendering keeps to
UTF-8.  So each part of the command ends with a well-formed result or with another error (`Command.Run.Ends`).
-/
namespace Stencil

open Command.Run (on Ends)
open Utf8 (Text)

def CommandError.IsOther (e : CommandError) : Prop := ∀ source, e ≠ .targetEncoding source

/-! ## Contexts -/

namespace Command

variable {read : Context.Reader}

theorem loadContextFile_ends (hread : read.KeepsUtf8) (path : Path) :
    Ends (loadContextFile (m := StateM World) read path) Context.IsText CommandError.IsOther := by
  unfold loadContextFile
  refine (Ends.attempt _ fun _ _ => nofun).bind fun text _ => .unless (fun hvalid => ?_) fun _ => nofun
  exact .ofExcept (fun _ hc => Context.isText_of_ofText hread hvalid hc) fun _ _ _ => nofun

theorem loadContext_ends (hread : read.KeepsUtf8) {b : Bindings} (hsets : ∀ s ∈ b.sets, Text s) :
    Ends (loadContext (m := StateM World) read b) Context.IsText CommandError.IsOther := by
  have hassign : ∀ base : Context, base.IsText →
      Ends (Run.ofExcept (m := StateM World) (base.assignAll b.sets) .context) Context.IsText CommandError.IsOther :=
    fun base hbase => .ofExcept (fun _ hc => hbase.assignAll hsets hc) fun _ _ _ => nofun
  unfold loadContext
  cases b.file with
  | none => exact hassign .empty Context.isText_empty
  | some path => exact (loadContextFile_ends hread path).bind hassign

end Command

namespace Tree

/-! ## Entries -/

theorem text_stem? {name stem : Bytes} (hname : Text name) (h : stem? name = some stem) : Text stem := by
  rw [stem?] at h
  split at h
  · rename_i hsuffix
    obtain ⟨front, rfl⟩ := List.isSuffixOf_iff_suffix.1 hsuffix
    rw [List.length_append, Nat.add_sub_cancel, List.take_left, Option.some.injEq] at h
    rw [← h]
    refine (hname.split fun b hb => ?_).1
    cases hb
    decide
  · cases h

theorem readBody_ends {f : Found} (hname : Text f.name) :
    Ends (readBody (m := StateM World) f) (fun b => Text b.2) CommandError.IsOther := by
  unfold readBody
  split
  · exact .pure hname
  · split
    · rename_i stem hstem
      refine (Ends.attempt _ fun _ _ => nofun).bind fun source _ => ?_
      refine (Ends.ofExcept (Q := fun _ => True) (fun _ _ => trivial) fun _ _ _ => nofun).bind fun t _ => ?_
      exact .pure (text_stem? hname hstem)
    · exact .pure hname

theorem readEntry_ends (f : Found) :
    Ends (readEntry (m := StateM World) f) (fun e => Block.IsTextList e.name) CommandError.IsOther := by
  unfold readEntry
  refine .unless (fun hvalid => ?_) fun _ => nofun
  refine (readBody_ends (Utf8.isValid_iff.1 hvalid)).bind fun b hb => ?_
  have hparse : Ends (parse (m := StateM World) f.path b.2) Block.IsTextList CommandError.IsOther :=
    .ofExcept (fun _ ht => Template.isText_of_parse hb ht) fun _ _ _ => nofun
  exact hparse.bind fun name hname => .pure hname

theorem collect_ends (source : Path) :
    Ends (collect (m := StateM World) source) (fun es => ∀ e ∈ es, Block.IsTextList e.name) CommandError.IsOther := by
  unfold collect
  refine (Ends.lift _).bind fun isDir _ => .unless (fun _ => ?_) fun _ => nofun
  refine (Ends.lift _).bind fun walk _ => (Ends.mapM readEntry_ends _).bind fun entries hentries => ?_
  split
  · exact .pure hentries
  · exact .throw fun _ => nofun

/-! ## Planning -/

variable {scope : Scope} {e : Entry}

/-- **No rendered name fails to be text.** -/
theorem isOther_of_planEntry (hscope : scope.IsText) (he : Block.IsTextList e.name) {p : Planning} {err : CommandError}
    (h : planEntry scope p e = .error err) : err.IsOther := by
  rcases planEntry_eq_error h with ⟨rfl, -⟩ | ⟨r, rfl⟩ | ⟨name, hname, ⟨-, hinvalid⟩ | ⟨rfl, -⟩ | ⟨other, target, rfl, -⟩⟩
  · exact fun _ => nofun
  · exact fun _ => nofun
  · -- only here would the name be refused for its encoding
    have hvalid : Utf8.isValid name = true := Utf8.isValid_iff.2 (Template.text_output he hscope hname)
    rw [hvalid] at hinvalid
    cases hinvalid
  · exact fun _ => nofun
  · exact fun _ => nofun

theorem isOther_of_planEntries (hscope : scope.IsText) {es : List Entry} (hes : ∀ e ∈ es, Block.IsTextList e.name) :
    ∀ {p : Planning} {err : CommandError}, (planEntries scope p es).2 = .error err → err.IsOther := by
  induction es with
  | nil => exact nofun
  | cons e es ih =>
    obtain ⟨he, hes⟩ := List.forall_mem_cons.1 hes
    intro p err h
    rw [planEntries] at h
    split at h
    · rename_i err' herr
      cases h
      exact isOther_of_planEntry hscope he herr
    · exact ih hes h
    · exact ih hes h

/-! ## The command -/

theorem checkTargets_ends (force : Bool) (steps : List (Path × Action)) :
    Ends (checkTargets (m := StateM World) force steps) (fun _ => True) CommandError.IsOther := by
  intro w
  rw [on_checkTargets]
  cases steps.find? fun step => !force && decide (Blocked w.disk step) with
  | none => trivial
  | some step => exact fun _ => nofun

theorem performAll_ends (steps : List (Path × Action)) :
    Ends (performAll (m := StateM World) steps) (fun _ => True) CommandError.IsOther := by
  induction steps with
  | nil => exact .pure trivial
  | cons step steps ih =>
    refine Ends.bind (Q := fun _ => True) ?_ fun _ _ => ih
    obtain ⟨target, a⟩ := step
    cases a <;> exact .attempt _ fun _ _ => nofun

theorem run_ends (p : Palette) (source dest : Path) {context : Context} (hcontext : context.IsText) (force : Bool) :
    Ends (run (m := StateM World) p source dest context force) (fun _ => True) CommandError.IsOther := by
  unfold run
  refine (collect_ends source).bind fun entries hentries => ?_
  dsimp only
  split
  · refine (checkTargets_ends _ _).bind fun _ _ => ?_
    refine (Ends.ofExcept (Q := fun _ => True) (fun _ _ => trivial) fun err herr => ?_).bind fun summary _ =>
      (performAll_ends _).bind fun _ _ => .pure trivial
    exact isOther_of_planEntries ⟨Registry.isStandard_standard, hcontext⟩ hentries herr
  · refine (Ends.lift _).bind fun _ _ => ?_
    exact (Ends.throw (Q := fun _ => False) fun _ => nofun).bind nofun

end Tree

theorem Command.renderTree_ends {read : Context.Reader} (hread : read.KeepsUtf8) (p : Palette) (source dest : Path)
    {bindings : Bindings} (force : Bool) (hsets : ∀ s ∈ bindings.sets, Text s) :
    Ends (renderTree (m := StateM World) read p source dest bindings force) (fun _ => True) CommandError.IsOther := by
  unfold renderTree
  refine (loadContext_ends hread hsets).bind fun context hcontext => ?_
  refine (Tree.run_ends p source dest hcontext force).bind fun summary _ => ?_
  exact (Ends.lift _).bind fun _ _ => .pure trivial

theorem Command.renderTree_ne_targetEncoding {read : Context.Reader} (hread : read.KeepsUtf8) (p : Palette)
    (source dest : Path) {bindings : Bindings} (force : Bool) (hsets : ∀ s ∈ bindings.sets, Utf8.isValid s = true)
    (w : World) (path : Path) :
    (on (renderTree (m := StateM World) read p source dest bindings force) w).1 ≠ .error (.targetEncoding path) := by
  intro herror
  have hend := renderTree_ends hread p source dest force (fun s hs => Utf8.isValid_iff.1 (hsets s hs)) w
  rw [herror] at hend
  exact hend path rfl

/-- **Rendering keeps to UTF-8.**  Where the source of a template and all strings of the context are well-formed and all
functions are standard ones, whatever is written to a sink without bounds is well-formed, whether rendering comes to its
end or stops at an error.  So the rendering of a tree does not fail because a rendered name is no text, if assignments are
text and what is read of a context file that is text is text, too; and no command line makes it fail so. -/
theorem rendering_keeps_utf8 :
    (∀ {source : Bytes} {t : Template} {scope : Scope}, Utf8.isValid source = true → Template.parse source = .ok t →
      (∀ {name s : Bytes}, scope.context.find? name = some (.string s) → Utf8.isValid s = true) →
      scope.registry.IsStandard → Utf8.isValid (t.render Sink.memory scope .nothing).1.bytes = true) ∧
    (∀ {read : Context.Reader}, read.KeepsUtf8 → ∀ {source dest : Path} {bindings : Command.Bindings} {force : Bool},
      (∀ s ∈ bindings.sets, Utf8.isValid s = true) → ∀ (p : Palette) (w : World) (path : Path),
        (on (Command.renderTree read p source dest bindings force) w).1 ≠ .error (.targetEncoding path)) ∧
    ∀ {args : List Bytes} {source dest : Path} {bindings : Command.Bindings} {force : Bool},
      Command.ofArguments? args = some (.tree source dest bindings force) → ∀ (p : Palette) (w : World) (path : Path),
        (on (Command.run p (.tree source dest bindings force)) w).1 ≠ .error (.targetEncoding path) := by
  refine ⟨?_, ?_, ?_⟩
  · intro source t scope hsource hparse hstrings hregistry
    have hcontext : scope.context.IsText := by
      intro name v hv
      cases v with
      | string s => exact Utf8.isValid_iff.1 (hstrings hv)
      | bool b => trivial
    have htext := Template.isText_of_parse (Utf8.isValid_iff.1 hsource) hparse
    exact Utf8.isValid_iff.2 (Template.text_render htext ⟨hregistry, hcontext⟩)
  · intro read hread source dest bindings force hsets p w path
    exact Command.renderTree_ne_targetEncoding hread p source dest force hsets w path
  · intro args source dest bindings force hargs p w path
    have hsets := Command.ofArguments?_sets hargs
    exact Command.renderTree_ne_targetEncoding Context.keepsUtf8_json p source dest force hsets w path

/-- A name is not known here, so rendering stops after the first value. -/
def umlauts : Bytes := utf8 "ä{{ x | title }}{{ y }}"

def umlautArguments : List Bytes :=
  [utf8 "vie", utf8 "tree", utf8 "--set", utf8 "x=ö", utf8 "src", utf8 "out"]

theorem rendering_keeps_utf8_at_umlauts :
    (∃ t, Template.parse umlauts = .ok t ∧ (t.render Sink.memory ⟨.standard, SortedMap.empty.insert (utf8 "x")
      (.string (utf8 "öl")), .empty⟩ .nothing).1.bytes = utf8 "äöl" ∧ Utf8.isValid (utf8 "äöl") = true) ∧
    Command.ofArguments? umlautArguments = some (.tree (utf8 "src") (utf8 "out") ⟨none, [utf8 "x=ö"]⟩ false) ∧
    ∀ (w : World) (path : Path), (on (Command.run ⟨false⟩ (.tree (utf8 "src") (utf8 "out") ⟨none, [utf8 "x=ö"]⟩ false))
      w).1 ≠ .error (.targetEncoding path) := by
  have hargs : Command.ofArguments? umlautArguments =
      some (.tree (utf8 "src") (utf8 "out") ⟨none, [utf8 "x=ö"]⟩ false) := by cbv
  obtain ⟨t, ht, hbytes⟩ := Template.exists_of_map_eq_ok (s := umlauts) (f := fun t => (t.render Sink.memory
    ⟨.standard, SortedMap.empty.insert (utf8 "x") (.string (utf8 "öl")), .empty⟩ .nothing).1.bytes) (a := utf8 "äöl")
    (by cbv)
  refine ⟨⟨t, ht, hbytes, hbytes ▸ ?_⟩, hargs, rendering_keeps_utf8.2.2 hargs ⟨false⟩⟩
  refine rendering_keeps_utf8.1 (by decide_cbv) ht (fun hs => ?_) Registry.isStandard_standard
  rcases SortedMap.find?_insert_eq_some.1 hs with ⟨-, hs⟩ | ⟨-, hs⟩
  · cases hs
    decide_cbv
  · cases hs

end Stencil
