import Stencil.Proofs.Tree.Effect
/-!
# Layout — what a plan puts where

A listing of a source (`Tree.IsListing`) puts each directory before what is in it; collecting a source gives one
(`Tree.isListing_of_collect`).  A plan for a listing (`Tree.IsPlan`) puts everything into directories that it has made
itself, nothing where something else goes, and has one step for each entry whose name, and the names of the directories
around it, render to something (`Tree.plan_isPlan`).
-/
namespace Stencil
namespace Tree

open Command.Run (on)

variable {scope : Scope} {source dest : Path} {before after entries : List Entry} {e : Entry} {k : List Component}

/-! ## Listings -/

/-- The source has these components, or something that is listed does. -/
def IsListed (source : Path) (entries : List Entry) (k : List Component) : Prop :=
  k = source.components ∨ ∃ e ∈ entries, k = e.source.components

def IsListedDir (source : Path) (entries : List Entry) (k : List Component) : Prop :=
  k = source.components ∨ ∃ e ∈ entries, e.body = .dir ∧ k = e.source.components

theorem IsListed.concat (h : IsListed source entries k) (e : Entry) : IsListed source (entries ++ [e]) k :=
  h.imp_right fun ⟨f, hf, hk⟩ => ⟨f, List.mem_append_left _ hf, hk⟩

theorem IsListedDir.of_concat (h : IsListedDir source (entries ++ [e]) k) :
    IsListedDir source entries k ∨ e.body = .dir ∧ k = e.source.components := by
  rcases h with h | ⟨f, hf, hdir, hk⟩
  · exact .inl (.inl h)
  rcases List.mem_append.1 hf with hf | hf
  · exact .inl (.inr ⟨f, hf, hdir, hk⟩)
  · rw [List.mem_singleton.1 hf] at hdir hk
    exact .inr ⟨hdir, hk⟩

/-- Each entry stands in the source or in a directory that is listed, and comes neither twice nor after what stands
in it. -/
structure IsListing (source : Path) (entries : List Entry) : Prop where
  inside : ∀ e ∈ entries, ∃ k c, e.source.components = k ++ [c] ∧ IsListedDir source entries k
  ordered : entries.Pairwise fun e f => ¬f.source.components <+: e.source.components

theorem key_prefix_key {us vs : Location} (h : key source us <+: key source vs) : us <+: vs := by
  have hmap : us.map Component.name <+: vs.map Component.name := (List.prefix_append_right_inj _).1 h
  exact (List.prefix_map_iff_of_injective fun _ _ h => Component.name.inj h).1 hmap

/-- **What is collected from a source is a listing of it.** -/
theorem isListing_of_collect {w w' : World} (hwf : w.disk.WellFormed) (h : on (collect source) w = (.ok entries, w')) :
    IsListing source entries := by
  obtain ⟨hlook, hall⟩ := collect_describes hwf h
  have hsource := Disk.ne_nil_of_checkPath (Disk.checkPath_of_look hlook)
  have hkeys : List.Forall₂ (fun b e => key source b.1 = e.source.components)
      (w.disk.below (w.disk.locate source)) entries :=
    hall.imp fun b e hbe => (components_of_describes hsource (hwf.names hbe.1) hbe.2).symm
  obtain ⟨hentries, hbelow⟩ := exists_of_forall₂ hall
  constructor
  · intro e he
    obtain ⟨⟨names, n⟩, hb, hn, hd⟩ := hentries e he
    obtain ⟨us, u, rfl⟩ := (List.eq_nil_or_concat' names).resolve_left (Disk.mem_below.1 hb).1
    refine ⟨key source us, .name u, ?_, ?_⟩
    · rw [components_of_describes hsource (hwf.names hn) hd, key_concat]
    · by_cases hus : us = []
      · exact .inl (by simp [hus, key])
      · have hdir : w.disk.node? (w.disk.locate source ++ us) = some .dir := by
          refine hwf.parent _ u ?_
          rw [List.append_assoc, hn]
          exact Option.some_ne_none n
        obtain ⟨f, hf, -, hfd⟩ := hbelow (us, .dir) (Disk.mem_below.2 ⟨hus, hdir⟩)
        refine .inr ⟨f, hf, (Except.ok.inj hfd.body).symm, ?_⟩
        exact (components_of_describes hsource (hwf.names hdir) hfd).symm
  · have hmap : (w.disk.below (w.disk.locate source)).map (fun b => key source b.1) =
        entries.map fun e => e.source.components := by
      rw [← List.forall₂_eq_eq_eq]
      exact List.forall₂_map_left_iff.2 (List.forall₂_map_right_iff.2 hkeys)
    have hbelow : ((w.disk.below (w.disk.locate source)).map fun b => key source b.1).Pairwise fun i j => ¬j <+: i :=
      List.pairwise_map.2 ((Disk.pairwise_below _ _).imp (mt key_prefix_key))
    rw [hmap] at hbelow
    exact List.pairwise_map.1 hbelow

theorem IsListing.length_lt (h : IsListing source entries) (he : e ∈ entries) :
    source.components.length < e.source.components.length := by
  -- going up from an entry ends at the source: each directory on the way has one component less
  induction hn : e.source.components.length using Nat.strong_induction_on generalizing e with
  | _ n ih =>
    obtain ⟨k, c, hk, hdir⟩ := h.inside e he
    rw [hk, List.length_append, List.length_singleton] at hn
    rcases hdir with rfl | ⟨f, hf, -, rfl⟩
    · omega
    · have := ih _ (by omega) hf rfl
      omega

/-- What comes after other entries in a listing stands in the source or in a directory before it, and nothing before it
stands in it. -/
structure Follows (source : Path) (before : List Entry) (e : Entry) : Prop where
  parent : IsListedDir source before e.source.components.dropLast
  ne_nil : e.source.components ≠ []
  fresh : ∀ k, IsListed source before k → ¬e.source.components <+: k

theorem IsListing.follows (h : IsListing source (before ++ e :: after)) : Follows source before e := by
  have he : e ∈ before ++ e :: after := List.mem_append_right _ List.mem_cons_self
  obtain ⟨-, hafter, hcross⟩ := List.pairwise_append.1 h.ordered
  obtain ⟨k, c, hk, hdir⟩ := h.inside e he
  have hin : k <+: e.source.components := hk ▸ List.prefix_append k [c]
  refine ⟨?_, by simp [hk], fun j hj hprefix => ?_⟩
  · rw [hk, List.dropLast_concat]
    refine hdir.imp_right ?_
    rintro ⟨f, hf, hbody, rfl⟩
    refine ⟨f, ?_, hbody, rfl⟩
    rcases List.mem_append.1 hf with hf | hf
    · exact hf
    -- neither the entry itself nor what comes after it can be the directory it stands in
    rcases List.mem_cons.1 hf with rfl | hf
    · simp at hk
    · exact absurd hin ((List.pairwise_cons.1 hafter).1 f hf)
  · rcases hj with rfl | ⟨f, hf, rfl⟩
    · have := h.length_lt he
      have := hprefix.length_le
      omega
    · exact hcross f hf e List.mem_cons_self hprefix

/-! ## Plans -/

def Entry.isUnnamed (scope : Scope) (e : Entry) : Bool :=
  match e.name.output scope with
  | .ok [] => true
  | _ => false

/-- An entry whose name renders to nothing has these components, or what has them stands in it. -/
def leftOut (scope : Scope) (entries : List Entry) (k : List Component) : Bool :=
  entries.any fun e => e.source.components.isPrefixOf k && e.isUnnamed scope

def kept (scope : Scope) (entries : List Entry) : List Entry :=
  entries.filter fun e => !leftOut scope entries e.source.components

inductive ActionOf (scope : Scope) (e : Entry) : Action → Prop
  | createDir (h : e.body = .dir) : ActionOf scope e .createDir
  | copy (h : e.body = .copied) : ActionOf scope e (.copy e.source)
  | write {t : Template} {b : Bytes} (h : e.body = .rendered t) (hb : t.output scope = .ok b) :
      ActionOf scope e (.write b)

structure StepOf (scope : Scope) (e : Entry) (step : Path × Action) : Prop where
  target : ∃ (parent : Path) (name : Bytes), e.name.output scope = .ok name ∧ step.1 = parent.join name
  action : ActionOf scope e step.2

/-- The destination is made first, and everything else is put into a directory that is made before it. -/
inductive Contained (dest : Path) : List (Path × Action) → Prop
  | start : Contained dest [(dest, .createDir)]
  | step {steps : List (Path × Action)} {parent : Path} {name : Bytes} {a : Action} (h : Contained dest steps)
      (hp : (parent, .createDir) ∈ steps) (hn : IsTargetName name) : Contained dest (steps ++ [(parent.join name, a)])

structure Summary.Counts (s : Summary) (steps : List (Path × Action)) : Prop where
  dirs : s.dirs = steps.countP fun step => step.2 matches .createDir
  copied : s.copied = steps.countP fun step => step.2 matches .copy _
  rendered : s.rendered = steps.countP fun step => step.2 matches .write _

structure IsPlan (scope : Scope) (dest : Path) (entries : List Entry) (rest : List (Path × Action)) (s : Summary) :
    Prop where
  contained : Contained dest ((dest, .createDir) :: rest)
  /-- No two steps have one target, however it is spelled. -/
  distinct : ((dest, .createDir) :: rest).Pairwise fun s t => s.1.components ≠ t.1.components
  /-- There is one step for each entry that is not left out, in the order of the entries. -/
  complete : List.Forall₂ (StepOf scope) (kept scope entries) rest
  counts : s.Counts rest
  total : s.rendered + s.copied + s.dirs + s.skipped = entries.length

theorem Entry.isUnnamed_iff : e.isUnnamed scope = true ↔ e.name.output scope = .ok [] := by
  unfold Entry.isUnnamed
  split
  · simp [*]
  · rename_i h
    simpa using h

theorem leftOut_iff : leftOut scope entries k = true ↔
    ∃ e ∈ entries, e.source.components <+: k ∧ e.name.output scope = .ok [] := by
  simp [leftOut, Entry.isUnnamed_iff]

theorem leftOut_concat (scope : Scope) (entries : List Entry) (e : Entry) (k : List Component) :
    leftOut scope (entries ++ [e]) k =
      (leftOut scope entries k || (e.source.components.isPrefixOf k && e.isUnnamed scope)) := by
  simp [leftOut, List.any_append]

theorem Follows.leftOut_concat (h : Follows source before e) (hk : IsListed source before k) :
    leftOut scope (before ++ [e]) k = leftOut scope before k := by
  have hprefix : e.source.components.isPrefixOf k = false := by
    rw [Bool.eq_false_iff, Ne, List.isPrefixOf_iff_prefix]
    exact h.fresh k hk
  rw [Tree.leftOut_concat, hprefix, Bool.false_and, Bool.or_false]

theorem Follows.leftOut_self (h : Follows source before e) : leftOut scope (before ++ [e]) e.source.components =
    (leftOut scope before e.source.components.dropLast || e.isUnnamed scope) := by
  have hself : e.source.components.isPrefixOf e.source.components = true := by simp
  have hbefore : leftOut scope before e.source.components = leftOut scope before e.source.components.dropLast := by
    rw [Bool.eq_iff_iff, leftOut_iff, leftOut_iff]
    constructor
    · rintro ⟨f, hf, hprefix, hname⟩
      refine ⟨f, hf, ?_, hname⟩
      rw [← List.dropLast_append_getLast h.ne_nil] at hprefix
      refine (List.prefix_concat_iff.1 hprefix).resolve_left fun heq => ?_
      rw [List.dropLast_append_getLast] at heq
      exact h.fresh _ (.inr ⟨f, hf, rfl⟩) (heq ▸ List.prefix_rfl)
    · rintro ⟨f, hf, hprefix, hname⟩
      exact ⟨f, hf, hprefix.trans (List.dropLast_prefix _), hname⟩
  rw [Tree.leftOut_concat, hself, Bool.true_and, hbefore]

theorem Follows.kept_concat (h : Follows source before e) : kept scope (before ++ [e]) =
    kept scope before ++ if leftOut scope (before ++ [e]) e.source.components then [] else [e] := by
  have hbefore : before.filter (fun f => !leftOut scope (before ++ [e]) f.source.components) = kept scope before :=
    List.filter_congr fun f hf => by rw [h.leftOut_concat (.inr ⟨f, hf, rfl⟩)]
  rw [kept, List.filter_append, hbefore, List.filter_singleton]
  cases leftOut scope (before ++ [e]) e.source.components <;> rfl

theorem actionOf_of_action {a : Action} (h : action scope e = .ok a) : ActionOf scope e a := by
  unfold action at h
  split at h
  · cases h
    exact .createDir ‹_›
  · cases h
    exact .copy ‹_›
  · rename_i t hbody
    obtain ⟨b, hb, rfl⟩ := map_eq_ok.1 h
    exact .write hbody (outputAt_eq_ok.1 hb)

theorem Contained.prefix_components {steps : List (Path × Action)} (h : Contained dest steps) :
    ∀ step ∈ steps, dest.components <+: step.1.components := by
  induction h with
  | start => simp
  | @step steps parent name a _ hp hn ih =>
    intro s hs
    rcases List.mem_append.1 hs with hs | hs
    · exact ih s hs
    · rw [List.mem_singleton.1 hs, Path.components_join parent hn.toIsEntryName]
      exact (ih _ hp).trans (List.prefix_append _ _)

theorem Summary.Counts.place {p : Planning} {rest : List (Path × Action)} {a : Action} (h : p.summary.Counts rest)
    (ha : ActionOf scope e a) (target : Path) : (p.place e target).summary.Counts (rest ++ [(target, a)]) := by
  obtain ⟨hdirs, hcopied, hrendered⟩ := h
  cases ha with
  | createDir hbody | copy hbody | write hbody => constructor <;> simp [Planning.place, *]

theorem IsPlan.skip {rest : List (Path × Action)} {s : Summary} (h : IsPlan scope dest entries rest s)
    (hf : Follows source entries e) (hleft : leftOut scope (entries ++ [e]) e.source.components = true) :
    IsPlan scope dest (entries ++ [e]) rest { s with skipped := s.skipped + 1 } := by
  refine ⟨h.contained, h.distinct, ?_, ⟨h.counts.dirs, h.counts.copied, h.counts.rendered⟩, ?_⟩
  · rw [hf.kept_concat, if_pos hleft, List.append_nil]
    exact h.complete
  · have := h.total
    rw [List.length_append, List.length_singleton]
    dsimp only
    omega

theorem IsPlan.place {p : Planning} {rest : List (Path × Action)} {parent : Path} {name : Bytes} {a : Action}
    (h : IsPlan scope dest entries rest p.summary) (hf : Follows source entries e)
    (hleft : leftOut scope (entries ++ [e]) e.source.components = false)
    (hp : (parent, .createDir) ∈ (dest, .createDir) :: rest) (hname : e.name.output scope = .ok name)
    (hn : IsTargetName name) (ha : ActionOf scope e a)
    (hfree : ∀ step ∈ rest, step.1.components ≠ (parent.join name).components) :
    IsPlan scope dest (entries ++ [e]) (rest ++ [(parent.join name, a)]) (p.place e (parent.join name)).summary := by
  have htarget := Path.components_join parent hn.toIsEntryName
  refine ⟨h.contained.step hp hn, ?_, ?_, h.counts.place ha _, ?_⟩
  · have hdistinct : ∀ step ∈ (dest, .createDir) :: rest, step.1.components ≠ (parent.join name).components := by
      intro step hstep
      rcases List.mem_cons.1 hstep with rfl | hstep
      · -- the destination itself is above everything that is placed
        have hlen : dest.components.length ≤ parent.components.length := (h.contained.prefix_components _ hp).length_le
        intro heq
        have heq := congrArg List.length heq
        rw [htarget, List.length_append, List.length_singleton] at heq
        dsimp only at heq
        omega
      · exact hfree step hstep
    refine List.pairwise_append.2 ⟨h.distinct, List.pairwise_singleton _ _, fun s hs t ht => ?_⟩
    rw [List.mem_singleton.1 ht]
    exact hdistinct s hs
  · rw [hf.kept_concat, if_neg (by simp [hleft])]
    exact List.rel_append h.complete (.cons ⟨⟨parent, name, hname, rfl⟩, ha⟩ .nil)
  · have := h.total
    rw [List.length_append, List.length_singleton]
    cases hbody : e.body <;> simp only [Planning.place, hbody] <;> omega

/-! ## Planning -/

/-- What is known of the directories after some entries have been planned: each is placed where an earlier step makes a
directory, or it is left out. -/
structure Placement (scope : Scope) (source : Path) (entries : List Entry)
    (m : SortedMap (List Component) (Option Path)) (steps : List (Path × Action)) : Prop where
  known : ∀ k, IsListedDir source entries k → m.find? k ≠ none
  listed : ∀ k, m.find? k ≠ none → IsListed source entries k
  skipped : ∀ k, m.find? k = some none → leftOut scope entries k = true
  placed : ∀ k path, m.find? k = some (some path) → leftOut scope entries k = false ∧ (path, .createDir) ∈ steps

namespace Placement

variable {m : SortedMap (List Component) (Option Path)} {steps steps' : List (Path × Action)}

theorem leftOut_concat (h : Placement scope source entries m steps) (hf : Follows source entries e) {path? : Option Path}
    (hk : m.find? k = some path?) : leftOut scope (entries ++ [e]) k = leftOut scope entries k :=
  hf.leftOut_concat (h.listed k (by simp [hk]))

theorem keep (h : Placement scope source entries m steps) (hf : Follows source entries e) (hbody : e.body ≠ .dir)
    (hsteps : steps ⊆ steps') : Placement scope source (entries ++ [e]) m steps' := by
  refine ⟨fun k hk => ?_, fun k hk => (h.listed k hk).concat e, fun k hk => ?_, fun k path hk => ?_⟩
  · rcases hk.of_concat with hk | ⟨hdir, -⟩
    · exact h.known k hk
    · exact absurd hdir hbody
  · rw [h.leftOut_concat hf hk]
    exact h.skipped k hk
  · obtain ⟨hplaced, hmade⟩ := h.placed k path hk
    exact ⟨(h.leftOut_concat hf hk).trans hplaced, hsteps hmade⟩

theorem insert (h : Placement scope source entries m steps) (hf : Follows source entries e) {path? : Option Path}
    (hnone : path? = none → leftOut scope (entries ++ [e]) e.source.components = true)
    (hsome : ∀ path, path? = some path → leftOut scope (entries ++ [e]) e.source.components = false ∧
      (path, .createDir) ∈ steps') (hsteps : steps ⊆ steps') :
    Placement scope source (entries ++ [e]) (m.insert e.source.components path?) steps' := by
  refine ⟨fun k hk hfind => ?_, fun k hk => ?_, fun k hk => ?_, fun k path hk => ?_⟩
  · obtain ⟨hne, hfind⟩ := SortedMap.find?_insert_eq_none.1 hfind
    rcases hk.of_concat with hk | ⟨-, hk⟩
    · exact h.known k hk hfind
    · exact hne hk
  · by_cases heq : k = e.source.components
    · exact .inr ⟨e, by simp, heq⟩
    · rw [SortedMap.find?_insert_of_ne heq] at hk
      exact (h.listed k hk).concat e
  · rcases SortedMap.find?_insert_eq_some.1 hk with ⟨rfl, hpath⟩ | ⟨-, hk⟩
    · exact hnone hpath.symm
    · rw [h.leftOut_concat hf hk]
      exact h.skipped k hk
  · rcases SortedMap.find?_insert_eq_some.1 hk with ⟨rfl, hpath⟩ | ⟨-, hk⟩
    · exact hsome path hpath.symm
    · obtain ⟨hplaced, hmade⟩ := h.placed k path hk
      exact ⟨(h.leftOut_concat hf hk).trans hplaced, hsteps hmade⟩

end Placement

structure Planned (scope : Scope) (source dest : Path) (entries : List Entry) (p : Planning)
    (rest : List (Path × Action)) : Prop extends IsPlan scope dest entries rest p.summary where
  placement : Placement scope source entries p.placed ((dest, .createDir) :: rest)
  owned : ∀ step ∈ rest, p.owners.find? step.1.components ≠ none

theorem planned_start (scope : Scope) (source dest : Path) : Planned scope source dest [] (.start source dest) [] := by
  have hnone : leftOut scope [] source.components = false := rfl
  refine ⟨⟨.start, List.pairwise_singleton _ _, .nil, ⟨rfl, rfl, rfl⟩, rfl⟩, ?_, nofun⟩
  refine ⟨fun k hk => ?_, fun k hk => ?_, fun k hk => ?_, fun k path hk => ?_⟩
  · obtain rfl : k = source.components := hk.resolve_right (by simp)
    rw [find?_placed_start.2 ⟨rfl, rfl⟩]
    nofun
  · obtain ⟨path?, hpath⟩ := Option.ne_none_iff_exists'.1 hk
    exact .inl (find?_placed_start.1 hpath).1
  · cases (find?_placed_start.1 hk).2
  · obtain ⟨rfl, hpath⟩ := find?_placed_start.1 hk
    cases hpath
    exact ⟨hnone, List.mem_cons_self⟩

/-- **One more entry**: it is left out, or there is one more step. -/
theorem Planned.planEntry {p p' : Planning} {rest : List (Path × Action)} {step? : Option (Path × Action)}
    (h : Planned scope source dest entries p rest) (hf : Follows source entries e)
    (hplan : Tree.planEntry scope p e = .ok (p', step?)) :
    Planned scope source dest (entries ++ [e]) p' (rest ++ step?.toList) := by
  rcases planEntry_eq_ok hplan with ⟨rfl, rfl, hskip⟩ | ⟨parent, name, a, hparent, hname, hn, howner, ha, rfl, rfl⟩
  · have hleft : leftOut scope (entries ++ [e]) e.source.components = true := by
      rw [hf.leftOut_self, Bool.or_eq_true, Entry.isUnnamed_iff]
      exact hskip.imp (h.placement.skipped _) And.right
    rw [Option.toList_none, List.append_nil]
    exact ⟨h.toIsPlan.skip hf hleft, h.placement.insert hf (fun _ => hleft) (by simp) (List.Subset.refl _), h.owned⟩
  · obtain ⟨hplaced, hmade⟩ := h.placement.placed _ _ hparent
    have hleft : leftOut scope (entries ++ [e]) e.source.components = false := by
      rw [hf.leftOut_self, hplaced, Bool.false_or, Bool.eq_false_iff, Ne, Entry.isUnnamed_iff, hname]
      exact fun hempty => hn.ne_nil (Except.ok.inj hempty)
    have hfree : ∀ step ∈ rest, step.1.components ≠ (parent.join name).components :=
      fun step hstep heq => h.owned step hstep (heq ▸ howner)
    have hsteps : (dest, .createDir) :: rest ⊆ (dest, .createDir) :: (rest ++ [(parent.join name, a)]) :=
      List.cons_subset_cons _ (List.subset_append_left _ _)
    have haction := actionOf_of_action ha
    refine ⟨h.toIsPlan.place hf hleft hmade hname hn haction hfree, ?_, fun step hstep => ?_⟩
    · cases haction with
      | createDir hbody =>
        have hm : (p.place e (parent.join name)).placed = p.placed.insert e.source.components (some (parent.join name)) := by
          simp only [Planning.place, hbody]
        rw [hm]
        refine h.placement.insert hf (by simp) (fun path hpath => ⟨hleft, ?_⟩) hsteps
        rw [← Option.some.inj hpath]
        exact List.mem_cons_of_mem _ (List.mem_append_right _ (List.mem_singleton_self _))
      | copy hbody | write hbody =>
        have hm : (p.place e (parent.join name)).placed = p.placed := by simp only [Planning.place, hbody]
        rw [hm]
        exact h.placement.keep hf (by simp [hbody]) hsteps
    · rw [owners_place]
      rcases List.mem_append.1 hstep with hstep | hstep
      · exact fun hfind => h.owned step hstep (SortedMap.find?_insert_eq_none.1 hfind).2
      · rw [List.mem_singleton.1 hstep, SortedMap.find?_insert_self]
        exact Option.some_ne_none _

/-- **What a plan without an error comes to**, from any point of a listing on. -/
theorem Planned.run {p : Planning} {rest steps : List (Path × Action)} {summary : Summary}
    (h : Planned scope source dest before p rest) (hlist : IsListing source (before ++ after))
    (hplan : planEntries scope p after = (steps, .ok summary)) :
    IsPlan scope dest (before ++ after) (rest ++ steps) summary := by
  -- what has been planned moves from `after` to `before`, so that the listing as a whole stays the same
  induction after generalizing before p rest steps with
  | nil =>
    cases hplan
    rw [List.append_nil, List.append_nil]
    exact h.toIsPlan
  | cons e after ih =>
    obtain ⟨p', step?, steps', hone, hrest, rfl⟩ := planEntries_cons_eq_ok hplan
    have hnext := h.planEntry hlist.follows hone
    rw [List.append_cons] at hlist ⊢
    rw [← List.append_assoc]
    exact ih hnext hlist hrest

theorem planEntry_ne_unvisitedParent {p : Planning} (hp : p.placed.find? e.source.components.dropLast ≠ none)
    (path : Path) : planEntry scope p e ≠ .error (.unvisitedParent path) := by
  intro h
  rcases planEntry_eq_error h with ⟨-, hnone⟩ | ⟨r, hr⟩ | ⟨name, -, ⟨hr, -⟩ | ⟨hr, -⟩ | ⟨other, target, hr, -⟩⟩
  · exact hp hnone
  all_goals cases hr

/-- Each directory of a listing is known when something in it is planned. -/
theorem Planned.ne_unvisitedParent {p : Planning} {rest : List (Path × Action)}
    (h : Planned scope source dest before p rest) (hlist : IsListing source (before ++ after)) (path : Path) :
    (planEntries scope p after).2 ≠ .error (.unvisitedParent path) := by
  induction after generalizing before p rest with
  | nil => nofun
  | cons e after ih =>
    have hknown := h.placement.known _ hlist.follows.parent
    rw [planEntries]
    split
    · rename_i err herr
      intro heq
      rw [Except.error.inj heq] at herr
      exact planEntry_ne_unvisitedParent hknown path herr
    · rename_i p' hone
      have hnext := h.planEntry hlist.follows hone
      rw [List.append_cons] at hlist
      exact ih hnext hlist
    · rename_i p' step hone
      have hnext := h.planEntry hlist.follows hone
      rw [List.append_cons] at hlist
      exact ih hnext hlist

/-- **A plan is contained, without collisions and complete.**  Collecting a source gives a listing.  Planning a listing
never misses the directory that an entry stands in, and a plan without an error makes the destination first, puts
everything else into directories it has made, nothing where something else goes, and has one step for each entry that is
not left out. -/
theorem plan_isPlan (scope : Scope) (source dest : Path) :
    (∀ w w' entries, w.disk.WellFormed → on (collect source) w = (.ok entries, w') → IsListing source entries) ∧
    ∀ entries, IsListing source entries →
      (∀ path, (plan scope source dest entries).2 ≠ .error (.unvisitedParent path)) ∧
      ∀ steps summary, plan scope source dest entries = (steps, .ok summary) →
        ∃ rest, steps = (dest, .createDir) :: rest ∧ IsPlan scope dest entries rest summary := by
  refine ⟨fun w w' entries hwf h => isListing_of_collect hwf h, fun entries hlist => ?_⟩
  refine ⟨fun path => ?_, fun steps summary h => ?_⟩
  · exact (planned_start scope source dest).ne_unvisitedParent hlist path
  · obtain ⟨hsteps, hr⟩ := Prod.mk.inj h
    refine ⟨_, hsteps.symm, ?_⟩
    exact (planned_start scope source dest).run hlist (Prod.ext rfl hr)

def smallEntries : List Entry :=
  match (on (collect (utf8 "src")) smallTree).1 with
  | .ok entries => entries
  | .error _ => []

theorem plan_isPlan_at_smallTree : smallTree.disk.WellFormed ∧
    on (collect (utf8 "src")) smallTree = (.ok smallEntries, smallTree) ∧ IsListing (utf8 "src") smallEntries ∧
    ∃ rest, plan (scopeOf smallContext smallEntries) (utf8 "src") (utf8 "o/out") smallEntries =
        ((utf8 "o/out", .createDir) :: rest, .ok ⟨1, 1, 0, 2⟩) ∧
      IsPlan (scopeOf smallContext smallEntries) (utf8 "o/out") smallEntries rest ⟨1, 1, 0, 2⟩ := by
  have hok : (on (collect (utf8 "src")) smallTree).1.isOk = true := by decide_cbv
  have hresult : (on (collect (utf8 "src")) smallTree).1 = .ok smallEntries := by
    unfold smallEntries
    cases h : (on (collect (utf8 "src")) smallTree).1 with
    | error e =>
      rw [h] at hok
      cases hok
    | ok entries => rfl
  have hcollect : on (collect (utf8 "src")) smallTree = (.ok smallEntries, smallTree) :=
    Prod.ext hresult (onlyReads_collect _ smallTree)
  have hsummary : (plan (scopeOf smallContext smallEntries) (utf8 "src") (utf8 "o/out") smallEntries).2 =
      .ok ⟨1, 1, 0, 2⟩ := by decide_cbv
  have hwf : smallTree.disk.WellFormed := by decide
  obtain ⟨hcollected, hplans⟩ :=
    plan_isPlan (scopeOf smallContext smallEntries) (utf8 "src") (utf8 "o/out")
  have hlist := hcollected _ _ _ hwf hcollect
  obtain ⟨rest, hsteps, hplan⟩ := (hplans _ hlist).2 _ _ (Prod.ext rfl hsummary)
  exact ⟨hwf, hcollect, hlist, rest, Prod.ext hsteps hsummary, hplan⟩

end Tree
end Stencil
