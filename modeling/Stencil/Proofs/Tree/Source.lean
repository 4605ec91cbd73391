import Stencil.Command.Tree
import Stencil.Proofs.Disk.Changes
import Stencil.Proofs.Host
/-!
# Source — what is read of a tree

Reading a source leaves the world as it is, and what it gives is an entry for everything that stands below the source
(`Tree.collect_eq_ok`).  The path of an entry is the path of the source followed by the names that lead to it.
-/
namespace Stencil

/-! ## What stands below a directory -/

namespace Disk

open Stencil.Path (IsEntryName)

variable {d : Disk} {l k names : Location} {p : Path} {n : Node}

theorem below?_eq_some : below? l k = some names ↔ k = l ++ names ∧ names ≠ [] := by
  induction l generalizing k with
  | nil =>
    rw [below?]
    split <;> grind
  | cons a l ih =>
    cases k with
    | nil => simp [below?]
    | cons b k =>
      rw [below?]
      split
      · simp_all
      · simp_all [eq_comm]

theorem found_of_walkOver {fs : List Found} (h : (walkOver fs).failure = none) : (walkOver fs).found = fs := by
  induction fs with
  | nil => rfl
  | cons f fs ih =>
    rw [walkOver] at h ⊢
    split at h
    · cases h
    · rename_i hf
      rw [if_neg hf]
      exact congrArg (f :: ·) (ih h)

def below (d : Disk) (l : Location) : List (Location × Node) :=
  d.nodes.toList.filterMap fun e => (below? l e.1).map fun names => (names, e.2)

theorem found_walk (hp : d.look p = .ok .dir) (h : (d.walk p).failure = none) :
    (d.walk p).found = (d.below (d.locate p)).map fun e => found p e.1 e.2 := by
  unfold walk at h ⊢
  rw [(look_eq_ok.1 hp).1] at h ⊢
  dsimp only at h ⊢
  rw [found_of_walkOver h, below, List.map_filterMap]
  simp only [Option.map_map]
  rfl

theorem mem_below : (names, n) ∈ d.below l ↔ names ≠ [] ∧ d.node? (l ++ names) = some n := by
  rw [below, List.mem_filterMap]
  constructor
  · rintro ⟨⟨k, m⟩, he, hf⟩
    obtain ⟨us, hk, heq⟩ := Option.map_eq_some_iff.1 hf
    cases heq
    obtain ⟨rfl, hne⟩ := below?_eq_some.1 hk
    rw [node?_of_ne_nil d (by simp [hne])]
    exact ⟨hne, SortedMap.find?_of_mem he⟩
  · rintro ⟨hne, hn⟩
    rw [node?_of_ne_nil d (by simp [hne])] at hn
    exact ⟨_, SortedMap.mem_of_find? hn, Option.map_eq_some_iff.2 ⟨names, below?_eq_some.2 ⟨rfl, hne⟩, rfl⟩⟩

/-- Nothing comes after what stands in it. -/
theorem pairwise_below (d : Disk) (l : Location) : (d.below l).Pairwise fun e f => ¬f.1 <+: e.1 := by
  refine List.pairwise_filterMap.2 (d.nodes.sorted.imp fun {e f} hlt us hus vs hvs => ?_)
  obtain ⟨names, he, rfl⟩ := Option.map_eq_some_iff.1 hus
  obtain ⟨names', hf, rfl⟩ := Option.map_eq_some_iff.1 hvs
  rintro ⟨ws, hws⟩
  dsimp only at hws
  have hlt' : lexLt names names' = true := by
    have hlex : lexLt e.1 f.1 = true := hlt
    rwa [(below?_eq_some.1 he).1, (below?_eq_some.1 hf).1, KeyOrder.lexLt_append_left] at hlex
  rw [← hws, KeyOrder.lexLt_append_self] at hlt'
  cases hlt'

end Disk

/-! ## Entries -/

namespace Tree

open Command.Run (on OnlyReads)

def nameSource (name : Bytes) : Node → Bytes
  | .dir => name
  | .file _ => (stem? name).getD name

def bodyOf (name : Bytes) : Node → Except ParseError Body
  | .dir => .ok .dir
  | .file c =>
    match stem? name with
    | some _ => (Template.parse c).map .rendered
    | none => .ok .copied

structure Describes (source : Path) (names : Location) (n : Node) (e : Entry) : Prop where
  source_eq : e.source = names.foldl Path.join source
  name : Template.parse (nameSource (names.getLast?.getD []) n) = .ok e.name
  body : bodyOf (names.getLast?.getD []) n = .ok e.body

theorem onlyReads_parse (path : Path) (s : Bytes) : OnlyReads (parse (m := StateM World) path s) := .ofExcept _ _

theorem onlyReads_readBody (f : Found) : OnlyReads (readBody (m := StateM World) f) := by
  unfold readBody
  split
  · exact .pure _
  · split
    · exact (OnlyReads.attempt (fun _ => rfl) _).bind fun _ => (onlyReads_parse _ _).bind fun _ => .pure _
    · exact .pure _

theorem onlyReads_readEntry (f : Found) : OnlyReads (readEntry (m := StateM World) f) := by
  unfold readEntry
  exact .unless ((onlyReads_readBody f).bind fun _ => (onlyReads_parse _ _).bind fun _ => .pure _) _

theorem onlyReads_collect (source : Path) : OnlyReads (collect (m := StateM World) source) := by
  unfold collect
  refine .bind (.lift fun _ => rfl) fun isDir => ?_
  refine .unless (.bind (.lift fun _ => rfl) fun walk => .bind (.mapM onlyReads_readEntry _) fun entries => ?_) _
  split
  · exact .pure _
  · exact .throw _

variable {w w' : World} {source : Path} {names : Location} {n : Node} {e : Entry}

theorem on_parse (path : Path) (s : Bytes) (w : World) :
    on (parse path s) w = ((Template.parse s).mapError (.parse path), w) := Command.Run.on_ofExcept _ _ _

theorem readFile_eq_of_node? (hwf : w.disk.WellFormed) (hsource : source ≠ [])
    (hn : w.disk.node? (w.disk.locate source ++ names) = some n) {c : Bytes}
    (hc : w.disk.readFile (names.foldl Path.join source) = .ok c) : n = .file c := by
  have hnode := (Disk.look_eq_ok.1 (Disk.readFile_eq_ok.1 hc)).2
  have hnames := hwf.names hn
  rw [Disk.locate_foldl_join _ hsource hnames, hn] at hnode
  exact Option.some.inj hnode

theorem readBody_eq_ok (hwf : w.disk.WellFormed) (hsource : source ≠ [])
    (hn : w.disk.node? (w.disk.locate source ++ names) = some n) {b : Body × Bytes}
    (h : on (readBody (Disk.found source names n)) w = (.ok b, w)) :
    bodyOf (names.getLast?.getD []) n = .ok b.1 ∧ b.2 = nameSource (names.getLast?.getD []) n := by
  unfold readBody at h
  cases n with
  | dir =>
    cases h
    exact ⟨rfl, rfl⟩
  | file c =>
    have hfile : (Disk.found source names (.file c)).isDir = false := rfl
    rw [hfile, if_neg Bool.noConfusion] at h
    dsimp only [Disk.found] at h
    cases hstem : stem? (names.getLast?.getD []) with
    | none =>
      rw [hstem] at h
      cases h
      exact ⟨by rw [bodyOf, hstem], by rw [nameSource, hstem]; rfl⟩
    | some stem =>
      rw [hstem] at h
      obtain ⟨src, v, hread, hparse⟩ := Command.Run.on_bind_eq_ok.1 h
      rw [Command.Run.on_attempt, World.run_readFile, Prod.mk.injEq, mapError_eq_ok] at hread
      obtain ⟨hread, rfl⟩ := hread
      obtain ⟨t, v, ht, hend⟩ := Command.Run.on_bind_eq_ok.1 hparse
      rw [on_parse, Prod.mk.injEq, mapError_eq_ok] at ht
      obtain ⟨ht, rfl⟩ := ht
      cases hend
      cases readFile_eq_of_node? hwf hsource hn hread
      exact ⟨by rw [bodyOf, hstem]; exact congrArg (Except.map Body.rendered) ht, by rw [nameSource, hstem]; rfl⟩

theorem readEntry_eq_ok (hwf : w.disk.WellFormed) (hsource : source ≠ [])
    (hn : w.disk.node? (w.disk.locate source ++ names) = some n)
    (h : on (readEntry (Disk.found source names n)) w = (.ok e, w)) : Describes source names n e := by
  have hrun : on (readBody (Disk.found source names n) >>= fun b => do
      return (⟨(Disk.found source names n).path, ← parse (Disk.found source names n).path b.2, b.1⟩ : Entry)) w =
      (.ok e, w) := by
    unfold readEntry at h
    split at h
    · exact h
    · rw [Command.Run.on_bind, Command.Run.on_throw] at h
      cases h
  obtain ⟨b, v, hb, hparse⟩ := Command.Run.on_bind_eq_ok.1 hrun
  obtain rfl := (onlyReads_readBody _).on_eq hb
  obtain ⟨hbody, hname⟩ := readBody_eq_ok hwf hsource hn hb
  obtain ⟨t, v', ht, hend⟩ := Command.Run.on_bind_eq_ok.1 hparse
  rw [on_parse, Prod.mk.injEq, mapError_eq_ok] at ht
  cases hend
  exact ⟨rfl, hname ▸ ht.1, hbody⟩

/-- **The entries of a source**, in their order, are those of what stands below it. -/
theorem collect_describes (hwf : w.disk.WellFormed) {entries : List Entry}
    (h : on (collect source) w = (.ok entries, w')) : w.disk.look source = .ok .dir ∧
      List.Forall₂ (fun b e => w.disk.node? (w.disk.locate source ++ b.1) = some b.2 ∧ Describes source b.1 b.2 e)
        (w.disk.below (w.disk.locate source)) entries := by
  unfold collect at h
  obtain ⟨isDir, v, hv, hrest⟩ := Command.Run.on_bind_eq_ok.1 h
  rw [Command.Run.on_lift, World.run_isDir] at hv
  cases hv
  split at hrest
  · rename_i hdir
    have hlook := Disk.isDir_iff.1 hdir
    have hsource := Disk.ne_nil_of_checkPath (Disk.checkPath_of_look hlook)
    obtain ⟨walk, v, hv, hrest⟩ := Command.Run.on_bind_eq_ok.1 hrest
    rw [Command.Run.on_lift, World.run_walk] at hv
    cases hv
    obtain ⟨bs, v, hbs, hend⟩ := Command.Run.on_bind_eq_ok.1 hrest
    have hread := Command.Run.on_mapM_eq_ok onlyReads_readEntry hbs
    split at hend
    · rename_i hfail
      cases hend
      rw [Disk.found_walk hlook hfail, List.forall₂_map_left_iff] at hread
      have hstands : ∀ b ∈ w.disk.below (w.disk.locate source), w.disk.node? (w.disk.locate source ++ b.1) = some b.2 :=
        fun b hb => (Disk.mem_below.1 hb).2
      refine ⟨hlook, ((List.forall₂_and_left _ _).2 ⟨hstands, hread⟩).imp fun b e hbe => ?_⟩
      exact ⟨hbe.1, readEntry_eq_ok hwf hsource hbe.1 hbe.2⟩
    · rw [Command.Run.on_throw] at hend
      cases hend
  · rw [Command.Run.on_bind, Command.Run.on_throw] at hrest
    cases hrest

theorem exists_of_forall₂ {α β : Type} {R : α → β → Prop} {as : List α} {bs : List β} (h : List.Forall₂ R as bs) :
    (∀ b ∈ bs, ∃ a ∈ as, R a b) ∧ ∀ a ∈ as, ∃ b ∈ bs, R a b := by
  induction h with
  | nil => exact ⟨nofun, nofun⟩
  | cons hab _ ih => simp_all

theorem collect_eq_ok (hwf : w.disk.WellFormed) {entries : List Entry}
    (h : on (collect source) w = (.ok entries, w')) : w.disk.look source = .ok .dir ∧
      (∀ e ∈ entries, ∃ names n, names ≠ [] ∧ w.disk.node? (w.disk.locate source ++ names) = some n ∧
        Describes source names n e) ∧
      ∀ names n, names ≠ [] → w.disk.node? (w.disk.locate source ++ names) = some n →
        ∃ e ∈ entries, Describes source names n e := by
  obtain ⟨hlook, hall⟩ := collect_describes hwf h
  obtain ⟨hentries, hbelow⟩ := exists_of_forall₂ hall
  refine ⟨hlook, fun e he => ?_, fun names n hne hn => ?_⟩
  · obtain ⟨⟨names, n⟩, hb, hn, hd⟩ := hentries e he
    exact ⟨names, n, (Disk.mem_below.1 hb).1, hn, hd⟩
  · obtain ⟨e, he, -, hd⟩ := hbelow _ (Disk.mem_below.2 ⟨hne, hn⟩)
    exact ⟨e, he, hd⟩

end Tree
end Stencil
