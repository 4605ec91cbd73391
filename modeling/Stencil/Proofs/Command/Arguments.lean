import Stencil.Command.Arguments
/-!
# Arguments — what command lines can ask for

What a command line asks for is read off its arguments by one of the four commands (`Command.ofArguments?_cases`), after
the paths and the assignments among them have been looked at: no path is empty (`Command.ofArguments?_paths`), and every
assignment is text (`Command.ofArguments?_sets`).
-/
namespace Stencil
namespace Command

variable {args : List Bytes} {c : Command} {g : Given} {allowed : List Opt} {verbose : Bool}

def paths : Command → List Path
  | .render template bindings output _ => template :: (bindings.file.toList ++ output.toList)
  | .check files _ => files
  | .tree source dest bindings _ => source :: dest :: bindings.file.toList
  | .format _ files => files

def sets : Command → List Bytes
  | .render _ bindings _ _ => bindings.sets
  | .check _ _ => []
  | .tree _ _ bindings _ => bindings.sets
  | .format _ _ => []

theorem ne_nil_of_properly? (h : properly? allowed args = some g) : (∀ p ∈ g.positionals, p ≠ []) ∧
    ∀ o, o ≠ .set → ∀ v, g.value? o = some v → v ≠ [] := by
  have hproper := (Option.filter_eq_some_iff.1 h).2
  simp only [Given.isProper, Bool.and_eq_true, List.all_eq_true] at hproper
  obtain ⟨⟨-, hvalues⟩, hpositionals⟩ := hproper
  constructor
  · rintro p hp rfl
    exact absurd (hpositionals [] hp) nofun
  · rintro o ho v hv rfl
    obtain ⟨us, vs, heq, -⟩ := List.lookup_eq_some_iff.1 hv
    have := hvalues (o, []) (by rw [heq]; simp)
    simp [ho] at this

theorem isValid_of_properly? (h : properly? allowed args = some g) : ∀ s ∈ g.bindings.sets, Utf8.isValid s = true := by
  have hproper := (Option.filter_eq_some_iff.1 h).2
  simp only [Given.isProper, Bool.and_eq_true, List.all_eq_true] at hproper
  intro s hs
  obtain ⟨⟨o, value⟩, hv, rfl⟩ := List.mem_map.1 hs
  obtain ⟨hmem, ho⟩ := List.mem_filter.1 hv
  have hvalue := hproper.1.2 (o, value) hmem
  rwa [if_pos (of_decide_eq_true ho)] at hvalue

theorem render?_paths (h : render? args = some c) : ∀ p ∈ c.paths, p ≠ [] := by
  obtain ⟨g, hg, h⟩ := Option.bind_eq_some_iff.1 h
  obtain ⟨hpositionals, hvalues⟩ := ne_nil_of_properly? hg
  split at h
  · rename_i template heq
    cases h
    intro p hp
    simp only [paths, List.mem_cons, List.mem_append, Option.mem_toList] at hp
    rcases hp with rfl | hp | hp
    · exact hpositionals p (by simp [heq])
    · exact hvalues .context (by decide) p hp
    · exact hvalues .output (by decide) p hp
  · cases h

theorem check?_paths (h : check? args = some c) : ∀ p ∈ c.paths, p ≠ [] := by
  obtain ⟨g, hg, h⟩ := Option.bind_eq_some_iff.1 h
  split at h <;> cases h
  exact (ne_nil_of_properly? hg).1

theorem tree?_paths (h : tree? args = some c) : ∀ p ∈ c.paths, p ≠ [] := by
  obtain ⟨g, hg, h⟩ := Option.bind_eq_some_iff.1 h
  obtain ⟨hpositionals, hvalues⟩ := ne_nil_of_properly? hg
  split at h
  · rename_i source dest heq
    cases h
    intro p hp
    simp only [paths, List.mem_cons, Option.mem_toList] at hp
    rcases hp with rfl | rfl | hp
    · exact hpositionals p (by simp [heq])
    · exact hpositionals p (by simp [heq])
    · exact hvalues .context (by decide) p hp
  · cases h

theorem format?_paths (h : format? args = some c) : ∀ p ∈ c.paths, p ≠ [] := by
  obtain ⟨g, hg, h⟩ := Option.bind_eq_some_iff.1 h
  dsimp only at h
  split at h <;> cases h <;> exact (ne_nil_of_properly? hg).1

/-! ## Command lines -/

theorem named?_cases {name : Bytes} (h : named? name args = some c) :
    render? args = some c ∨ check? args = some c ∨ tree? args = some c := by
  unfold named? at h
  split at h
  · exact .inl h
  · split at h
    · exact .inr (.inl h)
    · split at h
      · exact .inr (.inr h)
      · cases h

theorem template?_cases (h : template? verbose args = some c) :
    ∃ rest, render? rest = some c ∨ check? rest = some c ∨ tree? rest = some c := by
  induction args generalizing verbose with
  | nil => cases h
  | cons s rest ih =>
    rw [template?] at h
    split at h
    · exact ⟨rest, named?_cases h⟩
    · split at h
      · cases h
      · exact ih h
    · cases h

theorem ofArguments?_cases (h : ofArguments? args = some c) :
    ∃ rest, render? rest = some c ∨ check? rest = some c ∨ tree? rest = some c ∨ format? rest = some c := by
  unfold ofArguments? at h
  split at h
  · cases h
  · split at h
    · obtain ⟨rest, hrender | hcheck | htree⟩ := template?_cases h
      · exact ⟨rest, .inl hrender⟩
      · exact ⟨rest, .inr (.inl hcheck)⟩
      · exact ⟨rest, .inr (.inr (.inl htree))⟩
    · split at h
      · exact ⟨_, .inr (.inr (.inr h))⟩
      · cases h

/-- **No command line asks for an empty path.** -/
theorem ofArguments?_paths (h : ofArguments? args = some c) : ∀ p ∈ c.paths, p ≠ [] := by
  obtain ⟨rest, h | h | h | h⟩ := ofArguments?_cases h
  · exact render?_paths h
  · exact check?_paths h
  · exact tree?_paths h
  · exact format?_paths h

/-- **The assignments of a command line are text.** -/
theorem ofArguments?_sets (h : ofArguments? args = some c) : ∀ s ∈ c.sets, Utf8.isValid s = true := by
  obtain ⟨rest, h | h | h | h⟩ := ofArguments?_cases h
  · obtain ⟨g, hg, h⟩ := Option.bind_eq_some_iff.1 h
    split at h <;> cases h
    exact isValid_of_properly? hg
  · obtain ⟨g, hg, h⟩ := Option.bind_eq_some_iff.1 h
    split at h <;> cases h
    exact nofun
  · obtain ⟨g, hg, h⟩ := Option.bind_eq_some_iff.1 h
    split at h <;> cases h
    exact isValid_of_properly? hg
  · obtain ⟨g, hg, h⟩ := Option.bind_eq_some_iff.1 h
    dsimp only at h
    split at h <;> cases h <;> exact nofun

end Command
end Stencil
