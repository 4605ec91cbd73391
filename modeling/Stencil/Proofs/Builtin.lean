import Mathlib.Data.FinEnum
import Mathlib.Data.List.TakeWhile
import Stencil.Builtin
/-!
# Builtin — the laws of the functions on strings

Upper case, lower case and title case do not look at the case of what they are given, and change nothing but case
(`Bytes.Recases`).  So of two of them in a row only the later one counts (`Bytes.Recases.absorb`).  Trimming takes the
white space off both ends of a string.  White space has no case, and a word starts behind it wherever it was cut, so a
change of case may as well come before the trimming as after it (`Bytes.Recases.trim_eq`).
-/
namespace Stencil

/-! ## Bytes -/

namespace Byte

def isLetter (b : UInt8) : Bool := isUpper b || isLower b

@[simp] theorem toUpper_toLower : ∀ b : UInt8, toUpper (toLower b) = toUpper b := by decide +kernel

@[simp] theorem toLower_toUpper : ∀ b : UInt8, toLower (toUpper b) = toLower b := by decide +kernel

@[simp] theorem toLower_toLower : ∀ b : UInt8, toLower (toLower b) = toLower b := by decide +kernel

@[simp] theorem isSpace_toLower : ∀ b : UInt8, isSpace (toLower b) = isSpace b := by decide +kernel

@[simp] theorem isLetter_toLower : ∀ b : UInt8, isLetter (toLower b) = isLetter b := by decide +kernel

theorem isLetter_of_isSpace : ∀ {b : UInt8}, isSpace b = true → isLetter b = false := by decide +kernel

theorem toLower_of_not_isLetter {b : UInt8} (h : isLetter b = false) : toLower b = b := by
  rw [isLetter, Bool.or_eq_false_iff] at h
  rw [toLower, h.1]
  rfl

theorem eq_of_toLower_eq {b c : UInt8} (h : toLower c = toLower b) (hb : isLetter b = false) : c = b := by
  have hc : isLetter c = false := by rw [← isLetter_toLower, h, isLetter_toLower, hb]
  rw [← toLower_of_not_isLetter hc, h, toLower_of_not_isLetter hb]

end Byte

namespace Bytes

open Byte (isSpace isLetter)

def IsWhite (s : Bytes) : Prop := ∀ b ∈ s, isSpace b = true

theorem IsWhite.nil : IsWhite [] := nofun

theorem IsWhite.reverse {s : Bytes} (h : s.IsWhite) : IsWhite s.reverse := fun b hb => h b (List.mem_reverse.1 hb)

theorem IsWhite.append {s t : Bytes} (hs : s.IsWhite) (ht : t.IsWhite) : IsWhite (s ++ t) :=
  fun b hb => (List.mem_append.1 hb).elim (hs b) (ht b)

/-! ## Case -/

variable {f g : Bytes → Bytes} {s t : Bytes}

theorem getElem?_of_toLower_eq (h : t.toLower = s.toLower) {i : Nat} {b : UInt8} (hi : s[i]? = some b)
    (hb : isLetter b = false) : t[i]? = some b := by
  have hlower := congrArg (fun u : Bytes => u[i]?) h
  simp only [toLower, List.getElem?_map, hi, Option.map_some] at hlower
  obtain ⟨c, hc, hcb⟩ := Option.map_eq_some_iff.1 hlower
  rw [hc, Byte.eq_of_toLower_eq hcb hb]

theorem length_of_toLower_eq (h : t.toLower = s.toLower) : t.length = s.length := by
  simpa only [toLower, List.length_map] using congrArg List.length h

theorem eq_of_toLower_eq_of_isWhite (h : t.toLower = s.toLower) (hs : s.IsWhite) : t = s := by
  refine List.ext_getElem? fun i => ?_
  cases hi : s[i]? with
  | some b => exact getElem?_of_toLower_eq h hi (Byte.isLetter_of_isSpace (hs b (List.mem_of_getElem? hi)))
  | none =>
    rw [List.getElem?_eq_none_iff] at hi ⊢
    rwa [length_of_toLower_eq h]

theorem map_isSpace_of_toLower_eq (h : t.toLower = s.toLower) : t.map isSpace = s.map isSpace := by
  have hmap : ∀ u : Bytes, u.toLower.map isSpace = u.map isSpace := fun u => by
    rw [toLower, List.map_map]
    exact List.map_congr_left fun b _ => Byte.isSpace_toLower b
  rw [← hmap t, h, hmap s]

/-- A change of case: it does not look at the case that bytes have, changes nothing but their case, and does the same
inside of white space. -/
structure Recases (f : Bytes → Bytes) : Prop where
  blind : ∀ s, f s.toLower = f s
  keeps : ∀ s, (f s).toLower = s.toLower
  around : ∀ {w₁ t w₂ : Bytes}, w₁.IsWhite → w₂.IsWhite → f (w₁ ++ (t ++ w₂)) = w₁ ++ (f t ++ w₂)

/-- **Of two changes of case only the later one counts.** -/
theorem Recases.absorb (hf : Recases f) (hg : Recases g) (s : Bytes) : f (g s) = f s := by
  rw [← hf.blind, hg.keeps, hf.blind]

theorem recases_map {c : UInt8 → UInt8} (hblind : ∀ b, c (Byte.toLower b) = c b)
    (hkeeps : ∀ b, Byte.toLower (c b) = Byte.toLower b) : Recases (List.map c) := by
  have hkeep : ∀ s : Bytes, toLower (s.map c) = s.toLower := fun s => by
    rw [toLower, toLower, List.map_map]
    exact List.map_congr_left fun b _ => hkeeps b
  refine ⟨fun s => ?_, hkeep, fun {w₁ t w₂} h₁ h₂ => ?_⟩
  · rw [toLower, List.map_map]
    exact List.map_congr_left fun b _ => hblind b
  · rw [List.map_append, List.map_append, eq_of_toLower_eq_of_isWhite (hkeep w₁) h₁,
      eq_of_toLower_eq_of_isWhite (hkeep w₂) h₂]

theorem recases_toUpper : Recases toUpper := recases_map Byte.toUpper_toLower Byte.toLower_toUpper

theorem recases_toLower : Recases toLower := recases_map Byte.toLower_toLower Byte.toLower_toLower

theorem titleFrom_toLower : ∀ (start : Bool) (s : Bytes), titleFrom start s.toLower = titleFrom start s
  | _, [] => rfl
  | start, b :: s => by
    have ih := titleFrom_toLower (isSpace b) s
    rw [toLower] at ih ⊢
    rw [List.map_cons, titleFrom, Byte.isSpace_toLower, ih, Byte.toUpper_toLower, Byte.toLower_toLower, titleFrom]

theorem toLower_titleFrom : ∀ (start : Bool) (s : Bytes), (titleFrom start s).toLower = s.toLower
  | _, [] => rfl
  | start, b :: s => by
    have ih := toLower_titleFrom (isSpace b) s
    rw [toLower, toLower] at ih ⊢
    rw [titleFrom, List.map_cons, ih, List.map_cons]
    cases start <;> simp

theorem titleFrom_append_left : ∀ {w : Bytes}, w.IsWhite → ∀ s, titleFrom true (w ++ s) = w ++ titleFrom true s
  | [], _, _ => rfl
  | b :: w, h, s => by
    obtain ⟨hb, hw⟩ := List.forall_mem_cons.1 h
    have heq : Byte.toUpper b = b := Byte.eq_of_toLower_eq (Byte.toLower_toUpper b) (Byte.isLetter_of_isSpace hb)
    rw [List.cons_append, titleFrom, hb, titleFrom_append_left hw, if_pos rfl, heq, List.cons_append]

theorem titleFrom_append_right {w : Bytes} (h : w.IsWhite) : ∀ (start : Bool) (s : Bytes),
    titleFrom start (s ++ w) = titleFrom start s ++ w
  | start, [] => eq_of_toLower_eq_of_isWhite (toLower_titleFrom start w) h
  | start, b :: s => by
    rw [List.cons_append, titleFrom, titleFrom_append_right h, titleFrom, List.cons_append]

theorem recases_title : Recases title :=
  ⟨titleFrom_toLower true, toLower_titleFrom true, fun h₁ h₂ => by
    rw [title, titleFrom_append_left h₁, titleFrom_append_right h₂, title]⟩

/-! ## Trimming -/

structure IsTrimmed (t : Bytes) : Prop where
  head : ∀ b, t.head? = some b → isSpace b = false
  last : ∀ b, t.getLast? = some b → isSpace b = false

theorem IsTrimmed.nil : IsTrimmed [] := ⟨nofun, nofun⟩

theorem IsTrimmed.reverse (ht : t.IsTrimmed) : IsTrimmed t.reverse :=
  ⟨fun b hb => ht.last b (by rwa [← List.head?_reverse]), fun b hb => ht.head b (by rwa [← List.getLast?_reverse])⟩

theorem isTrimmed_iff : t.IsTrimmed ↔ (t.map isSpace).head? ≠ some true ∧ (t.map isSpace).getLast? ≠ some true := by
  simp only [List.head?_map, List.getLast?_map, Ne, Option.map_eq_some_iff, not_exists, not_and, Bool.not_eq_true]
  exact ⟨fun h => ⟨h.head, h.last⟩, fun h => ⟨h.1, h.2⟩⟩

/-- Whether white space stands at an end has nothing to do with case. -/
theorem IsTrimmed.of_toLower_eq (ht : t.IsTrimmed) (h : s.toLower = t.toLower) : s.IsTrimmed := by
  rw [isTrimmed_iff] at ht ⊢
  rwa [map_isSpace_of_toLower_eq h]

theorem dropWhile_around {w₁ w₂ : Bytes} (h₁ : w₁.IsWhite) (ht : t.IsTrimmed) (h₂ : w₂.IsWhite) :
    (w₁ ++ (t ++ w₂)).dropWhile isSpace = if t = [] then [] else t ++ w₂ := by
  rw [List.dropWhile_append_of_pos h₁]
  cases t with
  | nil => exact List.dropWhile_eq_nil_iff.2 h₂
  | cons b r => rw [if_neg (List.cons_ne_nil b r), List.cons_append, List.dropWhile_cons, ht.head b rfl]; rfl

/-- **Trimming takes off the white space around a string that has none at its ends.** -/
theorem trim_around {w₁ w₂ : Bytes} (h₁ : w₁.IsWhite) (ht : t.IsTrimmed) (h₂ : w₂.IsWhite) :
    (w₁ ++ (t ++ w₂)).trim = t := by
  rw [trim, dropWhile_around h₁ ht h₂]
  split
  · rename_i hnil
    rw [hnil]
    rfl
  · rename_i hne
    have hback := dropWhile_around h₂.reverse ht.reverse .nil
    rw [List.append_nil, if_neg (by rwa [List.reverse_eq_nil_iff])] at hback
    rw [List.reverse_append, hback, List.reverse_reverse]

theorem exists_white_front (s : Bytes) : ∃ w : Bytes, s = w ++ s.dropWhile isSpace ∧ w.IsWhite ∧
    ∀ b, (s.dropWhile isSpace).head? = some b → isSpace b = false := by
  refine ⟨s.takeWhile isSpace, List.takeWhile_append_dropWhile.symm, fun b hb => List.mem_takeWhile_imp hb, ?_⟩
  intro b hb
  have h := List.head?_dropWhile_not isSpace s
  rwa [hb] at h

/-- What trimming takes off is white space, up to where there is none at either end. -/
theorem exists_around_trim (s : Bytes) : ∃ w₁ w₂ : Bytes, s = w₁ ++ (s.trim ++ w₂) ∧ w₁.IsWhite ∧ w₂.IsWhite ∧
    s.trim.IsTrimmed := by
  obtain ⟨w₁, hs, h₁, hhead⟩ := exists_white_front s
  obtain ⟨w₂, hback, h₂, hlast⟩ := exists_white_front (s.dropWhile isSpace).reverse
  have hfront : s.dropWhile isSpace = s.trim ++ w₂.reverse := by
    rw [trim, ← List.reverse_append, ← hback, List.reverse_reverse]
  refine ⟨w₁, w₂.reverse, by rw [← hfront, ← hs], h₁, h₂.reverse, fun b hb => hhead b ?_, fun b hb => hlast b ?_⟩
  · rw [hfront, List.head?_append, hb]
    rfl
  · rwa [← List.getLast?_reverse]

theorem trim_of_isTrimmed (ht : t.IsTrimmed) : t.trim = t := by
  simpa using trim_around .nil ht .nil

theorem trim_trim (s : Bytes) : s.trim.trim = s.trim := by
  obtain ⟨-, -, -, -, -, ht⟩ := exists_around_trim s
  exact trim_of_isTrimmed ht

/-- **Case may be changed before trimming as well as after it.** -/
theorem Recases.trim_eq (hf : Recases f) (s : Bytes) : (f s).trim = f s.trim := by
  obtain ⟨w₁, w₂, hs, h₁, h₂, ht⟩ := exists_around_trim s
  have ht' : IsTrimmed (f s.trim) := ht.of_toLower_eq (hf.keeps s.trim)
  calc (f s).trim = (f (w₁ ++ (s.trim ++ w₂))).trim := by rw [← hs]
    _ = (w₁ ++ (f s.trim ++ w₂)).trim := by rw [hf.around h₁ h₂]
    _ = f s.trim := trim_around h₁ ht' h₂

theorem trim_eq_nil_iff : s.trim = [] ↔ s.IsWhite := by
  constructor
  · intro h
    obtain ⟨w₁, w₂, hs, h₁, h₂, -⟩ := exists_around_trim s
    rw [h, List.nil_append] at hs
    rw [hs]
    exact h₁.append h₂
  · intro h
    simpa using trim_around h .nil .nil

def trimStart (s : Bytes) : Nat := (s.findIdx? fun b => !isSpace b).getD s.length

/-- Just behind the last byte that is no white space; `trimStart` where there is none. -/
def trimStop (s : Bytes) : Nat :=
  ((s.reverse.findIdx? fun b => !isSpace b).map (s.length - ·)).getD s.trimStart

theorem findIdx?_of_isWhite {w : Bytes} (h : w.IsWhite) : (w.findIdx? fun b => !isSpace b) = none :=
  List.findIdx?_eq_none_iff.2 fun b hb => by rw [h b hb]; rfl

theorem findIdx?_around {w₁ : Bytes} (h₁ : w₁.IsWhite) (ht : t.IsTrimmed) (hne : t ≠ []) (w₂ : Bytes) :
    ((w₁ ++ (t ++ w₂)).findIdx? fun b => !isSpace b) = some w₁.length := by
  obtain ⟨b, r, rfl⟩ := List.exists_cons_of_ne_nil hne
  rw [List.findIdx?_append, findIdx?_of_isWhite h₁, List.cons_append, List.findIdx?_cons, ht.head b rfl]
  simp

/-- **The ends that trimming finds are in order**, also where there is nothing but white space, and what stands between
them is the trimmed string. -/
theorem trim_eq_slice (s : Bytes) :
    s.trimStart ≤ s.trimStop ∧ s.trimStop ≤ s.length ∧ s.trim = (s.take s.trimStop).drop s.trimStart := by
  by_cases hnil : s.trim = []
  · have hs : s.IsWhite := trim_eq_nil_iff.1 hnil
    have hstart : s.trimStart = s.length := by rw [trimStart, findIdx?_of_isWhite hs, Option.getD_none]
    have hstop : s.trimStop = s.length := by
      rw [trimStop, findIdx?_of_isWhite hs.reverse, Option.map_none, Option.getD_none, hstart]
    rw [hnil, hstart, hstop, List.take_length, List.drop_length]
    exact ⟨Nat.le_refl _, Nat.le_refl _, rfl⟩
  · obtain ⟨w₁, w₂, hs, h₁, h₂, ht⟩ := exists_around_trim s
    have hlength : s.length = w₁.length + (s.trim.length + w₂.length) := by
      simpa only [List.length_append] using congrArg List.length hs
    have hstart : s.trimStart = w₁.length := by
      have hfind := findIdx?_around h₁ ht hnil w₂
      rw [← hs] at hfind
      rw [trimStart, hfind, Option.getD_some]
    have hstop : s.trimStop = w₁.length + s.trim.length := by
      have hfind := findIdx?_around h₂.reverse ht.reverse (by rwa [Ne, List.reverse_eq_nil_iff]) w₁.reverse
      rw [← List.reverse_append, ← List.reverse_append, List.append_assoc, ← hs] at hfind
      rw [trimStop, hfind, Option.map_some, Option.getD_some, List.length_reverse]
      omega
    have htake := congrArg (List.take (w₁.length + s.trim.length)) hs
    rw [← List.append_assoc, ← List.length_append, List.take_left] at htake
    refine ⟨by omega, by omega, ?_⟩
    rw [hstart, hstop, ← List.length_append, htake, List.drop_left]

end Bytes

/-! ## Functions -/

namespace Builtin

open Bytes (Recases)

def recasers : List (List Value → Value) := [upper, lower, title]

theorem exists_recases {f : List Value → Value} (hf : f ∈ recasers) :
    ∃ g : Bytes → Bytes, Recases g ∧ ∀ args, f args = .string (g (stringArg args)) := by
  simp only [recasers, List.mem_cons, List.not_mem_nil, or_false] at hf
  rcases hf with rfl | rfl | rfl
  · exact ⟨_, Bytes.recases_toUpper, fun _ => rfl⟩
  · exact ⟨_, Bytes.recases_toLower, fun _ => rfl⟩
  · exact ⟨_, Bytes.recases_title, fun _ => rfl⟩

/-- **The algebra of the functions on strings.**  Of two changes of case in a row only the later one counts, the same one
twice included, and a change of case keeps the length and every byte that is no ASCII letter in its place.  Trimming
twice is trimming once, and trimming comes before or after a change of case alike.  A string is what trimming makes of it
between white space, without any at the ends of that; the ends of the slice that is taken are in order, also for a string
of nothing but white space; and that is the string of which trimming leaves nothing. -/
theorem string_algebra (args : List Value) :
    (∀ f ∈ recasers, ∀ g ∈ recasers, f [g args] = f args) ∧
    (∀ f ∈ recasers, ∃ t : Bytes, f args = .string t ∧ t.length = (stringArg args).length ∧
      ∀ (i : Nat) (b : UInt8), (stringArg args)[i]? = some b → Byte.isLetter b = false → t[i]? = some b) ∧
    trim [trim args] = trim args ∧
    (∀ f ∈ recasers, trim [f args] = f [trim args]) ∧
    (∃ w₁ t w₂ : Bytes, trim args = .string t ∧ stringArg args = w₁ ++ (t ++ w₂) ∧ w₁.IsWhite ∧ w₂.IsWhite ∧
      t.IsTrimmed) ∧
    ((stringArg args).trimStart ≤ (stringArg args).trimStop ∧ (stringArg args).trimStop ≤ (stringArg args).length ∧
      trim args =
        .string (((stringArg args).take (stringArg args).trimStop).drop (stringArg args).trimStart)) ∧
    (empty [trim args] = .bool true ↔ (stringArg args).IsWhite) := by
  obtain ⟨hstart, hstop, hslice⟩ := Bytes.trim_eq_slice (stringArg args)
  obtain ⟨w₁, w₂, hs, h₁, h₂, ht⟩ := Bytes.exists_around_trim (stringArg args)
  refine ⟨fun f hf g hg => ?_, fun f hf => ?_, ?_, fun f hf => ?_, ⟨w₁, _, w₂, rfl, hs, h₁, h₂, ht⟩,
    ⟨hstart, hstop, congrArg Value.string hslice⟩, ?_⟩
  · obtain ⟨f', hf', hfeq⟩ := exists_recases hf
    obtain ⟨g', hg', hgeq⟩ := exists_recases hg
    rw [hfeq, hfeq, hgeq]
    exact congrArg Value.string (hf'.absorb hg' _)
  · obtain ⟨f', hf', hfeq⟩ := exists_recases hf
    exact ⟨_, hfeq args, Bytes.length_of_toLower_eq (hf'.keeps _), fun i b => Bytes.getElem?_of_toLower_eq (hf'.keeps _)⟩
  · exact congrArg Value.string (Bytes.trim_trim _)
  · obtain ⟨f', hf', hfeq⟩ := exists_recases hf
    rw [hfeq, hfeq]
    exact congrArg Value.string (hf'.trim_eq _)
  · rw [← Bytes.trim_eq_nil_iff, ← List.isEmpty_iff]
    exact ⟨Value.bool.inj, congrArg Value.bool⟩

/-- Words in mixed case between white space of all kinds, with a byte that belongs to no character. -/
def mixedCase : Bytes := utf8 "\t \x0c" ++ utf8 "hELLO\nbig_WORLD 2nd" ++ [0xFF, 0x7A] ++ utf8 " \r\n"

theorem string_algebra_at_mixedCase :
    upper ∈ recasers ∧ title ∈ recasers ∧
    trim [title [.string mixedCase]] = .string (utf8 "Hello\nBig_world 2nd" ++ [0xFF, 0x7A]) ∧
    title [upper [.string mixedCase]] = title [.string mixedCase] ∧
    trim [title [.string mixedCase]] = title [trim [.string mixedCase]] ∧
    trim [trim [.string mixedCase]] = trim [.string mixedCase] := by
  have hupper : upper ∈ recasers := List.mem_cons_self
  have htitle : title ∈ recasers := List.mem_cons_of_mem _ (List.mem_cons_of_mem _ List.mem_cons_self)
  obtain ⟨habsorb, -, hidem, hcomm, -⟩ := string_algebra [.string mixedCase]
  exact ⟨hupper, htitle, rfl, habsorb _ htitle _ hupper, hcomm _ htitle, hidem⟩

end Builtin
end Stencil
