import Mathlib.Data.List.Forall2
import Mathlib.Data.List.TakeWhile
import Stencil.Proofs.Builtin
/-!
# Utf8 — what keeps byte strings well-formed

A well-formed byte string is a list of characters, each a leading byte with the bytes it announces
(`Utf8.isValid_iff`).  All bytes after the leading one have their high bit set.  So a well-formed byte string may be cut
in front of every ASCII byte (`Utf8.Text.split`), and its ASCII bytes may be exchanged for others
(`Utf8.Text.exchange`); the functions on strings do no more than that.
-/
namespace Stencil

namespace Byte

def IsAscii (b : UInt8) : Prop := b.toNat < 0x80

instance (b : UInt8) : Decidable (IsAscii b) := inferInstanceAs (Decidable (_ < _))

theorem within_iff {b lo hi : UInt8} : within b lo hi = true ↔ lo.toNat ≤ b.toNat ∧ b.toNat ≤ hi.toNat := by
  rw [within, Bool.and_eq_true, Nat.ble_eq, Nat.ble_eq]

theorem isAscii_of_within {b lo hi : UInt8} (h : within b lo hi = true) (hhi : IsAscii hi) : IsAscii b :=
  Nat.lt_of_le_of_lt (within_iff.1 h).2 hhi

theorem isAscii_of_isUpper {b : UInt8} (h : isUpper b = true) : IsAscii b := isAscii_of_within h (by decide)

theorem isAscii_of_isLower {b : UInt8} (h : isLower b = true) : IsAscii b := isAscii_of_within h (by decide)

theorem isAscii_of_isNamePart {b : UInt8} (h : isNamePart b = true) : IsAscii b := by
  simp only [isNamePart, isNameStart, Bool.or_eq_true, beq_iff_eq] at h
  rcases h with ((h | h) | rfl) | h
  · exact isAscii_of_isUpper h
  · exact isAscii_of_isLower h
  · decide
  · exact isAscii_of_within h (by decide)

theorem isAscii_of_isBlank {b : UInt8} (h : isBlank b = true) : IsAscii b := by
  simp only [isBlank, Bool.or_eq_true, beq_iff_eq] at h
  rcases h with (rfl | rfl) | rfl <;> decide

theorem isAscii_of_isSpace {b : UInt8} (h : isSpace b = true) : IsAscii b := by
  simp only [isSpace, Bool.or_eq_true, beq_iff_eq] at h
  rcases h with (h | rfl) | rfl
  · exact isAscii_of_isBlank h
  · decide
  · decide

def Exchanges (b c : UInt8) : Prop := b = c ∨ (IsAscii b ∧ IsAscii c)

theorem exchanges_toUpper (b : UInt8) : Exchanges b (toUpper b) := by
  rw [toUpper]
  split
  · rename_i h
    have hb := within_iff.1 h
    refine .inr ⟨isAscii_of_isLower h, ?_⟩
    simp only [IsAscii, UInt8.toNat_sub, UInt8.reduceToNat] at hb ⊢
    omega
  · exact .inl rfl

theorem exchanges_toLower (b : UInt8) : Exchanges b (toLower b) := by
  rw [toLower]
  split
  · rename_i h
    have hb := within_iff.1 h
    refine .inr ⟨isAscii_of_isUpper h, ?_⟩
    simp only [IsAscii, UInt8.toNat_add, UInt8.reduceToNat] at hb ⊢
    omega
  · exact .inl rfl

end Byte

namespace Utf8

open Byte (IsAscii Exchanges within_iff)

/-! ## Characters -/

def IsChar (lead : UInt8) (cont : Bytes) : Prop := following? lead = some cont.length ∧ continuation lead cont = cont

/-- Byte strings that are made of characters. -/
inductive Text : Bytes → Prop
  | nil : Text []
  | cons {lead : UInt8} {cont r : Bytes} (hc : IsChar lead cont) (hr : Text r) : Text (lead :: (cont ++ r))

theorem following?_of_isAscii {b : UInt8} (h : IsAscii b) : following? b = some 0 := by
  have h' : Byte.within b 0x00 0x7F = true := within_iff.2 ⟨Nat.zero_le _, Nat.le_of_lt_succ h⟩
  rw [following?, if_pos h']

theorem isChar_of_isAscii {b : UInt8} (h : IsAscii b) : IsChar b [] :=
  ⟨following?_of_isAscii h, by unfold continuation; rw [following?_of_isAscii h]⟩

theorem IsChar.eq_nil {b : UInt8} {cont : Bytes} (h : IsChar b cont) (hb : IsAscii b) : cont = [] := by
  have hlen := h.1
  rw [following?_of_isAscii hb, Option.some.injEq] at hlen
  exact List.length_eq_zero_iff.1 hlen.symm

theorem not_isAscii_of_isLater {b : UInt8} (h : isLater b = true) : ¬ IsAscii b :=
  Nat.not_lt.2 (within_iff.1 h).1

theorem not_isAscii_of_isSecond {lead b : UInt8} (h : isSecond lead b = true) : ¬ IsAscii b := by
  have hle : ∀ lo hi : UInt8, 0x80 ≤ lo.toNat → Byte.within b lo hi = true → ¬ IsAscii b := fun lo hi hlo hb =>
    Nat.not_lt.2 (Nat.le_trans hlo (within_iff.1 hb).1)
  unfold isSecond at h
  split at h
  · exact hle _ _ (by decide) h
  · split at h
    · exact hle _ _ (by decide) h
    · split at h
      · exact hle _ _ (by decide) h
      · split at h <;> exact hle _ _ (by decide) h

theorem not_isAscii_of_mem_later : ∀ {n : Nat} {r : Bytes} {b : UInt8}, b ∈ later n r → ¬ IsAscii b
  | n + 1, c :: r, b, h => by
    rw [later] at h
    split at h
    · rename_i hc
      rcases List.mem_cons.1 h with rfl | h
      · exact not_isAscii_of_isLater hc
      · exact not_isAscii_of_mem_later h
    · cases h
  | 0, _, _, h => by simp [later] at h
  | _ + 1, [], _, h => by simp [later] at h

theorem not_isAscii_of_mem_continuation {lead b : UInt8} {r : Bytes} (h : b ∈ continuation lead r) : ¬ IsAscii b := by
  unfold continuation at h
  split at h
  · split at h
    · rename_i hc
      rcases List.mem_cons.1 h with rfl | h
      · exact not_isAscii_of_isSecond hc
      · exact not_isAscii_of_mem_later h
    · cases h
  · cases h

theorem IsChar.not_isAscii {lead b : UInt8} {cont : Bytes} (h : IsChar lead cont) (hb : b ∈ cont) : ¬ IsAscii b :=
  not_isAscii_of_mem_continuation (h.2.symm ▸ hb)

theorem later_prefix : ∀ (n : Nat) (r : Bytes), later n r <+: r
  | n + 1, b :: r => by
    rw [later]
    split
    · exact (List.cons_prefix_cons).2 ⟨rfl, later_prefix n r⟩
    · exact List.nil_prefix
  | 0, r => by
    rw [later]
    · exact List.nil_prefix
    · simp
  | _ + 1, [] => List.nil_prefix

theorem continuation_prefix (lead : UInt8) (r : Bytes) : continuation lead r <+: r := by
  unfold continuation
  split
  · split
    · exact (List.cons_prefix_cons).2 ⟨rfl, later_prefix _ _⟩
    · exact List.nil_prefix
  · exact List.nil_prefix

theorem later_append : ∀ {n : Nat} {cont : Bytes} (r : Bytes), cont.length = n → later n cont = cont →
    later n (cont ++ r) = cont
  | 0, [], r, _, _ => by simp [later]
  | n + 1, b :: cont, r, hn, h => by
    rw [later] at h
    split at h
    · rename_i hb
      rw [List.cons_append, later, if_pos hb, later_append r (Nat.succ.inj hn) (List.cons.inj h).2]
    · cases h

/-- A character is the same whatever follows it. -/
theorem IsChar.continuation_append {lead : UInt8} {cont : Bytes} (h : IsChar lead cont) (r : Bytes) :
    continuation lead (cont ++ r) = cont := by
  obtain ⟨hlen, hcont⟩ := h
  unfold continuation at hcont ⊢
  rw [hlen] at hcont ⊢
  cases cont with
  | nil => rfl
  | cons b cont =>
    dsimp only [List.length_cons, List.cons_append] at hcont ⊢
    split at hcont
    · rename_i hb
      rw [if_pos hb, later_append r rfl (List.cons.inj hcont).2]
    · cases hcont

theorem later_later : ∀ (n : Nat) (r : Bytes), later n (later n r) = later n r
  | 0, r => by simp [later]
  | n + 1, [] => rfl
  | n + 1, b :: r => by
    rw [later]
    split
    · rename_i hb
      rw [later, if_pos hb, later_later n r]
    · rfl

theorem isChar_continuation {lead : UInt8} {r : Bytes} (h : following? lead = some (continuation lead r).length) :
    IsChar lead (continuation lead r) := by
  refine ⟨h, ?_⟩
  unfold continuation
  cases following? lead with
  | none => rfl
  | some n =>
    cases n with
    | zero => rfl
    | succ n =>
      cases r with
      | nil => rfl
      | cons b r =>
        dsimp only
        by_cases hb : isSecond lead b = true
        · rw [if_pos hb]
          dsimp only
          rw [if_pos hb, later_later]
        · rw [if_neg hb]

theorem isSome_front? {lead : UInt8} {r : Bytes} :
    (front? lead r).isSome = true ↔ following? lead = some (continuation lead r).length := by
  rw [front?]
  split
  · rename_i h
    exact ⟨fun _ => h, fun _ => rfl⟩
  · rename_i h
    exact ⟨fun hs => (nomatch hs), fun hs => absurd hs h⟩

/-- **A byte string is well-formed if it is made of characters.** -/
theorem isValid_iff : ∀ {s : Bytes}, isValid s = true ↔ Text s := by
  intro s
  constructor
  · intro h
    match s, h with
    | [], _ => exact .nil
    | lead :: r, h =>
      rw [isValid, Bool.and_eq_true, isSome_front?] at h
      obtain ⟨r', hr'⟩ := continuation_prefix lead r
      have hrest : r.drop (continuation lead r).length = r' := by
        have hdrop := congrArg (List.drop (continuation lead r).length) hr'
        rw [List.drop_left] at hdrop
        exact hdrop.symm
      rw [hrest] at h
      have ih := isValid_iff.1 h.2
      rw [← hr']
      exact .cons (isChar_continuation h.1) ih
  · intro h
    induction h with
    | nil => rw [isValid]
    | cons hc _ ih =>
      rw [isValid, Bool.and_eq_true, isSome_front?, hc.continuation_append, List.drop_left]
      exact ⟨hc.1, ih⟩
termination_by s => s.length
decreasing_by
  subst_vars
  simp only [List.length_cons, List.length_drop]
  omega

/-! ## Cutting and joining -/

namespace Text

theorem append {s t : Bytes} (hs : Text s) (ht : Text t) : Text (s ++ t) := by
  induction hs with
  | nil => exact ht
  | cons hc _ ih =>
    rw [List.cons_append, List.append_assoc]
    exact .cons hc ih

theorem ascii {s : Bytes} (h : ∀ b ∈ s, IsAscii b) : Text s := by
  induction s with
  | nil => exact .nil
  | cons b s ih =>
    exact .cons (isChar_of_isAscii (h b List.mem_cons_self)) (ih fun c hc => h c (List.mem_cons_of_mem b hc))

/-- **A well-formed byte string may be cut in front of an ASCII byte**, or at its end. -/
theorem split {s t : Bytes} (h : Text (s ++ t)) (ht : ∀ b ∈ t.head?, IsAscii b) : Text s ∧ Text t := by
  generalize hst : s ++ t = u at h
  induction h generalizing s with
  | nil =>
    obtain ⟨rfl, rfl⟩ := List.append_eq_nil_iff.1 hst
    exact ⟨.nil, .nil⟩
  | @cons lead cont r hc hr ih =>
    cases s with
    | nil =>
      rw [List.nil_append] at hst
      rw [hst]
      exact ⟨.nil, .cons hc hr⟩
    | cons b s =>
      rw [List.cons_append, List.cons.injEq] at hst
      obtain ⟨rfl, hst⟩ := hst
      rcases List.append_eq_append_iff.1 hst with ⟨u, hcont, ht'⟩ | ⟨u, hs', hr'⟩
      · -- a cut inside the character would be in front of one of its later bytes
        cases u with
        | nil =>
          rw [List.append_nil] at hcont
          rw [List.nil_append] at ht'
          rw [← hcont, ht']
          exact ⟨by simpa only [List.append_nil] using Text.cons hc .nil, hr⟩
        | cons c u =>
          have hmem : c ∈ cont := hcont ▸ List.mem_append_right s List.mem_cons_self
          exact absurd (ht c (by rw [ht']; rfl)) (hc.not_isAscii hmem)
      · obtain ⟨hu, ht'⟩ := ih hr'.symm
        rw [hs']
        exact ⟨.cons hc hu, ht'⟩

theorem tail {b : UInt8} {s : Bytes} (h : Text (b :: s)) (hb : IsAscii b) : Text s := by
  generalize hbs : b :: s = t at h
  cases h with
  | nil => cases hbs
  | cons hc hr =>
    obtain ⟨rfl, rfl⟩ := List.cons.inj hbs
    rw [hc.eq_nil hb]
    exact hr

theorem dropAscii {s t : Bytes} (h : Text (s ++ t)) (hs : ∀ b ∈ s, IsAscii b) : Text t := by
  induction s with
  | nil => exact h
  | cons b s ih => exact ih (h.tail (hs b List.mem_cons_self)) fun c hc => hs c (List.mem_cons_of_mem b hc)

theorem eq_of_exchanges : ∀ {s t : Bytes}, (∀ b ∈ s, ¬ IsAscii b) → List.Forall₂ Exchanges s t → t = s
  | _, _, _, .nil => rfl
  | b :: s, c :: t, hs, .cons hbc hst => by
    rw [eq_of_exchanges (fun d hd => hs d (List.mem_cons_of_mem b hd)) hst]
    rcases hbc with rfl | ⟨hb, -⟩
    · rfl
    · exact absurd hb (hs b List.mem_cons_self)

/-- **ASCII bytes may be exchanged for others.** -/
theorem exchange {s t : Bytes} (hs : Text s) (h : List.Forall₂ Exchanges s t) : Text t := by
  induction hs generalizing t with
  | nil =>
    cases h
    exact .nil
  | @cons lead cont r hc hr ih =>
    obtain ⟨lead', t', hlead, hrest, rfl⟩ := List.forall₂_cons_left_iff.1 h
    have hcont := (List.forall₂_take_append t' cont r hrest.flip).flip
    have hr' := (List.forall₂_drop_append t' cont r hrest.flip).flip
    have heq := eq_of_exchanges (fun b hb => hc.not_isAscii hb) hcont
    rw [← List.take_append_drop cont.length t', heq]
    rcases hlead with rfl | ⟨hb, hb'⟩
    · exact .cons hc (ih hr')
    · rw [hc.eq_nil hb] at hr' ⊢
      exact .cons (isChar_of_isAscii hb') (ih hr')

end Text

/-! ## Functions on strings -/

theorem text_map {f : UInt8 → UInt8} (hf : ∀ b, Exchanges b (f b)) {s : Bytes} (hs : Text s) : Text (s.map f) :=
  hs.exchange (List.forall₂_map_right_iff.2 (List.forall₂_same.2 fun b _ => hf b))

theorem exchanges_titleFrom : ∀ (start : Bool) (s : Bytes), List.Forall₂ Exchanges s (Bytes.titleFrom start s)
  | _, [] => .nil
  | start, b :: s => by
    refine .cons ?_ (exchanges_titleFrom (Byte.isSpace b) s)
    split
    · exact Byte.exchanges_toUpper b
    · exact Byte.exchanges_toLower b

theorem text_trim {s : Bytes} (hs : Text s) : Text s.trim := by
  obtain ⟨w₁, w₂, heq, h₁, h₂, -⟩ := Bytes.exists_around_trim s
  rw [heq] at hs
  refine ((hs.dropAscii fun b hb => Byte.isAscii_of_isSpace (h₁ b hb)).split fun b hb => ?_).1
  exact Byte.isAscii_of_isSpace (h₂ b (List.mem_of_mem_head? hb))

/-! ## Encoding -/

theorem isSecond_iff {lead b : UInt8} : isSecond lead b = true ↔ 0x80 ≤ b.toNat ∧ b.toNat ≤ 0xBF ∧
    (lead.toNat = 0xE0 → 0xA0 ≤ b.toNat) ∧ (lead.toNat = 0xED → b.toNat ≤ 0x9F) ∧
      (lead.toNat = 0xF0 → 0x90 ≤ b.toNat) ∧ (lead.toNat = 0xF4 → b.toNat ≤ 0x8F) := by
  simp only [isSecond, ← UInt8.toNat_inj, UInt8.reduceToNat]
  split_ifs <;> simp only [within_iff, UInt8.reduceToNat] <;> omega

theorem following?_eq {lead : UInt8} : (0xC2 ≤ lead.toNat ∧ lead.toNat ≤ 0xDF → following? lead = some 1) ∧
    (0xE0 ≤ lead.toNat ∧ lead.toNat ≤ 0xEF → following? lead = some 2) ∧
      (0xF0 ≤ lead.toNat ∧ lead.toNat ≤ 0xF4 → following? lead = some 3) := by
  simp only [following?, within_iff, UInt8.reduceToNat]
  refine ⟨fun h => ?_, fun h => ?_, fun h => ?_⟩
  · rw [if_neg (by omega), if_pos h]
  · rw [if_neg (by omega), if_neg (by omega), if_pos h]
  · rw [if_neg (by omega), if_neg (by omega), if_neg (by omega), if_pos h]

theorem later_length : ∀ {cont : Bytes}, (∀ b ∈ cont, isLater b = true) → later cont.length cont = cont
  | [], _ => rfl
  | b :: cont, h => by
    rw [List.length_cons, later, if_pos (h b List.mem_cons_self),
      later_length fun c hc => h c (List.mem_cons_of_mem b hc)]

theorem text_char {lead b : UInt8} {cont : Bytes} (h : following? lead = some (cont.length + 1))
    (hb : isSecond lead b = true) (hcont : ∀ c ∈ cont, isLater c = true) : Text (lead :: b :: cont) := by
  have hchar : IsChar lead (b :: cont) := by
    refine ⟨h, ?_⟩
    unfold continuation
    rw [h]
    dsimp only
    rw [if_pos hb, later_length hcont]
  simpa only [List.append_nil] using Text.cons hchar .nil

theorem text_encodeChar (c : Char) : Text (encodeChar c) := by
  have hvalid : c.toNat < 0xD800 ∨ (0xDFFF < c.toNat ∧ c.toNat < 0x110000) := c.valid
  have hbyte : ∀ {n : Nat}, n < 0x100 → (UInt8.ofNat n).toNat = n := UInt8.toNat_ofNat_of_lt'
  have hlater : ∀ n : Nat, isLater (UInt8.ofNat (0x80 + n % 0x40)) = true := fun n => by
    rw [isLater, within_iff, hbyte (by omega)]
    simp only [UInt8.reduceToNat]
    omega
  rw [encodeChar]
  generalize c.toNat = n at hvalid ⊢
  split
  · rename_i hn
    exact .ascii fun b hb => by rw [List.mem_singleton.1 hb, IsAscii, hbyte (by omega)]; exact hn
  · split
    · refine text_char (following?_eq.1 ?_) (isSecond_iff.2 ?_) nofun
      · rw [hbyte (by omega)]
        omega
      · rw [hbyte (by omega), hbyte (by omega)]
        omega
    · split
      · refine text_char (following?_eq.2.1 ?_) (isSecond_iff.2 ?_) fun b hb => ?_
        · rw [hbyte (by omega)]
          omega
        · rw [hbyte (by omega), hbyte (by omega)]
          omega
        · rw [List.mem_singleton.1 hb]
          exact hlater n
      · refine text_char (following?_eq.2.2 ?_) (isSecond_iff.2 ?_) fun b hb => ?_
        · rw [hbyte (by omega)]
          omega
        · rw [hbyte (by omega), hbyte (by omega)]
          omega
        · simp only [List.mem_cons, List.not_mem_nil, or_false] at hb
          rcases hb with rfl | rfl
          · exact hlater _
          · exact hlater n

end Utf8
end Stencil
