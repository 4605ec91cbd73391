import Stencil.Context
import Stencil.Proofs.Render.Text
/-!
# Context — contexts are well-formed

The strings that a well-formed JSON text describes are well-formed (`Json.isText_of_bindings?`): an escape starts and
ends between characters, and what it stands for is a character.  So a context that is read from such a text, with
well-formed assignments made in it, has well-formed strings only.
-/
namespace Stencil

open Byte (IsAscii)
open Utf8 (Text)

/-! ## JSON texts -/

namespace Json

def Token.IsText : Token → Prop
  | .value v => v.IsText
  | _ => True

theorem isAscii_of_hexValue? {b : UInt8} {n : Nat} (h : hexValue? b = some n) : IsAscii b := by
  rw [hexValue?] at h
  split at h
  · rename_i hb
    exact Byte.isAscii_of_within hb (by decide)
  · split at h
    · rename_i hb
      exact Byte.isAscii_of_within hb (by decide)
    · split at h
      · rename_i hb
        exact Byte.isAscii_of_within hb (by decide)
      · cases h

theorem isAscii_of_unit? {a b c d : UInt8} {n : Nat} (h : unit? a b c d = some n) :
    ∀ x ∈ [letterU, a, b, c, d], IsAscii x := by
  obtain ⟨i, hi, h⟩ := Option.bind_eq_some_iff.1 h
  obtain ⟨j, hj, h⟩ := Option.bind_eq_some_iff.1 h
  obtain ⟨k, hk, h⟩ := Option.bind_eq_some_iff.1 h
  obtain ⟨l, hl, -⟩ := Option.bind_eq_some_iff.1 h
  simp only [List.forall_mem_cons, List.not_mem_nil, false_implies, implies_true, and_true]
  exact ⟨by decide, isAscii_of_hexValue? hi, isAscii_of_hexValue? hj, isAscii_of_hexValue? hk, isAscii_of_hexValue? hl⟩

theorem text_encodeUnit? {n : Nat} {p : Bytes} (h : encodeUnit? n = some p) : Text p := by
  rw [encodeUnit?] at h
  split at h
  · cases h
  · cases h
    exact Utf8.text_encodeChar _

theorem text_encodePair? {high low : Nat} {p : Bytes} (h : encodePair? high low = some p) : Text p := by
  rw [encodePair?] at h
  split at h
  · rw [← Option.some.inj h]
    exact Utf8.text_encodeChar _
  · cases h

theorem isAscii_of_lookup_escapes {e b : UInt8} (h : escapes.lookup e = some b) : IsAscii e ∧ IsAscii b := by
  obtain ⟨us, vs, heq, -⟩ := List.lookup_eq_some_iff.1 h
  have hmem : (e, b) ∈ escapes := heq ▸ List.mem_append_right us List.mem_cons_self
  have hall : ∀ q ∈ escapes, IsAscii q.1 ∧ IsAscii q.2 := by
    simp only [escapes, List.forall_mem_cons, List.not_mem_nil, false_implies, implies_true, and_true]
    decide
  exact hall (e, b) hmem

/-- An escape in a string may be replaced by what it stands for. -/
theorem text_replace {read : List Bytes} {e r p : Bytes}
    (h : Text (read.reverse.flatten ++ Byte.backslash :: (e ++ r))) (he : ∀ b ∈ e, IsAscii b) (hp : Text p) :
    Text ((p :: read).reverse.flatten ++ r) := by
  have hsplit := h.split fun b hb => by cases hb; decide
  have hr : Text r := (hsplit.2.tail (by decide)).dropAscii he
  rw [List.reverse_cons, List.flatten_concat]
  exact (hsplit.1.append hp).append hr

theorem isText_of_map_cons {t : Token} {read : Option (List Token)} (ht : t.IsText)
    (h : ∀ ts, read = some ts → ∀ u ∈ ts, u.IsText) :
    ∀ ts, read.map (t :: ·) = some ts → ∀ u ∈ ts, u.IsText := by
  intro ts hts
  obtain ⟨rest, hrest, rfl⟩ := Option.map_eq_some_iff.1 hts
  exact List.forall_mem_cons.2 ⟨ht, h rest hrest⟩

/-- **The strings in a well-formed text are well-formed**; inside a string, what has been read of it together with the
rest of the text is. -/
theorem isText_of_tokens? : (∀ s, Text s → ∀ ts, tokens? s = some ts → ∀ t ∈ ts, t.IsText) ∧
    ∀ read s, Text (read.reverse.flatten ++ s) → ∀ ts, stringTokens? read s = some ts → ∀ t ∈ ts, t.IsText := by
  apply tokens?.mutual_induct
  -- outside strings every byte that is read is ASCII
  case case1 =>
    intro _ ts hts
    cases hts
    exact nofun
  case case2 | case3 | case4 | case5 =>
    intro r ih hs
    exact isText_of_map_cons trivial (ih (hs.tail (by decide)))
  case case6 =>
    intro r ih hs
    exact isText_of_map_cons trivial (ih (hs.dropAscii (s := [letterT, letterR, letterU, letterE]) (by decide +kernel)))
  case case7 =>
    intro r ih hs
    exact isText_of_map_cons trivial
      (ih (hs.dropAscii (s := [letterF, letterA, letterL, letterS, letterE]) (by decide +kernel)))
  case case8 =>
    intro r ih hs
    rw [tokens?.eq_8]
    exact ih (hs.tail (by decide))
  case case9 =>
    intro b r h1 h2 h3 h4 h5 h6 h7 hspace ih hs
    rw [tokens?.eq_9 b r h1 h2 h3 h4 h5 h6 h7, if_pos hspace]
    refine ih (hs.tail ?_)
    rw [isSpace, Bool.or_eq_true, beq_iff_eq] at hspace
    rcases hspace with h | rfl
    · exact Byte.isAscii_of_isBlank h
    · decide
  case case10 =>
    intro b r h1 h2 h3 h4 h5 h6 h7 hspace hs ts hts
    rw [tokens?.eq_9 b r h1 h2 h3 h4 h5 h6 h7, if_neg hspace] at hts
    cases hts
  -- inside a string, its end and its escapes are where the text may be cut
  case case11 =>
    intro read hs ts hts
    cases hts
  case case12 =>
    intro read r ih hs
    have hsplit := hs.split fun b hb => by cases hb; decide
    exact isText_of_map_cons hsplit.1 (ih (hsplit.2.tail (by decide)))
  case case13 =>
    intro read a b c d e f g h r ihPair ihUnit hs ts hts
    obtain ⟨high, hhigh, hts⟩ := Option.bind_eq_some_iff.1 hts
    split at hts
    -- two escapes stand for one character, or the first stands for one and the second is read again
    · obtain ⟨low, hlow, hts⟩ := Option.bind_eq_some_iff.1 hts
      obtain ⟨p, hp, hts⟩ := Option.bind_eq_some_iff.1 hts
      refine ihPair p (text_replace (e := [letterU, a, b, c, d] ++ Byte.backslash :: [letterU, e, f, g, h]) hs ?_
        (text_encodePair? hp)) ts hts
      exact List.forall_mem_append.2 ⟨isAscii_of_unit? hhigh, List.forall_mem_cons.2 ⟨by decide, isAscii_of_unit? hlow⟩⟩
    · obtain ⟨p, hp, hts⟩ := Option.bind_eq_some_iff.1 hts
      exact ihUnit p (text_replace (e := [letterU, a, b, c, d]) hs (isAscii_of_unit? hhigh)
        (text_encodeUnit? hp)) ts hts
  case case14 =>
    intro read a b c d r hne ih hs ts hts
    rw [stringTokens?.eq_4 _ _ _ _ _ _ hne] at hts
    obtain ⟨n, hn, hts⟩ := Option.bind_eq_some_iff.1 hts
    obtain ⟨p, hp, hts⟩ := Option.bind_eq_some_iff.1 hts
    exact ih p (text_replace (e := [letterU, a, b, c, d]) hs (isAscii_of_unit? hn) (text_encodeUnit? hp)) ts hts
  case case15 =>
    intro read e r hpair hunit ih hs ts hts
    rw [stringTokens?.eq_5 _ _ _ hpair hunit] at hts
    obtain ⟨b, hb, hts⟩ := Option.bind_eq_some_iff.1 hts
    obtain ⟨he, hb⟩ := isAscii_of_lookup_escapes hb
    exact ih b (text_replace (e := [e]) hs (List.forall_mem_singleton.2 he)
      (.ascii (List.forall_mem_singleton.2 hb))) ts hts
  case case16 =>
    intro read b r h1 h2 h3 h4 hb hs ts hts
    rw [stringTokens?.eq_6 _ _ _ h1 h2 h3 h4, if_pos hb] at hts
    cases hts
  case case17 =>
    -- a byte that stands for itself may be in the middle of a character; it only moves to what has been read
    intro read b r h1 h2 h3 h4 hb ih hs
    rw [stringTokens?.eq_6 _ _ _ h1 h2 h3 h4, if_neg hb]
    refine ih ?_
    rwa [List.reverse_cons, List.flatten_concat, List.append_assoc]

theorem isText_of_members? {ts : List Token} (h : ∀ t ∈ ts, t.IsText) :
    ∀ members, members? ts = some members → ∀ e ∈ members, e.2.IsText := by
  fun_induction members? ts with
  | case1 k v =>
    intro members hm
    rw [← Option.some.inj hm]
    exact List.forall_mem_singleton.2 (h (.value v) (by simp))
  | case2 k v r ih =>
    intro members hm
    obtain ⟨rest, hrest, rfl⟩ := Option.map_eq_some_iff.1 hm
    exact List.forall_mem_cons.2 ⟨h (.value v) (by simp), ih (fun t ht => h t (by simp [ht])) rest hrest⟩
  | case3 => exact nofun

theorem isText_of_bindings? {s : Bytes} (hs : Text s) {bindings : List (Bytes × Value)}
    (h : bindings? s = some bindings) : ∀ e ∈ bindings, e.2.IsText := by
  rw [bindings?] at h
  split at h
  · cases h
    exact nofun
  · rename_i ts hts
    exact isText_of_members? (fun t ht => isText_of_tokens?.1 s hs _ hts t (List.mem_cons_of_mem _ ht)) bindings h
  · cases h

end Json

/-! ## Contexts -/

namespace Context

variable {c : Context}

theorem isText_empty : IsText .empty := fun h => nomatch h

theorem IsText.insert (hc : c.IsText) {name : Bytes} {v : Value} (hv : v.IsText) :
    IsText (SortedMap.insert c name v) := by
  intro x u hu
  rcases SortedMap.find?_insert_eq_some.1 hu with ⟨-, rfl⟩ | ⟨-, hu⟩
  · exact hv
  · exact hc hu

theorem IsText.insertAll {bindings : List (Bytes × Value)} (hc : c.IsText) (h : ∀ e ∈ bindings, e.2.IsText) :
    IsText (SortedMap.insertAll c bindings) := by
  induction bindings generalizing c with
  | nil => exact hc
  | cons e bindings ih =>
    obtain ⟨he, h⟩ := List.forall_mem_cons.1 h
    exact ih (hc.insert he) h

/-- What is read of text is text. -/
def Reader.KeepsUtf8 (read : Reader) : Prop :=
  ∀ {text : Bytes} {bindings : List (Bytes × Value)}, Utf8.isValid text = true → read text = some bindings →
    ∀ {name s : Bytes}, (name, .string s) ∈ bindings → Utf8.isValid s = true

theorem keepsUtf8_json : Reader.KeepsUtf8 Json.bindings? := fun htext h _ _ hmem =>
  Utf8.isValid_iff.2 (Json.isText_of_bindings? (Utf8.isValid_iff.1 htext) h _ hmem)

theorem isText_of_ofText {read : Reader} (hread : read.KeepsUtf8) {s : Bytes} (hs : Utf8.isValid s = true)
    (h : ofText read s = .ok c) : c.IsText := by
  rw [ofText] at h
  split at h
  · rename_i bindings hb
    rw [ofBindings] at h
    split at h
    · cases h
    · cases h
      refine isText_empty.insertAll fun e he => ?_
      obtain ⟨name, v⟩ := e
      cases v with
      | string u => exact Utf8.isValid_iff.1 (hread hs hb he)
      | bool _ => trivial
  · cases h

theorem text_of_parseAssignment {s name value : Bytes} (hs : Text s) (h : parseAssignment s = .ok (name, value)) :
    Text value := by
  unfold parseAssignment at h
  split at h
  · cases h
  · rename_i b rest heq
    dsimp only at h
    split at h
    · cases h
      -- the value starts right after an equals sign
      have hb : b = Byte.equals := by
        have := List.head?_dropWhile_not (· != Byte.equals) s
        simpa [heq] using this
      rw [← List.takeWhile_append_dropWhile (p := (· != Byte.equals)) (l := s), heq, hb] at hs
      exact (hs.split fun b hb => by cases hb; decide).2.tail (by decide)
    · cases h

theorem IsText.assign (hc : c.IsText) {s : Bytes} (hs : Text s) {c' : Context} (h : c.assign s = .ok c') :
    c'.IsText := by
  rw [Context.assign] at h
  split at h
  · rename_i name value hp
    cases h
    exact hc.insert (v := .string value) (text_of_parseAssignment hs hp)
  · cases h

/-- **Well-formed assignments keep a context well-formed.** -/
theorem IsText.assignAll (hc : c.IsText) {sets : List Bytes} (hsets : ∀ s ∈ sets, Text s) {c' : Context}
    (h : c.assignAll sets = .ok c') : c'.IsText := by
  induction sets generalizing c with
  | nil =>
    cases h
    exact hc
  | cons s sets ih =>
    obtain ⟨hs, hsets⟩ := List.forall_mem_cons.1 hsets
    rw [Context.assignAll] at h
    split at h
    · rename_i c₁ hc₁
      exact ih (hc.assign hs hc₁) hsets h
    · cases h

end Context
end Stencil
