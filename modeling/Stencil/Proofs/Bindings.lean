import Stencil.Command.Render
import Stencil.Proofs.Grammar.Parse
import Stencil.Proofs.Host
import Stencil.Proofs.SortedMap
import Stencil.Proofs.Source.Printed
import Stencil.Proofs.Source.Rules
/-!
# Bindings — the names of contexts are words of templates

What may stand on the left of an assignment, or as a key of a context file, is what is scanned as one word between the
braces of a tag (`Bytes.isWord_iff`), although the two are decided in different places.  A context is loaded exactly if
all its names are such words; then it binds these names and no others, assignments win over the file and later ones
over earlier ones, and a tag with a bound name writes out its string (`Command.context_agrees`).
-/
namespace Stencil

/-! ## Words -/

def Bytes.tagged (n : Bytes) : Bytes := utf8 "\x7b\x7b " ++ (n ++ utf8 " \x7d\x7d")

def TokenKind.wordKinds : List TokenKind := .identifier :: keywords.map Prod.snd

/-- Between the braces of a tag, the bytes are scanned as one word. -/
def Bytes.IsWord (n : Bytes) : Prop := ∃ k ∈ TokenKind.wordKinds,
  Token.ofSource n.tagged =
    [⟨.lDoubleBrace, 0, utf8 "\x7b\x7b"⟩, ⟨k, 3, n⟩, ⟨.rDoubleBrace, n.length + 4, utf8 "\x7d\x7d"⟩, .eof (n.length + 6)]

namespace Bytes

open Lexical (IsLexed Rule Proper WordEnds)

variable {n rest : Bytes}

theorem proper_word (hn : n.isName = true) (hr : WordEnds rest) :
    Proper .tag ((TokenKind.keyword? n).getD .identifier) n rest .tag := by
  cases hk : TokenKind.keyword? n with
  | some k => exact .keyword (TokenKind.mem_of_keyword? hk) hr
  | none => exact .identifier hn (Lexical.keyword?_eq_none.1 hk) hr

theorem tokens_tagged (hn : n.isName = true) : (Lexer.ofSource n.tagged).tokens =
    [⟨.lDoubleBrace, 0, utf8 "\x7b\x7b"⟩, ⟨(TokenKind.keyword? n).getD .identifier, 3, n⟩,
      ⟨.rDoubleBrace, n.length + 4, utf8 "\x7d\x7d"⟩] := by
  have hspace : Lexical.IsGap .tag [Byte.space] := List.forall_mem_singleton.2 rfl
  have hends : WordEnds ([Byte.space] ++ ([Byte.rbrace, Byte.rbrace] ++ [])) := fun b hb => by
    cases hb
    rfl
  have hlexed : IsLexed .outside 0 n.tagged [⟨.lDoubleBrace, 0, utf8 "\x7b\x7b"⟩,
      ⟨(TokenKind.keyword? n).getD .identifier, 3, n⟩, ⟨.rDoubleBrace, 3 + n.length + 1, utf8 "\x7d\x7d"⟩] :=
    .cons (m := .outside) (g := []) rfl (.proper (.opening List.mem_cons_self))
      (.cons hspace (.proper (proper_word hn hends))
        (.cons hspace (.proper (.closing List.mem_cons_self)) (.nil (m := .outside) (g := []) rfl)))
  rw [Lexer.ofSource, hlexed.tokens_eq, Nat.add_comm 3]

theorem mem_wordKinds (n : Bytes) : (TokenKind.keyword? n).getD .identifier ∈ TokenKind.wordKinds := by
  cases hk : TokenKind.keyword? n with
  | some k => exact List.mem_cons_of_mem _ (List.mem_map.2 ⟨_, TokenKind.mem_of_keyword? hk, rfl⟩)
  | none => exact List.mem_cons_self

theorem isName_of_spelled {w : Lexeme} (hk : w.kind ∈ TokenKind.wordKinds) (h : w.Spelled) : w.text.isName = true := by
  rcases List.mem_cons.1 hk with hk | hk
  · simp only [Lexeme.Spelled, hk] at h
    exact h.1
  · obtain ⟨x, hx, hk⟩ := List.mem_map.1 hk
    have hspelling : ∀ x ∈ TokenKind.keywords, x.2.spelling? = some x.1 := by decide
    rw [h.text_eq hk.symm (hspelling x hx)]
    exact (Mode.isName_keyword x hx).1

/-- **What can be bound is what can be mentioned.** -/
theorem isWord_iff : n.IsWord ↔ n.isName = true := by
  constructor
  · rintro ⟨k, hk, htokens⟩
    have hmem : (⟨k, n, .zero⟩ : Lexeme) ∈ (Token.ofSource n.tagged).map Token.word := by
      rw [htokens]
      exact List.mem_cons_of_mem _ List.mem_cons_self
    rw [Token.map_word_ofSource, List.mem_append, List.mem_singleton] at hmem
    rcases hmem with hmem | heof
    · exact isName_of_spelled (w := ⟨k, n, .zero⟩) hk (Mode.spelled_of_mem_words hmem)
    · cases heof
      exact absurd hk (by decide)
  · intro hn
    have hlength : n.tagged.length = n.length + 6 := by
      rw [tagged, List.length_append, List.length_append]
      exact Nat.add_comm 3 (n.length + 3)
    refine ⟨_, mem_wordKinds n, ?_⟩
    rw [Token.ofSource, tokens_tagged hn, hlength]
    rfl

theorem parse_tagged (hn : n.isName = true) (hk : TokenKind.keyword? n = none) :
    ∃ p, Template.parse n.tagged = .ok [.render (.var ⟨n, p⟩)] := by
  refine ⟨(LineIndex.ofSource n.tagged).position 3, Template.parse_eq_ok.2 ⟨?_, Nat.zero_le _⟩⟩
  rw [Lexeme.ofSource, tokens_tagged hn, hk]
  exact .cons (.render rfl (.loosen (.var rfl) (by decide)) rfl) .nil

end Bytes

/-- **An assignment is a word, an equals sign and any value**; the first equals sign counts. -/
theorem parseAssignment_eq_ok {s n v : Bytes} :
    parseAssignment s = .ok (n, v) ↔ s = n ++ Byte.equals :: v ∧ Byte.equals ∉ n ∧ n.IsWord := by
  rw [Bytes.isWord_iff]
  constructor
  · intro h
    have hsplit : s.takeWhile (· != Byte.equals) ++ s.dropWhile (· != Byte.equals) = s := List.takeWhile_append_dropWhile
    have hhead := List.head?_dropWhile_not (· != Byte.equals) s
    unfold parseAssignment at h
    split at h
    · cases h
    · rename_i b value hd
      rw [hd] at hsplit hhead
      dsimp only at h
      split at h
      · rename_i hname
        cases h
        obtain rfl : b = Byte.equals := by simpa using hhead
        refine ⟨hsplit.symm, fun hmem => ?_, hname⟩
        simpa using List.mem_takeWhile_imp hmem
      · cases h
  · rintro ⟨rfl, hequals, hname⟩
    have hbefore : ∀ b ∈ n, (b != Byte.equals) = true := fun b hb => bne_iff_ne.2 fun heq => hequals (heq ▸ hb)
    rw [parseAssignment, List.dropWhile_append_of_pos hbefore, List.takeWhile_append_of_pos hbefore]
    simp [hname]

/-! ## Contexts -/

namespace Context

def assignments (l : List (Bytes × Bytes)) : List (Bytes × Value) := l.map fun a => (a.1, .string a.2)

/-- Assignments are made one after the other, if all of them are assignments. -/
theorem assignAll_eq_ok : ∀ {sets : List Bytes} {base c : Context}, base.assignAll sets = .ok c ↔
    ∃ assigned : List (Bytes × Bytes), assigned.map .ok = sets.map parseAssignment ∧
      c = base.insertAll (assignments assigned)
  | [], base, c => by
    simp [assignAll, assignments, SortedMap.insertAll, eq_comm]
  | s :: sets, base, c => by
    rw [assignAll, assign, List.map_cons]
    cases hs : parseAssignment s with
    | error e => simp [List.map_eq_cons_iff]
    | ok a =>
      dsimp only
      rw [assignAll_eq_ok]
      constructor
      · rintro ⟨assigned, hsets, rfl⟩
        exact ⟨a :: assigned, by rw [← hsets, List.map_cons], rfl⟩
      · rintro ⟨assigned, h, rfl⟩
        obtain ⟨a', assigned, rfl, ha, hsets⟩ := List.map_eq_cons_iff.1 h
        cases ha
        exact ⟨assigned, hsets, rfl⟩

theorem exists_assigned {sets : List Bytes} :
    (∃ assigned : List (Bytes × Bytes), assigned.map .ok = sets.map parseAssignment) ↔
      ∀ s ∈ sets, ∃ n v, parseAssignment s = .ok (n, v) := by
  induction sets with
  | nil => exact iff_of_true ⟨[], rfl⟩ (List.forall_mem_nil _)
  | cons s sets ih =>
    rw [List.forall_mem_cons, ← ih, List.map_cons]
    constructor
    · rintro ⟨assigned, h⟩
      obtain ⟨a, assigned, rfl, ha, hsets⟩ := List.map_eq_cons_iff.1 h
      exact ⟨⟨a.1, a.2, ha.symm⟩, assigned, hsets⟩
    · rintro ⟨⟨n, v, hs⟩, assigned, hsets⟩
      exact ⟨(n, v) :: assigned, by rw [List.map_cons, hs, hsets]⟩

theorem isWord_of_assigned {sets : List Bytes} {assigned : List (Bytes × Bytes)} {n : Bytes}
    (h : assigned.map .ok = sets.map parseAssignment) (hn : n ∈ assigned.map Prod.fst) : n.IsWord := by
  obtain ⟨a, ha, rfl⟩ := List.mem_map.1 hn
  have hok : (.ok a : Except ContextError (Bytes × Bytes)) ∈ sets.map parseAssignment := h ▸ List.mem_map_of_mem ha
  obtain ⟨s, -, hs⟩ := List.mem_map.1 hok
  exact (parseAssignment_eq_ok.1 hs).2.2

theorem lookup_assignments (n : Bytes) : ∀ l : List (Bytes × Bytes),
    (assignments l).lookup n = (l.lookup n).map Value.string
  | [] => rfl
  | a :: l => by
    rw [assignments, List.map_cons, ← assignments, List.lookup_cons, List.lookup_cons, lookup_assignments n l]
    cases n == a.1 <;> rfl

theorem lookup_reverse_ne_none {α : Type} {l : List (Bytes × α)} {n : Bytes} :
    l.reverse.lookup n ≠ none ↔ n ∈ l.map Prod.fst := by
  rw [Ne, List.lookup_eq_none_iff]
  simp

theorem mem_keys_ofList {pairs : List (Bytes × Value)} {n : Bytes} :
    n ∈ (SortedMap.ofList pairs).keys ↔ n ∈ pairs.map Prod.fst := by
  rw [SortedMap.mem_keys, SortedMap.find?_ofList, lookup_reverse_ne_none]

/-- **The last assignment to a name counts, or else its last binding.** -/
theorem find?_insertAll_assignments (pairs : List (Bytes × Value)) (assigned : List (Bytes × Bytes)) (n : Bytes) :
    ((SortedMap.ofList pairs).insertAll (assignments assigned)).find? n =
      ((assigned.reverse.lookup n).map Value.string).or (pairs.reverse.lookup n) := by
  rw [SortedMap.find?_insertAll, SortedMap.find?_ofList, assignments, ← List.map_reverse, ← assignments,
    lookup_assignments]

theorem mem_keys_insertAll_assignments {pairs : List (Bytes × Value)} {assigned : List (Bytes × Bytes)} {n : Bytes} :
    n ∈ ((SortedMap.ofList pairs).insertAll (assignments assigned)).keys ↔
      n ∈ assigned.map Prod.fst ∨ n ∈ pairs.map Prod.fst := by
  rw [SortedMap.mem_keys, find?_insertAll_assignments, Ne, Option.or_eq_none_iff, Option.map_eq_none_iff, not_and_or,
    ← Ne, ← Ne, lookup_reverse_ne_none, lookup_reverse_ne_none]

theorem ofBindings_eq_ok {pairs : List (Bytes × Value)} {c : Context} :
    ofBindings pairs = .ok c ↔ (∀ p ∈ pairs, p.1.IsWord) ∧ c = .ofList pairs := by
  have hkeys : (SortedMap.ofList pairs).keys.find? (fun k => !Bytes.isName k) = none ↔
      ∀ p ∈ pairs, p.1.IsWord := by
    rw [List.find?_eq_none]
    simp only [mem_keys_ofList, List.forall_mem_map, Bool.not_eq_true', Bool.not_eq_false, Bytes.isWord_iff]
  rw [← hkeys, ofBindings]
  cases (SortedMap.ofList pairs).keys.find? fun k => !Bytes.isName k with
  | some k => simp
  | none => simp [eq_comm]

end Context

/-! ## Loading -/

namespace Command

open Run (on)

/-- The bindings name no context file, or one that holds the pairs of an object in this world. -/
def Bindings.Hold (read : Context.Reader) (b : Bindings) (w : World) (pairs : List (Bytes × Value)) : Prop :=
  match b.file with
  | none => pairs = []
  | some path => ∃ text, w.disk.readFile path = .ok text ∧ Utf8.isValid text = true ∧ read text = some pairs

variable {read : Context.Reader}

theorem on_loadContextFile {path : Path} {w : World} {text : Bytes} {pairs : List (Bytes × Value)}
    (hfile : w.disk.readFile path = .ok text) (hvalid : Utf8.isValid text = true) (hpairs : read text = some pairs) :
    on (loadContextFile (m := StateM World) read path) w = ((Context.ofBindings pairs).mapError (.contextFile path), w) := by
  have hattempt : on (Run.attempt (Host.readFile (m := StateM World) path) (.readContext path)) w = (.ok text, w) := by
    rw [Run.on_attempt, World.run_readFile, hfile]
    rfl
  rw [loadContextFile, Run.on_bind_ok hattempt, if_pos hvalid, Run.on_ofExcept, Context.ofText, hpairs]

theorem on_loadContext {b : Bindings} {w : World} {pairs : List (Bytes × Value)} (h : b.Hold read w pairs)
    {c : Context} {w' : World} : on (loadContext (m := StateM World) read b) w = (.ok c, w') ↔
      w' = w ∧ ∃ base, Context.ofBindings pairs = .ok base ∧ base.assignAll b.sets = .ok c := by
  unfold loadContext
  unfold Bindings.Hold at h
  split at h
  · rename_i hfile
    subst h
    rw [hfile, Run.on_bind_ok (Run.on_pure _ w), Run.on_ofExcept, Prod.mk.injEq, mapError_eq_ok]
    constructor
    · rintro ⟨hc, rfl⟩
      exact ⟨rfl, _, rfl, hc⟩
    · rintro ⟨rfl, base, hbase, hc⟩
      cases hbase
      exact ⟨hc, rfl⟩
  · rename_i path hfile
    obtain ⟨text, hread, hvalid, hpairs⟩ := h
    rw [hfile, Run.on_bind_eq_ok]
    simp only [on_loadContextFile hread hvalid hpairs, Run.on_ofExcept, Prod.mk.injEq, mapError_eq_ok]
    constructor
    · rintro ⟨base, v, ⟨hbase, rfl⟩, hc, rfl⟩
      exact ⟨rfl, base, hbase, hc⟩
    · rintro ⟨rfl, base, hbase, hc⟩
      exact ⟨base, _, ⟨hbase, rfl⟩, hc, rfl⟩

/-- **What loading comes to**: the pairs of the file with the assignments on top, if they are bindings. -/
theorem on_loadContext_eq_ok {b : Bindings} {w : World} {pairs : List (Bytes × Value)} (h : b.Hold read w pairs) {c : Context}
    {w' : World} : on (loadContext (m := StateM World) read b) w = (.ok c, w') ↔
      w' = w ∧ (∀ p ∈ pairs, p.1.IsWord) ∧ ∃ assigned : List (Bytes × Bytes),
        assigned.map .ok = b.sets.map parseAssignment ∧
          c = (SortedMap.ofList pairs).insertAll (Context.assignments assigned) := by
  rw [on_loadContext h]
  simp only [Context.ofBindings_eq_ok, Context.assignAll_eq_ok]
  constructor
  · rintro ⟨rfl, base, ⟨hnames, rfl⟩, hassign⟩
    exact ⟨rfl, hnames, hassign⟩
  · rintro ⟨rfl, hnames, hassign⟩
    exact ⟨rfl, _, ⟨hnames, rfl⟩, hassign⟩

theorem output_tagged {c : Context} {n v : Bytes} {p : Position} (h : c.find? n = some (.string v)) (registry : Registry)
    (types : TypeMap) : Template.output [.render (.var ⟨n, p⟩)] ⟨registry, c, types⟩ = .ok v := by
  have houtput : (Expr.var ⟨n, p⟩).output ⟨registry, c, types⟩ = .ok v := by
    rw [Expr.output, Expr.eval, Scope.look, h]
  simp [Template.output, Template.render, Block.writeList, Block.write, houtput, Sink.put, Sink.memory, Written.add,
    Written.nothing, Written.bytes]

/-- **What a context binds is what a template can mention.**  An assignment is a word, an equals sign and a value, where
a word is what is scanned as one between the braces of a tag.  However context files are read, loading succeeds exactly if
the keys of the context file are words and the assignments are such.  Then the context binds the names of both and no
others, each to the value of the last assignment to it, or else of the last pair in the file; and a tag with a bound name
that is no keyword is a template that writes out its string. -/
theorem context_agrees :
    (∀ s n v, parseAssignment s = .ok (n, v) ↔ s = n ++ Byte.equals :: v ∧ Byte.equals ∉ n ∧ n.IsWord) ∧
    ∀ (read : Context.Reader) (b : Bindings) (w : World) (pairs : List (Bytes × Value)), b.Hold read w pairs →
      ((∃ c, on (loadContext (m := StateM World) read b) w = (.ok c, w)) ↔
        (∀ p ∈ pairs, p.1.IsWord) ∧ ∀ s ∈ b.sets, ∃ n v, s = n ++ Byte.equals :: v ∧ Byte.equals ∉ n ∧ n.IsWord) ∧
      ∀ c w', on (loadContext (m := StateM World) read b) w = (.ok c, w') →
        ∃ assigned : List (Bytes × Bytes), assigned.map .ok = b.sets.map parseAssignment ∧
          (∀ n, n ∈ c.keys ↔ n ∈ assigned.map Prod.fst ∨ n ∈ pairs.map Prod.fst) ∧
          (∀ n, c.find? n = ((assigned.reverse.lookup n).map Value.string).or (pairs.reverse.lookup n)) ∧
          ∀ n v, c.find? n = some (.string v) → n ∉ TokenKind.keywords.map Prod.fst →
            ∃ t, Template.parse n.tagged = .ok t ∧ ∀ registry, t.output ⟨registry, c, .empty⟩ = .ok v := by
  refine ⟨fun s n v => parseAssignment_eq_ok, fun read b w pairs h => ⟨?_, fun c w' hload => ?_⟩⟩
  · simp only [← parseAssignment_eq_ok, ← Context.exists_assigned]
    constructor
    · rintro ⟨c, hload⟩
      obtain ⟨-, hnames, assigned, hsets, -⟩ := (on_loadContext_eq_ok h).1 hload
      exact ⟨hnames, assigned, hsets⟩
    · rintro ⟨hnames, assigned, hsets⟩
      exact ⟨_, (on_loadContext_eq_ok h).2 ⟨rfl, hnames, assigned, hsets, rfl⟩⟩
  · obtain ⟨-, hnames, assigned, hsets, rfl⟩ := (on_loadContext_eq_ok h).1 hload
    refine ⟨assigned, hsets, fun n => Context.mem_keys_insertAll_assignments,
      Context.find?_insertAll_assignments pairs assigned, fun n v hn hkeyword => ?_⟩
    have hword : n.IsWord := by
      have hmem := SortedMap.mem_keys.2 (hn ▸ Option.some_ne_none _)
      rcases Context.mem_keys_insertAll_assignments.1 hmem with hmem | hmem
      · exact Context.isWord_of_assigned hsets hmem
      · exact List.forall_mem_map.2 hnames n hmem
    obtain ⟨p, hparse⟩ := Bytes.parse_tagged (Bytes.isWord_iff.1 hword) (Lexical.keyword?_eq_none.2 hkeyword)
    exact ⟨_, hparse, fun registry => output_tagged hn registry .empty⟩

/-- A name that the file binds once and two assignments bind again, and one that the file binds twice. -/
def repeatedBindings : Bindings := ⟨some (utf8 "c"), [utf8 "a=x", utf8 "end=", utf8 "a=="]⟩

def repeatedWorld : World :=
  ⟨⟨[], .ofList [([utf8 "c"], .file (utf8 "\x7b\"a\": \"f\", \"b\": \"g\", \"b\": \"h\"\x7d"))]⟩, [], []⟩

def repeatedPairs : List (Bytes × Value) :=
  [(utf8 "a", .string (utf8 "f")), (utf8 "b", .string (utf8 "g")), (utf8 "b", .string (utf8 "h"))]

theorem context_agrees_at_repeatedBindings : repeatedBindings.Hold Json.bindings? repeatedWorld repeatedPairs ∧
    ∃ c, on (loadContext (m := StateM World) Json.bindings? repeatedBindings) repeatedWorld = (.ok c, repeatedWorld) ∧
      c.find? (utf8 "a") = some (.string (utf8 "=")) ∧ c.find? (utf8 "b") = some (.string (utf8 "h")) ∧
      ∃ t, Template.parse (utf8 "{{ a }}") = .ok t ∧ ∀ registry, t.output ⟨registry, c, .empty⟩ = .ok (utf8 "=") := by
  have hhold : repeatedBindings.Hold Json.bindings? repeatedWorld repeatedPairs := by
    refine ⟨_, rfl, ?_, ?_⟩
    · decide_cbv
    · cbv
  have hwords : ∀ p ∈ repeatedPairs, p.1.IsWord := by
    simp only [Bytes.isWord_iff]
    decide
  have hsets : [(utf8 "a", utf8 "x"), (utf8 "end", []), (utf8 "a", utf8 "=")].map Except.ok =
      repeatedBindings.sets.map parseAssignment := by cbv
  obtain ⟨hiff, hloaded⟩ := context_agrees.2 Json.bindings? repeatedBindings repeatedWorld repeatedPairs hhold
  simp only [← parseAssignment_eq_ok, ← Context.exists_assigned] at hiff
  obtain ⟨c, hload⟩ := hiff.2 ⟨hwords, _, hsets⟩
  obtain ⟨assigned, hassigned, -, hfind, houtput⟩ := hloaded c repeatedWorld hload
  obtain rfl := List.map_injective_iff.2 (fun _ _ => Except.ok.inj) (hassigned.trans hsets.symm)
  have ha : c.find? (utf8 "a") = some (.string (utf8 "=")) := (hfind _).trans (by decide)
  exact ⟨hhold, c, hload, ha, (hfind _).trans (by decide), houtput _ _ ha (by decide)⟩

end Command
end Stencil
