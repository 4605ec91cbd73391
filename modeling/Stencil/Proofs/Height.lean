import Stencil.Proofs.Shape
/-!
# Height — how high the expressions of a template grow

The limit on nesting counts parentheses, `!`, calls and statements.  Operators and pipes are not counted, and any number
of them may follow one another, so the expressions that are read have no bound on their height
(`Template.height_unbounded`).

What the limit does bound are levels: an operator stands on the level of its left operand, a pipe on that of what is
piped.  So an expression is higher than the bound only by its operators and pipes (`Template.height_le_add_links`).
-/
namespace Stencil

mutual

def Expr.height : Expr → Nat
  | .lit _ _ => 1
  | .var _ => 1
  | .not e _ => e.height + 1
  | .binary _ l r => max l.height r.height + 1
  | .paren e _ => e.height + 1
  | .call _ args => Expr.heightList args + 1
  | .pipe a _ => a.height + 1

def Expr.heightList : List Expr → Nat
  | [] => 0
  | e :: es => max e.height (Expr.heightList es)

end

mutual

/-- The levels of an expression.  An operator is on the level of its left operand, its right operand one level below; a
pipe is on the level of what is piped. -/
def Expr.levels : Expr → Nat
  | .lit _ _ => 1
  | .var _ => 1
  | .not e _ => e.levels + 1
  | .binary _ l r => max l.levels (r.levels + 1)
  | .paren e _ => e.levels + 1
  | .call _ args => Expr.levelsList args + 1
  | .pipe a _ => a.levels

def Expr.levelsList : List Expr → Nat
  | [] => 0
  | e :: es => max e.levels (Expr.levelsList es)

end

mutual

def Expr.links : Expr → Nat
  | .lit _ _ => 0
  | .var _ => 0
  | .not e _ => e.links
  | .binary _ l r => l.links + r.links + 1
  | .paren e _ => e.links
  | .call _ args => Expr.linksList args
  | .pipe a _ => a.links + 1

def Expr.linksList : List Expr → Nat
  | [] => 0
  | e :: es => e.links + Expr.linksList es

end

mutual

def Expr.parts : Expr → List Expr
  | .lit v p => [.lit v p]
  | .var x => [.var x]
  | .not e p => .not e p :: e.parts
  | .binary op l r => .binary op l r :: (l.parts ++ r.parts)
  | .paren e p => .paren e p :: e.parts
  | .call f args => .call f args :: Expr.partsList args
  | .pipe a f => .pipe a f :: a.parts

def Expr.partsList : List Expr → List Expr
  | [] => []
  | e :: es => e.parts ++ Expr.partsList es

end

theorem Expr.mem_parts (e : Expr) : e ∈ e.parts := by
  cases e <;> exact List.mem_cons_self

mutual

/-- The expressions in a block: in what is rendered, in conditions, and in the values and patterns of switches. -/
def Block.exprs : Block → List Expr
  | .text _ _ => []
  | .comment _ _ => []
  | .render e => e.parts
  | .cond branches none _ => Block.exprsBranches branches
  | .cond branches (some body) _ => Block.exprsBranches branches ++ Block.exprsList body
  | .switch v cases _ => v.parts ++ Block.exprsCases cases
termination_by structural b => b

def Block.exprsList : List Block → List Expr
  | [] => []
  | b :: bs => b.exprs ++ Block.exprsList bs
termination_by structural bs => bs

def Block.exprsBranches : List (Expr × List Block) → List Expr
  | [] => []
  | (c, body) :: rest => c.parts ++ (Block.exprsList body ++ Block.exprsBranches rest)
termination_by structural bs => bs

def Block.exprsCases : List (List Expr × List Block) → List Expr
  | [] => []
  | (ps, body) :: rest => Expr.partsList ps ++ (Block.exprsList body ++ Block.exprsCases rest)
termination_by structural cs => cs

end

def Template.exprs (t : Template) : List Expr := Block.exprsList t

/-! ## Levels -/

namespace Expr

mutual

/-- Only operators and pipes make an expression higher than it has levels. -/
theorem height_le_levels : ∀ e : Expr, e.height ≤ e.levels + e.links
  | .lit _ _ | .var _ => Nat.le_refl 1
  | .not e _ => by
    have ih := height_le_levels e
    rw [height, levels, links]
    omega
  | .binary _ l r => by
    have ihl := height_le_levels l
    have ihr := height_le_levels r
    rw [height, levels, links]
    omega
  | .paren e _ => by
    have ih := height_le_levels e
    rw [height, levels, links]
    omega
  | .call _ args => by
    have ih := heightList_le_levels args
    rw [height, levels, links]
    omega
  | .pipe a _ => by
    have ih := height_le_levels a
    rw [height, levels, links]
    omega

theorem heightList_le_levels : ∀ es : List Expr, heightList es ≤ levelsList es + linksList es
  | [] => Nat.le_refl 0
  | e :: es => by
    have ihe := height_le_levels e
    have ih := heightList_le_levels es
    rw [heightList, levelsList, linksList]
    omega

end

theorem tight_of_isBinary {n : Nat} : ∀ {e : Expr}, e.isBinary = false → e.Tight n
  | .lit _ _, _ | .var _, _ | .not _ _, _ | .paren _ _, _ | .call _ _, _ | .pipe _ _, _ => trivial

theorem tight_one : ∀ e : Expr, e.Tight 1
  | .binary op _ _ => op.le_precedence
  | .lit _ _ | .var _ | .not _ _ | .paren _ _ | .call _ _ | .pipe _ _ => trivial

mutual

/-- **The levels of an expression are bounded by its nesting.**  Operators to the right of operators bind more and more
tightly, so from one nested construct to the next there are no more levels than strengths of binding. -/
theorem levels_add_le : ∀ {e : Expr}, e.WellFormed → ∀ {n : Nat}, e.Tight n → n ≤ 5 →
    e.levels + n ≤ 5 * e.nesting + 6
  | .lit _ _, _, n, _, hn | .var _, _, n, _, hn => by
    rw [levels, nesting]
    omega
  | .not e _, ⟨hbinary, _, he⟩, n, _, hn => by
    have ih := levels_add_le he (tight_of_isBinary hbinary) (Nat.le_refl 5)
    rw [levels, nesting]
    omega
  | .binary op l r, ⟨hl, hr, hlw, hrw⟩, n, hn, _ => by
    -- the right operand is one level below, but binds more tightly than this operator
    have hop : op.precedence < 5 := op.precedence_lt
    have ihl := levels_add_le hlw hl (Nat.le_of_lt hop)
    have ihr := levels_add_le hrw hr hop
    rw [Tight] at hn
    rw [levels, nesting]
    omega
  | .paren e _, he, n, _, hn => by
    have ih := levels_add_le (e := e) he (tight_one e) (by decide)
    rw [levels, nesting]
    omega
  | .call _ args, ⟨_, hargs⟩, n, _, hn => by
    have ih := levelsList_le hargs
    rw [levels, nesting]
    omega
  | .pipe a _, ⟨hbinary, ha, _⟩, n, _, hn => by
    have ih := levels_add_le ha (tight_of_isBinary hbinary) (Nat.le_refl 5)
    rw [levels, nesting]
    omega

theorem levelsList_le : ∀ {es : List Expr}, WellFormedList es → levelsList es ≤ 5 * (nestingList es + 1)
  | [], _ => Nat.zero_le _
  | e :: es, ⟨he, hes⟩ => by
    have ihe := levels_add_le he (tight_one e) (by decide)
    have ih := levelsList_le hes
    rw [levelsList, nestingList]
    omega

end

theorem levels_le {e : Expr} (h : e.WellFormed) : e.levels ≤ 5 * (e.nesting + 1) :=
  Nat.le_of_add_le_add_right (levels_add_le h (tight_one e) (by decide))

end Expr

/-! ## Templates -/

structure Expr.Shallow (n : Nat) (e : Expr) : Prop where
  wellFormed : e.WellFormed
  nesting : e.nesting ≤ n

mutual

theorem Expr.shallow_parts {n : Nat} : ∀ {e : Expr}, e.WellFormed → e.nesting ≤ n → ∀ d ∈ e.parts, d.Shallow n
  | .lit _ _, he, hn | .var _, he, hn => List.forall_mem_singleton.2 ⟨he, hn⟩
  | .not e p, he, hn => by
    have hpart : e.nesting + 1 ≤ n := hn
    exact List.forall_mem_cons.2 ⟨⟨he, hn⟩, shallow_parts he.2.2 (Nat.le_of_succ_le hpart)⟩
  | .binary op l r, he, hn => by
    have hparts : max l.nesting r.nesting ≤ n := hn
    exact List.forall_mem_cons.2 ⟨⟨he, hn⟩, List.forall_mem_append.2
      ⟨shallow_parts he.2.2.1 (by omega), shallow_parts he.2.2.2 (by omega)⟩⟩
  | .paren e p, he, hn => by
    have hpart : e.nesting + 1 ≤ n := hn
    exact List.forall_mem_cons.2 ⟨⟨he, hn⟩, shallow_parts (e := e) he (Nat.le_of_succ_le hpart)⟩
  | .call f args, he, hn => by
    have hpart : nestingList args + 1 ≤ n := hn
    exact List.forall_mem_cons.2 ⟨⟨he, hn⟩, shallow_partsList he.2 (Nat.le_of_succ_le hpart)⟩
  | .pipe a f, he, hn => List.forall_mem_cons.2 ⟨⟨he, hn⟩, shallow_parts he.2.1 hn⟩

theorem Expr.shallow_partsList {n : Nat} : ∀ {es : List Expr}, Expr.WellFormedList es → Expr.nestingList es ≤ n →
    ∀ e ∈ Expr.partsList es, e.Shallow n
  | [], _, _ => List.forall_mem_nil _
  | e :: es, ⟨he, hes⟩, hn => by
    rw [Expr.nestingList] at hn
    exact List.forall_mem_append.2 ⟨shallow_parts he (by omega), shallow_partsList hes (by omega)⟩

end

mutual

theorem Block.shallow_exprs {n : Nat} : ∀ {b : Block}, b.WellFormed → b.nesting ≤ n → ∀ e ∈ b.exprs, e.Shallow n
  | .text _ _, _, _ | .comment _ _, _, _ => List.forall_mem_nil _
  | .render _, he, hn => Expr.shallow_parts he hn
  | .cond branches none _, ⟨_, hbs⟩, hn => by
    rw [Block.nesting] at hn
    exact shallow_exprsBranches hbs (by omega)
  | .cond branches (some body) _, ⟨_, hbs, hbody⟩, hn => by
    rw [Block.nesting] at hn
    exact List.forall_mem_append.2 ⟨shallow_exprsBranches hbs (by omega), shallow_exprsList hbody (by omega)⟩
  | .switch v cases _, ⟨hv, hcs⟩, hn => by
    rw [Block.nesting] at hn
    exact List.forall_mem_append.2 ⟨Expr.shallow_parts hv (by omega), shallow_exprsCases hcs (by omega)⟩

theorem Block.shallow_exprsList {n : Nat} : ∀ {bs : List Block}, Block.WellFormedList bs → Block.nestingList bs ≤ n →
    ∀ e ∈ Block.exprsList bs, e.Shallow n
  | [], _, _ => List.forall_mem_nil _
  | b :: bs, ⟨hb, _, hbs⟩, hn => by
    rw [Block.nestingList] at hn
    exact List.forall_mem_append.2 ⟨shallow_exprs hb (by omega), shallow_exprsList hbs (by omega)⟩

theorem Block.shallow_exprsBranches {n : Nat} : ∀ {bs : List (Expr × List Block)}, Block.WellFormedBranches bs →
    Block.nestingBranches bs ≤ n → ∀ e ∈ Block.exprsBranches bs, e.Shallow n
  | [], _, _ => List.forall_mem_nil _
  | (c, body) :: bs, ⟨hc, hbody, hbs⟩, hn => by
    rw [Block.nestingBranches] at hn
    exact List.forall_mem_append.2 ⟨Expr.shallow_parts hc (by omega), List.forall_mem_append.2
      ⟨shallow_exprsList hbody (by omega), shallow_exprsBranches hbs (by omega)⟩⟩

theorem Block.shallow_exprsCases {n : Nat} : ∀ {cs : List (List Expr × List Block)}, Block.WellFormedCases cs →
    Block.nestingCases cs ≤ n → ∀ e ∈ Block.exprsCases cs, e.Shallow n
  | [], _, _ => List.forall_mem_nil _
  | (ps, body) :: cs, ⟨_, hps, hbody, hcs⟩, hn => by
    rw [Block.nestingCases] at hn
    exact List.forall_mem_append.2 ⟨Expr.shallow_partsList hps (by omega), List.forall_mem_append.2
      ⟨shallow_exprsList hbody (by omega), shallow_exprsCases hcs (by omega)⟩⟩

end

/-! ## Chains -/

def Bytes.chainEnd : Nat → Bytes
  | 0 => utf8 "\x7d\x7d"
  | n + 1 => utf8 "~" ++ (utf8 "a" ++ chainEnd n)

def Bytes.chain (n : Nat) : Bytes := utf8 "\x7b\x7b" ++ (utf8 "a" ++ chainEnd n)

def TokenKind.chain (n : Nat) : List TokenKind := .identifier :: (List.replicate n [.tilde, .identifier]).flatten

theorem TokenKind.chain_succ (n : Nat) : chain (n + 1) = chain n ++ [.tilde, .identifier] := by
  rw [chain, List.replicate_succ', List.flatten_concat, chain, List.cons_append]

namespace Mode

theorem kinds_name : ∀ n : Nat, (tag.words (utf8 "a" ++ Bytes.chainEnd n)).map Lexeme.kind =
    TokenKind.chain n ++ [.rDoubleBrace]
  | 0 => by cbv
  | n + 1 => by
    have hname : tag.words (utf8 "a" ++ Bytes.chainEnd (n + 1)) =
        ⟨.identifier, utf8 "a", .zero⟩ :: tag.words (Bytes.chainEnd (n + 1)) :=
      words_append (t := ⟨.identifier, utf8 "a", .zero⟩) ⟨by decide, by decide⟩ rfl
    have htilde : tag.words (Bytes.chainEnd (n + 1)) =
        ⟨.tilde, utf8 "~", .zero⟩ :: tag.words (utf8 "a" ++ Bytes.chainEnd n) :=
      words_append (t := ⟨.tilde, utf8 "~", .zero⟩) rfl trivial
    rw [hname, htilde, List.map_cons, List.map_cons, kinds_name n]
    rfl

theorem kinds_chain (n : Nat) : (outside.words (Bytes.chain n)).map Lexeme.kind =
    .lDoubleBrace :: (TokenKind.chain n ++ [.rDoubleBrace]) := by
  have hopen : outside.words (Bytes.chain n) =
      ⟨.lDoubleBrace, utf8 "\x7b\x7b", .zero⟩ :: tag.words (utf8 "a" ++ Bytes.chainEnd n) :=
    words_append (t := ⟨.lDoubleBrace, utf8 "\x7b\x7b", .zero⟩) rfl trivial
  rw [hopen, List.map_cons, kinds_name n]

end Mode

open Grammar

theorem Grammar.exists_spells_chain : ∀ (n : Nat) (ts : List Lexeme), ts.map Lexeme.kind = TokenKind.chain n →
    ∃ e, SpellsExpr .concat ts e ∧ e.height = n + 1 ∧ e.nesting = 0
  | 0, ts, h => by
    obtain ⟨t, rfl, ht⟩ := List.map_eq_singleton_iff.1 h
    exact ⟨.var t.ident, (SpellsExpr.var ht).loosen (by decide), rfl, rfl⟩
  | n + 1, ts, h => by
    rw [TokenKind.chain_succ] at h
    obtain ⟨us, vs, rfl, hus, hvs⟩ := List.map_eq_append_iff.1 h
    obtain ⟨o, vs, rfl, ho, hvs⟩ := List.map_eq_cons_iff.1 hvs
    obtain ⟨t, rfl, ht⟩ := List.map_eq_singleton_iff.1 hvs
    obtain ⟨e, he, hheight, hnesting⟩ := exists_spells_chain n us hus
    have hright := (SpellsExpr.var ht).loosen (p := .pipe) (by decide)
    have hspells : SpellsExpr .concat (us ++ [o, t]) (.binary .concat e (.var t.ident)) :=
      .binary rfl rfl he (by rw [ho]; rfl) hright
    refine ⟨_, hspells, ?_, ?_⟩
    · rw [Expr.height, hheight, Expr.height, Nat.max_eq_left (Nat.le_add_left 1 n)]
    · rw [Expr.nesting, hnesting, Expr.nesting, Nat.max_self]

namespace Template

theorem parse_chain (n : Nat) : ∃ e : Expr, parse (Bytes.chain n) = .ok [.render e] ∧ e.height = n + 1 := by
  have h : (Lexeme.ofSource (Bytes.chain n)).map Lexeme.kind =
      .lDoubleBrace :: (TokenKind.chain n ++ [.rDoubleBrace]) := by
    rw [← Mode.kinds_chain, ← Lexeme.map_erase_ofSource, List.map_map]
    rfl
  obtain ⟨o, us, hsource, ho, hus⟩ := List.map_eq_cons_iff.1 h
  obtain ⟨ts, vs, rfl, hts, hvs⟩ := List.map_eq_append_iff.1 hus
  obtain ⟨c, rfl, hc⟩ := List.map_eq_singleton_iff.1 hvs
  obtain ⟨e, he, hheight, hnesting⟩ := exists_spells_chain n ts hts
  refine ⟨e, parse_eq_ok.2 ⟨?_, ?_⟩, hheight⟩
  · rw [hsource, ← List.append_nil (o :: _)]
    exact .cons (.render ho (he.loosen (by decide)) hc) .nil
  · rw [nesting, Block.nestingList, Block.nesting, hnesting]
    exact Nat.zero_le _

/-- **The expressions that are read are of any height**: no number bounds the heights of those in all sources. -/
theorem height_unbounded : ¬ ∃ bound : Nat, ∀ (s : Bytes) (t : Template), parse s = .ok t →
    ∀ e ∈ t.exprs, e.height ≤ bound := by
  rintro ⟨bound, h⟩
  obtain ⟨e, hparse, hheight⟩ := parse_chain bound
  have hmem : e ∈ exprs [.render e] := List.mem_append_left _ e.mem_parts
  have hle := h _ _ hparse e hmem
  omega

/-- **Only operators and pipes make an expression high.**  The limit on nesting bounds the levels of every expression
that is read, and the operators and pipes in it are all that its height may be above this bound. -/
theorem height_le_add_links {s : Bytes} {t : Template} (h : parse s = .ok t) : ∀ e ∈ t.exprs,
    e.levels ≤ 5 * (maxDepth + 1) ∧ e.height ≤ 5 * (maxDepth + 1) + e.links := by
  intro e he
  obtain ⟨hspells, hnesting⟩ := parse_eq_ok.1 h
  have hwell := hspells.wellFormed (Lexeme.written_ofSource s)
  obtain ⟨hexpr, hdepth⟩ := Block.shallow_exprsList hwell hnesting e he
  have hlevels := Expr.levels_le hexpr
  have hheight := e.height_le_levels
  omega

/-- Chains in arguments, in parentheses and on the right of looser operators. -/
def ladder : Bytes := utf8 "\x7b\x7ba ~ b|f|g ~ \"c\" == !(d or e and h(x|f, y ~ z)) or true\x7d\x7d"

theorem height_le_add_links_at_ladder : ∃ t, parse ladder = .ok t ∧
    (t.exprs.map fun e => (e.levels, e.height, e.links)).head? = some (8, 9, 10) ∧
    ∀ e ∈ t.exprs, e.levels ≤ 5 * (maxDepth + 1) ∧ e.height ≤ 5 * (maxDepth + 1) + e.links := by
  obtain ⟨t, h, hfirst⟩ := exists_of_map_eq_ok (s := ladder)
    (f := fun t => (t.exprs.map fun e => (e.levels, e.height, e.links)).head?) (a := some (8, 9, 10)) (by cbv)
  exact ⟨t, h, hfirst, height_le_add_links h⟩

end Template
end Stencil
