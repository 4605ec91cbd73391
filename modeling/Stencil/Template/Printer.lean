import Stencil.Template
/-!
# Printer — the canonical form of a template

Text, comments and literals are printed byte for byte; inside a tag exactly one space stands after the opener, before
the closer and around an operator, one after each comma, and none elsewhere.  The printer adds no parentheses: those
of the source are part of the tree.
-/
namespace Stencil

mutual

def Expr.print : Expr → Bytes
  | .lit v _ => v.source
  | .var x => x.name
  | .not e _ => Byte.bang :: e.print
  | .binary op l r => l.print ++ (Byte.space :: utf8 op.symbol ++ Byte.space :: r.print)
  | .paren e _ => Byte.lparen :: (e.print ++ [Byte.rparen])
  | .call f args => f.name ++ (Byte.lparen :: (Expr.printList args ++ [Byte.rparen]))
  | .pipe a f => a.print ++ (utf8 " | " ++ f.name)

def Expr.printList : List Expr → Bytes
  | [] => []
  | [e] => e.print
  | e :: e' :: es => e.print ++ (utf8 ", " ++ Expr.printList (e' :: es))

end

mutual

def Block.print : Block → Bytes
  | .text c _ => c
  | .comment c _ => utf8 "\x7b#" ++ (c ++ utf8 "#\x7d")
  | .render e => utf8 "\x7b\x7b " ++ (e.print ++ utf8 " \x7d\x7d")
  | .cond branches none _ => Block.printBranches "if" branches ++ utf8 "\x7b% end %\x7d"
  | .cond branches (some body) _ =>
    Block.printBranches "if" branches ++ (utf8 "\x7b% else %\x7d" ++ (Block.printList body ++ utf8 "\x7b% end %\x7d"))
  | .switch v cases _ =>
    utf8 "\x7b% switch " ++ (v.print ++ (utf8 " %\x7d" ++ (Block.printCases cases ++ utf8 "\x7b% end %\x7d")))
termination_by structural b => b

def Block.printList : List Block → Bytes
  | [] => []
  | b :: bs => b.print ++ Block.printList bs
termination_by structural bs => bs

/-- The branches of a condition; the first is opened by `word`, each later one by `elseif`. -/
def Block.printBranches (word : String) : List (Expr × List Block) → Bytes
  | [] => []
  | (c, body) :: rest =>
    utf8 "\x7b% " ++ (utf8 word ++ (Byte.space :: c.print ++ (utf8 " %\x7d" ++
      (Block.printList body ++ Block.printBranches "elseif" rest))))
termination_by structural bs => bs

def Block.printCases : List (List Expr × List Block) → Bytes
  | [] => []
  | (ps, body) :: rest =>
    utf8 "\x7b% case " ++ (Expr.printList ps ++ (utf8 " %\x7d" ++ (Block.printList body ++ Block.printCases rest)))
termination_by structural cs => cs

end

def Template.print (t : Template) : Bytes := Block.printList t

end Stencil
