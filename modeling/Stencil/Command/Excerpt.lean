import Stencil.Analysis.Diagnostic
import Stencil.Builtin
import Stencil.Render.Error
import Stencil.Template.ParseError
/-!
# Excerpt — errors shown in their source

An error in a template is reported with the line it was found in, a mark under its place, and, for some, a hint at what
to do.  `Palette` says whether reports are coloured.
-/
namespace Stencil

structure Palette where
  colored : Bool
deriving DecidableEq, Repr

namespace Palette

/-- Reports are coloured unless the environment asks for none by a value that is not empty. -/
def ofNoColor (noColor : Option String) : Palette :=
  match noColor with
  | some s => ⟨s.isEmpty⟩
  | none => ⟨true⟩

def paint (p : Palette) (start stop s : String) : String := if p.colored then start ++ s ++ stop else s

def red (p : Palette) (s : String) : String := p.paint "\x1b[31m" "\x1b[39m" s

def yellow (p : Palette) (s : String) : String := p.paint "\x1b[33m" "\x1b[39m" s

def gray (p : Palette) (s : String) : String := p.paint "\x1b[90m" "\x1b[39m" s

def alert (p : Palette) (s : String) : String := p.paint "\x1b[1m" "\x1b[0m" (p.red s)

end Palette

def ParseError.Cause.hint (p : Palette) : ParseError.Cause → List String
  | .newlineInTag => [p.yellow "Help: tags must open and close on the same line."]
  | .unterminatedString => [p.yellow "Help: string is missing its closing quote."]
  | .unclosed _ => [p.yellow "Help: every 'if' and 'switch' needs a matching '\x7b% end %\x7d'."]
  | _ => []

def RenderError.Cause.hint (p : Palette) : RenderError.Cause → List String
  | .unboundName _ => [p.yellow "Help: bind it with --set name=value or in the --context file."]
  | .unknownFunction _ =>
    [p.yellow "Help: check the spelling of the function name.",
     "    " ++ p.gray ("Available builtins: " ++ Registry.standard.namesText)]
  | .switchUnsupported => [p.yellow "Help: 'switch' is reserved; use an if/elseif chain instead."]
  | .mismatch (.operands _ _ _) =>
    [p.yellow "Help: both sides of '==', '!=', 'and', 'or' and '~' must share a type."]
  | _ => []

namespace Excerpt

def lineNumber (n : Nat) : String :=
  let digits := toString n
  String.ofList (List.replicate (3 - digits.length) ' ') ++ digits

/-- A line of source as it is shown: without the carriage returns at its end. -/
def shownLine (line : Bytes) : String :=
  String.ofList ((Utf8.decode line).reverse.dropWhile (· = '\r')).reverse

def place (p : Palette) (source : Bytes) (pos : Position) : List String :=
  match source.lines[pos.line]? with
  | none => []
  | some line =>
    let gutter := lineNumber (pos.line + 1) ++ " | "
    let indent := String.ofList (List.replicate (gutter.length + pos.column) ' ')
    ["     |", p.gray gutter ++ shownLine line, p.red (indent ++ "^") ++ p.red " error here", "     |"]

def lines (p : Palette) (kind message : String) (path : Path) (source : Bytes) (pos : Position) (hint : List String) :
    List String :=
  [p.alert kind ++ ": " ++ p.red message, "  --> " ++ path.describe ++ ":" ++ pos.oneBased]
    ++ place p source pos ++ hint

def text (ls : List String) : String := String.join (ls.map (· ++ "\n"))

def ofParseError (p : Palette) (path : Path) (source : Bytes) (e : ParseError) : String :=
  text (lines p "parse error" e.message path source e.pos (e.cause.hint p))

def ofRenderError (p : Palette) (path : Path) (source : Bytes) (cause : RenderError.Cause) (pos : Position) : String :=
  text (lines p "render error" cause.message path source pos (cause.hint p))

def ofDiagnostics (p : Palette) (ds : List Diagnostic) : String :=
  text (ds.map fun d => p.alert d.location ++ " " ++ d.kind.message)

end Excerpt
end Stencil
