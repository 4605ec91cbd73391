import Stencil.Template.Parser
import Stencil.Template.Printer
/-!
# Format — the canonical form of a source

`Template.format` reads a source and prints it again.  A source counts as formatted when that gives it back, up to how
its line ends are written.
-/
namespace Stencil

def Template.format (source : Bytes) : Except ParseError Bytes :=
  match Template.parse source with
  | .ok t => .ok t.print
  | .error e => .error e

/-- Whether two byte strings are the same once a carriage return in front of a newline counts for nothing. -/
def Bytes.sameUpToLineEnds (s t : Bytes) : Bool := s.normalizeNewlines == t.normalizeNewlines

end Stencil
