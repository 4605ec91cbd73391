import Stencil.Command.Error
import Stencil.Template.Format
/-!
# Format — the commands that put templates into canonical form

`Command.formatFiles` prints the canonical form of templates, checks that they are in it, or puts it in their place.
A check takes no notice of how line ends are written.  The first file that cannot be read or is no template ends the
command; what was done for the files before it stays done.
-/
namespace Stencil

namespace Command

variable {m : Type → Type} [Monad m] [Host m]

inductive FormatMode
  | print | check | inPlace
deriving DecidableEq, Repr

/-- Does what is asked for with one file; false if a check found it not in canonical form. -/
def formatFile (mode : FormatMode) (path : Path) : Run m Bool := do
  let source ← Run.attempt (Host.readFile path) (.read path)
  let formatted ← Run.ofExcept (Template.format source) (.parse path)
  match mode with
  | .print =>
    Host.print (m := m) formatted
    return true
  | .check =>
    if formatted.sameUpToLineEnds source then
      Host.print (m := m) (utf8 (path.describe ++ ": ok\n"))
      return true
    else
      Host.report (m := m) (path.describe ++ ": not formatted\n")
      return false
  | .inPlace =>
    unless formatted == source do Run.attempt (Host.writeFile path formatted) (.write path)
    return true

def formatFiles (mode : FormatMode) : List Path → Run m Bool
  | [] => return true
  | path :: paths => do
    let clean ← formatFile mode path
    let rest ← formatFiles mode paths
    return clean && rest

end Command
end Stencil
