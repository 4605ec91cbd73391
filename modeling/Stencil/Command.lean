import Stencil.Command.Arguments
import Stencil.Command.Tree
/-!
# Command — running what a command line asks for

Context files are read as JSON.
-/
namespace Stencil

/-- Runs a command on a host; it ends with whether all went well. -/
def Command.run {m : Type → Type} [Monad m] [Host m] (p : Palette) : Command → Command.Run m Bool
  | .render template bindings output unchecked => Command.renderFile Json.bindings? p template bindings output unchecked
  | .check files types => Command.checkFiles p files types
  | .tree source dest bindings force => Command.renderTree Json.bindings? p source dest bindings force
  | .format mode files => Command.formatFiles mode files

end Stencil
