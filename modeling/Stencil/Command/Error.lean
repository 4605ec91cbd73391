import Stencil.Context
import Stencil.Host
import Stencil.Render.Error
import Stencil.Template.ParseError
/-!
# CommandError — why a command gives up

What is wrong with a template that a command was asked to render or check is reported, and the command ends with
`false`.  Everything else that goes wrong is an error of the command.
-/
namespace Stencil

inductive CommandError
  | read (path : Path) (failure : IoFailure)
  | write (path : Path) (failure : IoFailure)
  | readContext (path : Path) (failure : IoFailure)
  | contextFile (path : Path) (error : ContextError)
  | context (error : ContextError)
  | parse (path : Path) (error : ParseError)
  | render (path : Path) (error : RenderError)
  | notDirectory (path : Path)
  | walk (source dir : Path) (failure : IoFailure)
  | sourceName (path : Path)
  | typeErrors (count : Nat) (source : Path)
  | targetEncoding (source : Path)
  | targetName (source : Path) (name : Bytes)
  | collision (first second target : Path)
  | targetExists (target : Path)
  | unvisitedParent (source : Path)
deriving DecidableEq, Repr

def CommandError.message : CommandError → String
  | .read p f => s!"failed to read {p.describe}: {f.message}"
  | .write p f => s!"failed to write {p.describe}: {f.message}"
  | .readContext p f => s!"failed to read context file {p.describe}: {f.message}"
  | .contextFile p e => s!"invalid context file {p.describe}: {e.message}"
  | .context e => e.message
  | .parse p e => s!"{p.describe}:{e.pos.oneBased}: {e.message}"
  | .render p e =>
    match e.pos? with
    | some pos => s!"{p.describe}:{pos.oneBased}: {e.message}"
    | none => e.message
  | .notDirectory p => s!"{p.describe} is not a directory"
  | .walk p dir f =>
    s!"failed to walk {p.describe}: IO error for operation on {dir.describe}: {f.message}: {f.message}"
  | .sourceName p => s!"{p.describe} is not valid UTF-8"
  | .typeErrors n p => s!"{n} type error(s) in {p.describe}"
  | .targetEncoding p => s!"{p.describe}: file name is not valid UTF-8"
  | .targetName p name => s!"{p.describe}: invalid file name '{Utf8.toText name}'"
  | .collision p q t => s!"{p.describe} and {q.describe} both render to {t.describe}"
  | .targetExists t => s!"{t.describe} already exists (use --force to overwrite)"
  | .unvisitedParent p => s!"{p.describe}: parent directory was not visited"

/-- What a command does: it runs on a host and ends with whether all went well, or gives up. -/
abbrev Command.Run (m : Type → Type) (α : Type) : Type := ExceptT CommandError m α

namespace Command.Run

variable {m : Type → Type} [Monad m]

def attempt {α : Type} (op : m (Except IoFailure α)) (error : IoFailure → CommandError) : Command.Run m α := do
  match ← op with
  | .ok a => return a
  | .error f => throw (error f)

def ofExcept {ε α : Type} (r : Except ε α) (error : ε → CommandError) : Command.Run m α :=
  match r with
  | .ok a => pure a
  | .error e => throw (error e)

end Command.Run
end Stencil
