import Stencil.Command.Error
import Stencil.Command.Excerpt
import Stencil.Render
import Stencil.Template.Parser
/-!
# Render — the commands on single templates

`Command.renderFile` renders a template to the standard output or to a file; `Command.checkFiles` analyzes templates
as one set.  Both report what is wrong with a template and end with `false`.
-/
namespace Stencil
namespace Command

variable {m : Type → Type} [Monad m] [Host m]

/-- Where bindings come from: a context file, and assignments that win over it. -/
structure Bindings where
  file : Option Path
  sets : List Bytes
deriving DecidableEq, Repr

def loadContextFile (read : Context.Reader) (path : Path) : Run m Context := do
  let text ← Run.attempt (Host.readFile path) (.readContext path)
  unless Utf8.isValid text do throw (.readContext path .invalidUtf8)
  Run.ofExcept (Context.ofText read text) (.contextFile path)

def loadContext (read : Context.Reader) (b : Bindings) : Run m Context := do
  let base ← match b.file with
    | some path => loadContextFile read path
    | none => pure .empty
  Run.ofExcept (base.assignAll b.sets) .context

def readTemplate (p : Palette) (path : Path) : Run m (Option (Bytes × Template)) := do
  let source ← Run.attempt (Host.readFile path) (.read path)
  match Template.parse source with
  | .ok t => return some (source, t)
  | .error e =>
    Host.report (m := m) (Excerpt.ofParseError p path source e)
    return none

def reportDiagnostics (p : Palette) (ds : List Diagnostic) : Run m Unit := do
  Host.report (m := m) (Excerpt.ofDiagnostics p ds)

/-- The types that a template is rendered with: those of its analysis, unless that is skipped.  Diagnostics are reported
and there are no types then. -/
def typesFor (p : Palette) (path : Path) (t : Template) (unchecked : Bool) : Run m (Option TypeMap) := do
  if unchecked then return some .empty
  let (types, ds) := analyze .standard [(path, t)]
  if ds.isEmpty then return some types
  reportDiagnostics p ds
  return none

def emit (output : Option Path) (b : Bytes) : Run m Unit := do
  match output with
  | some path => Run.attempt (Host.writeFile path b) (.write path)
  | none => Host.print (m := m) b

def renderFile (read : Context.Reader) (p : Palette) (path : Path) (bindings : Bindings) (output : Option Path)
    (unchecked : Bool) : Run m Bool := do
  let some (source, t) ← readTemplate p path | return false
  let context ← loadContext read bindings
  let some types ← typesFor p path t unchecked | return false
  match t.output ⟨.standard, context, types⟩ with
  | .ok b =>
    emit output b
    return true
  | .error (.template cause pos) =>
    Host.report (m := m) (Excerpt.ofRenderError p path source cause pos)
    return false
  | .error e => throw (.render path e)

/-- Reads templates one after the other; what is no template is reported and left out. -/
def readTemplates (p : Palette) : List Path → Run m (List (Path × Template) × Bool)
  | [] => return ([], true)
  | path :: paths => do
    match ← readTemplate p path with
    | some (_, t) =>
      let (ts, ok) ← readTemplates p paths
      return ((path, t) :: ts, ok)
    | none =>
      let (ts, _) ← readTemplates p paths
      return (ts, false)

def typeLines (types : TypeMap) : Bytes :=
  types.toList.flatMap fun e => e.1 ++ utf8 (": " ++ e.2.describe ++ "\n")

def checkFiles (p : Palette) (paths : List Path) (printTypes : Bool) : Run m Bool := do
  let (ts, ok) ← readTemplates p paths
  let (types, ds) := analyze .standard ts
  reportDiagnostics p ds
  if printTypes then Host.print (m := m) (typeLines types)
  return ok && ds.isEmpty

end Command
end Stencil
