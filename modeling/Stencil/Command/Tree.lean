import Stencil.Command.Render
/-!
# Tree — rendering a directory of templates into a new directory

The name of every file and directory below the source is a template of its own.  A file whose name ends in `.vie` is a
template, and the ending is dropped; any other file is copied.  What a name renders to is placed under what the name of
the directory around it rendered to; an empty name skips an entry and all that is below it.

Reading the source gives a list of entries (`Tree.collect`), and planning turns them into actions (`Tree.plan`): nothing
is written before all names and contents have been rendered and no target is in the way.
-/
namespace Stencil
namespace Tree

variable {m : Type → Type} [Monad m] [Host m]

inductive Body
  | dir
  | copied
  | rendered (t : Template)
deriving Repr

structure Entry where
  source : Path
  name : Template
  body : Body
deriving Repr

inductive Action
  | createDir
  | copy (source : Path)
  | write (contents : Bytes)
deriving DecidableEq, Repr

structure Summary where
  dirs : Nat
  rendered : Nat
  copied : Nat
  skipped : Nat
deriving DecidableEq, Repr

def templateEnding : Bytes := utf8 ".vie"

def stem? (name : Bytes) : Option Bytes :=
  if templateEnding.isSuffixOf name then some (name.take (name.length - templateEnding.length)) else none

def parse (path : Path) (source : Bytes) : Command.Run m Template :=
  Command.Run.ofExcept (Template.parse source) (.parse path)

def readBody (f : Found) : Command.Run m (Body × Bytes) := do
  if f.isDir then return (.dir, f.name)
  match stem? f.name with
  | some stem =>
    let source ← Command.Run.attempt (Host.readFile f.path) (.read f.path)
    return (.rendered (← parse f.path source), stem)
  | none => return (.copied, f.name)

def readEntry (f : Found) : Command.Run m Entry := do
  unless Utf8.isValid f.name do throw (.sourceName f.path)
  let (body, name) ← readBody f
  return ⟨f.path, ← parse f.path name, body⟩

/-- Everything below the source, each directory before what is in it. -/
def collect (source : Path) : Command.Run m (List Entry) := do
  unless ← Host.isDir (m := m) source do throw (.notDirectory source)
  let walk ← Host.walk (m := m) source
  let entries ← walk.found.mapM readEntry
  match walk.failure with
  | none => return entries
  | some (dir, f) => throw (.walk source dir f)

def Entry.templates (e : Entry) : List (Path × Template) :=
  match e.body with
  | .rendered t => [(e.source, e.name), (e.source, t)]
  | _ => [(e.source, e.name)]

structure Planning where
  /-- Where each source directory goes; nowhere if it is skipped. -/
  placed : SortedMap (List Component) (Option Path)
  /-- The source of each target. -/
  owners : SortedMap (List Component) Path
  summary : Summary

namespace Planning

def start (source dest : Path) : Planning :=
  ⟨SortedMap.empty.insert source.components (some dest), .empty, ⟨0, 0, 0, 0⟩⟩

def skip (p : Planning) (e : Entry) : Planning :=
  { p with
    placed := p.placed.insert e.source.components none
    summary := { p.summary with skipped := p.summary.skipped + 1 } }

def place (p : Planning) (e : Entry) (target : Path) : Planning :=
  let owners := p.owners.insert target.components e.source
  match e.body with
  | .dir =>
    ⟨p.placed.insert e.source.components (some target), owners, { p.summary with dirs := p.summary.dirs + 1 }⟩
  | .copied => ⟨p.placed, owners, { p.summary with copied := p.summary.copied + 1 }⟩
  | .rendered _ => ⟨p.placed, owners, { p.summary with rendered := p.summary.rendered + 1 }⟩

end Planning

def isFileName (name : Bytes) : Bool :=
  !(name == [Byte.dot] || name == [Byte.dot, Byte.dot] || name.contains Byte.slash || name.contains Byte.backslash)

def outputAt (scope : Scope) (path : Path) (t : Template) : Except CommandError Bytes :=
  match t.output scope with
  | .ok b => .ok b
  | .error e => .error (.render path e)

def action (scope : Scope) (e : Entry) : Except CommandError Action :=
  match e.body with
  | .dir => .ok .createDir
  | .copied => .ok (.copy e.source)
  | .rendered t => (outputAt scope e.source t).map .write

/-- The plan with one more entry, and what is to be done for it unless it is skipped. -/
def planEntry (scope : Scope) (p : Planning) (e : Entry) :
    Except CommandError (Planning × Option (Path × Action)) := do
  match p.placed.find? e.source.components.dropLast with
  | none => .error (.unvisitedParent e.source)
  | some none => .ok (p.skip e, none)
  | some (some parent) =>
    let name ← outputAt scope e.source e.name
    if name.isEmpty then .ok (p.skip e, none)
    else if !Utf8.isValid name then .error (.targetEncoding e.source)
    else if !isFileName name then .error (.targetName e.source name)
    else
      let target := parent.join name
      match p.owners.find? target.components with
      | some other => .error (.collision other e.source target)
      | none => .ok (p.place e target, some (target, ← action scope e))

/-- What is to be done for the entries before the first error, in order, and that error or the summary. -/
def planEntries (scope : Scope) (p : Planning) : List Entry → List (Path × Action) × Except CommandError Summary
  | [] => ([], .ok p.summary)
  | e :: es =>
    match planEntry scope p e with
    | .error err => ([], .error err)
    | .ok (p, none) => planEntries scope p es
    | .ok (p, some step) =>
      let (steps, r) := planEntries scope p es
      (step :: steps, r)

def plan (scope : Scope) (source dest : Path) (entries : List Entry) :
    List (Path × Action) × Except CommandError Summary :=
  let (steps, r) := planEntries scope (.start source dest) entries
  ((dest, .createDir) :: steps, r)

def checkTargets (force : Bool) : List (Path × Action) → Command.Run m Unit
  | [] => pure ()
  | (_, .createDir) :: steps => checkTargets force steps
  | (target, _) :: steps => do
    if ← Host.pathExists (m := m) target then
      unless force do throw (.targetExists target)
    checkTargets force steps

def perform (step : Path × Action) : Command.Run m Unit :=
  match step with
  | (target, .createDir) => Command.Run.attempt (Host.createDir target) (.write target)
  | (target, .copy source) => Command.Run.attempt (Host.copyFile source target) (.write target)
  | (target, .write b) => Command.Run.attempt (Host.writeFile target b) (.write target)

def performAll : List (Path × Action) → Command.Run m Unit
  | [] => pure ()
  | step :: steps => do
    perform step
    performAll steps

/-- Renders the directory `source` into the directory `dest`. -/
def run (p : Palette) (source dest : Path) (context : Context) (force : Bool) : Command.Run m Summary := do
  let entries ← collect source
  let (types, ds) := analyze .standard (entries.flatMap Entry.templates)
  unless ds.isEmpty do
    Command.reportDiagnostics p ds
    throw (.typeErrors ds.length source)
  let (steps, r) := plan ⟨.standard, context, types⟩ source dest entries
  checkTargets force steps
  let summary ← Command.Run.ofExcept r id
  performAll steps
  return summary

end Tree

namespace Command

variable {m : Type → Type} [Monad m] [Host m]

def summaryLine (s : Tree.Summary) : String :=
  s!"rendered {s.rendered} file(s), copied {s.copied}, created {s.dirs} dir(s), skipped {s.skipped}\n"

def renderTree (read : Context.Reader) (p : Palette) (source dest : Path) (bindings : Bindings) (force : Bool) :
    Run m Bool := do
  let context ← loadContext read bindings
  let summary ← Tree.run p source dest context force
  Host.report (m := m) (summaryLine summary)
  return true

end Command
end Stencil
