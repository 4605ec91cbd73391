import Stencil.Analysis.Finding
/-!
# Analysis — the types of the names of a set of templates

An analysis records usages and diagnostics of any number of templates in the order in which they come.  Its results
give each used name the type that most of its usages want (`Ty.vote`), and one more diagnostic for each usage that
wants another type.
-/
namespace Stencil

structure Usage where
  name : Bytes
  ty : Ty
  pos : Position
  path : Path
deriving DecidableEq, Repr

abbrev TypeMap := SortedMap Bytes Ty

/-- The type that stands most often in a list; of several the first in the order of `Ty.all`, and `string` where there
is none. -/
def Ty.vote (tys : List Ty) : Ty :=
  Ty.all.foldl (fun best t => if Nat.blt (tys.count best) (tys.count t) then t else best) .string

structure Analysis where
  usages : List Usage
  diagnostics : List Diagnostic
deriving Repr

namespace Analysis

def empty : Analysis := ⟨[], []⟩

def addUsage (a : Analysis) (u : Usage) : Analysis := { a with usages := a.usages ++ [u] }

def addDiagnostic (a : Analysis) (d : Diagnostic) : Analysis := { a with diagnostics := a.diagnostics ++ [d] }

def usagesOf (path : Path) (fs : List Finding) : List Usage :=
  fs.filterMap fun
    | .usage name ty pos => some ⟨name, ty, pos, path⟩
    | .problem .. => none

def diagnosticsOf (path : Path) (fs : List Finding) : List Diagnostic :=
  fs.filterMap fun
    | .usage .. => none
    | .problem kind pos => some ⟨path, pos, kind⟩

def addTemplate (registry : Registry) (a : Analysis) (path : Path) (t : Template) : Analysis :=
  let fs := t.findings registry
  ⟨a.usages ++ usagesOf path fs, a.diagnostics ++ diagnosticsOf path fs⟩

def byName (us : List Usage) : SortedMap Bytes (List Usage) :=
  us.foldr (fun u m => m.insert u.name (u :: (m.find? u.name).getD [])) .empty

def voted (us : List Usage) : Ty := Ty.vote (us.map Usage.ty)

def dissent (us : List Usage) : List Diagnostic :=
  (us.filter fun u => u.ty ≠ voted us).map fun u => ⟨u.path, u.pos, .wrongUsage (voted us) u.ty⟩

def types (a : Analysis) : TypeMap := (byName a.usages).mapValues fun _ us => voted us

/-- All diagnostics by path and position; at one place the recorded ones come first, then dissenting usages by name,
each in the order of recording. -/
def allDiagnostics (a : Analysis) : List Diagnostic :=
  (a.diagnostics ++ (byName a.usages).toList.flatMap fun e => dissent e.2).mergeSort Diagnostic.le

end Analysis

/-- The types of the names in a set of templates, and all that is wrong with them. -/
def analyze (registry : Registry) (templates : List (Path × Template)) : TypeMap × List Diagnostic :=
  let a := templates.foldl (fun a t => a.addTemplate registry t.1 t.2) Analysis.empty
  (a.types, a.allDiagnostics)

end Stencil
