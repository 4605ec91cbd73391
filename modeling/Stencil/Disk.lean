import Stencil.Host
import Stencil.SortedMap
/-!
# Disk — a host that is a value

A disk is a finite map from locations to files and directories, together with the working directory; a location is the
list of names that leads to it from the root, which is always a directory.  A path is followed one part after the
other: each part but the last must lead to a directory, a dot stays and two dots go up.  Names of more than `maxName`
bytes and paths of more than `maxPath` bytes lead nowhere.

A failing operation leaves the disk as it is, with one exception: when a directory is made together with those missing
above it (`Disk.createDir`), the ones made before the failure stay.

`World` adds what has been printed and reported, and is a host (`instHostWorld`).
-/
namespace Stencil

/-- The names that lead from the root to a file or directory. -/
abbrev Location := List Bytes

inductive Node
  | dir
  | file (contents : Bytes)
deriving DecidableEq, Repr

structure Disk where
  cwd : Location
  nodes : SortedMap Location Node

namespace Disk

def node? (d : Disk) (l : Location) : Option Node :=
  match l with
  | [] => some .dir
  | l => d.nodes.find? l

def set (d : Disk) (l : Location) (n : Node) : Disk := ⟨d.cwd, d.nodes.insert l n⟩

def maxName : Nat := 255

def follow (l : Location) (part : Bytes) : Except IoFailure Location :=
  if part = [] ∨ part = [Byte.dot] then .ok l
  else if part = [Byte.dot, Byte.dot] then .ok l.dropLast
  else if maxName < part.length then .error .nameTooLong
  else .ok (l ++ [part])

def needDir (d : Disk) (l : Location) : Except IoFailure Unit :=
  match d.node? l with
  | some .dir => .ok ()
  | some (.file _) => .error .notDirectory
  | none => .error .notFound

def followAll (d : Disk) (l : Location) : List Bytes → Except IoFailure Location
  | [] => .ok l
  | part :: parts => do
    d.needDir l
    d.followAll (← follow l part) parts

def start (d : Disk) (p : Path) : Location := if p.head? = some Byte.slash then [] else d.cwd

def maxPath : Nat := 4095

def checkPath (p : Path) : Except IoFailure Unit :=
  if p = [] then .error .notFound
  else if p.contains 0 then .error .nulByte
  else if maxPath < p.length then .error .nameTooLong
  else .ok ()

def resolve (d : Disk) (p : Path) : Except IoFailure Location := do
  checkPath p
  d.followAll (d.start p) (Bytes.split Byte.slash p)

def look (d : Disk) (p : Path) : Except IoFailure Node := do
  match d.node? (← d.resolve p) with
  | some n => .ok n
  | none => .error .notFound

def isDir (d : Disk) (p : Path) : Bool :=
  match d.look p with
  | .ok .dir => true
  | _ => false

def pathExists (d : Disk) (p : Path) : Bool := (d.look p).isOk

def readFile (d : Disk) (p : Path) : Except IoFailure Bytes := do
  match ← d.look p with
  | .file c => .ok c
  | .dir => .error .isDirectory

/-- The parts of a path without the empty ones that slashes at its end make. -/
def partsOf (p : Path) : List Bytes := ((Bytes.split Byte.slash p).reverse.dropWhile (· = [])).reverse

def parentOf (d : Disk) (l : Location) (parts : List Bytes) : Except IoFailure Location := do
  let parent ← d.followAll l parts.dropLast
  d.needDir parent
  .ok parent

/-- The location of an entry of a directory; nothing for a part of a path that only names a directory already there. -/
def entry (parent : Location) : Option Bytes → Except IoFailure (Option Location)
  | none => .ok none
  | some part =>
    if part = [] ∨ part = [Byte.dot] ∨ part = [Byte.dot, Byte.dot] then .ok none
    else (follow parent part).map some

/-- A file with the given contents at a path.  A slash at the end of the path asks for a directory, whatever name is
in front of it. -/
def writeFile (d : Disk) (p : Path) (contents : Bytes) : Except IoFailure Disk := do
  checkPath p
  let parent ← d.parentOf (d.start p) (partsOf p)
  if p.getLast? = some Byte.slash then .error .isDirectory
  else
    match ← entry parent (partsOf p).getLast? with
    | none => .error .isDirectory
    | some l => if d.node? l = some .dir then .error .isDirectory else .ok (d.set l (.file contents))

def copyFile (d : Disk) (source target : Path) : Except IoFailure Disk := do
  match ← d.look source with
  | .dir => .error .notRegular
  | .file _ =>
    let d ← d.writeFile target []
    d.writeFile target (← d.readFile source)

def makeDir (d : Disk) (l : Location) (parts : List Bytes) : Except IoFailure Disk := do
  match ← entry (← d.parentOf l parts) parts.getLast? with
  | none => .error .exists
  | some l =>
    match d.node? l with
    | some _ => .error .exists
    | none => .ok (d.set l .dir)

def leadsToDir (d : Disk) (l : Location) (parts : List Bytes) : Bool :=
  match d.followAll l parts with
  | .ok l => d.node? l = some .dir
  | .error _ => false

def ensureDir (d : Disk) (l : Location) (parts : List Bytes) : Except IoFailure Disk :=
  match d.makeDir l parts with
  | .ok d => .ok d
  | .error e => if e ≠ .notFound ∧ d.leadsToDir l parts then .ok d else .error e

def after (d : Disk) : Except IoFailure Disk → Disk × Except IoFailure Unit
  | .ok d => (d, .ok ())
  | .error e => (d, .error e)

/-- The same as `ensureDir` for a path whose parts are given from the last to the first, where the directories above it
may be missing too.  Those that could be made stay when a later one fails. -/
def ensureDirs (d : Disk) (l : Location) : List Bytes → Disk × Except IoFailure Unit
  | [] => (d, .ok ())
  | part :: above =>
    match d.ensureDir l (part :: above).reverse with
    | .error .notFound =>
      match d.ensureDirs l above with
      | (d, .ok ()) => d.after (d.ensureDir l (part :: above).reverse)
      | r => r
    | r => d.after r

def partOf : Component → Option Bytes
  | .root => none
  | .here => some [Byte.dot]
  | .up => some [Byte.dot, Byte.dot]
  | .name s => some s

/-- A directory at the end of a path's parts, with all that are missing above it: the directories in front of the last
of its components, and then the one that the parts lead to as they are written. -/
def createDirAt (d : Disk) (p : Path) : Disk × Except IoFailure Unit :=
  match d.ensureDir (d.start p) (partsOf p) with
  | .error .notFound =>
    match d.ensureDirs (d.start p) (p.components.filterMap partOf).dropLast.reverse with
    | (d, .ok ()) => d.after (d.ensureDir (d.start p) (partsOf p))
    | r => r
  | r => d.after r

/-- A directory at a path, with all that are missing above it; the empty path asks for nothing. -/
def createDir (d : Disk) (p : Path) : Disk × Except IoFailure Unit :=
  if p = [] then (d, .ok ())
  else
    match checkPath p with
    | .ok () => d.createDirAt p
    | .error e => (d, .error e)

def below? : Location → Location → Option Location
  | [], r => if r = [] then none else some r
  | a :: l, b :: r => if a = b then below? l r else none
  | _ :: _, [] => none

def found (p : Path) (names : Location) (n : Node) : Found :=
  ⟨names.foldl Path.join p, names.getLast?.getD [], n = .dir⟩

/-- A walk over what is found, which ends at the first directory whose path is too long to read it. -/
def walkOver : List Found → Walk
  | [] => ⟨[], none⟩
  | f :: fs =>
    if f.isDir ∧ maxPath < f.path.length then ⟨[f], some (f.path, .nameTooLong)⟩
    else ⟨f :: (walkOver fs).found, (walkOver fs).failure⟩

/-- Everything below a path, in the order of locations, which puts a directory before what is in it. -/
def walk (d : Disk) (p : Path) : Walk :=
  match d.resolve p with
  | .error e => ⟨[], some (p, e)⟩
  | .ok l => walkOver (d.nodes.toList.filterMap fun e => (below? l e.1).map fun names => found p names e.2)

end Disk

/-- A disk and what has been printed and reported, in pieces, the latest first. -/
structure World where
  disk : Disk
  printed : List Bytes
  reported : List String

namespace World

def change (f : Disk → Disk × Except IoFailure Unit) : StateM World (Except IoFailure Unit) := fun w =>
  ((f w.disk).2, { w with disk := (f w.disk).1 })

def output (w : World) : Bytes := w.printed.reverse.flatten

def errors (w : World) : String := String.join w.reported.reverse

end World

instance instHostWorld : Host (StateM World) where
  readFile p := fun w => (w.disk.readFile p, w)
  writeFile p c := World.change fun d => d.after (d.writeFile p c)
  copyFile p q := World.change fun d => d.after (d.copyFile p q)
  createDir p := World.change fun d => d.createDir p
  isDir p := fun w => (w.disk.isDir p, w)
  pathExists p := fun w => (w.disk.pathExists p, w)
  walk p := fun w => (w.disk.walk p, w)
  print b := fun w => ((), { w with printed := b :: w.printed })
  report s := fun w => ((), { w with reported := s :: w.reported })

end Stencil
