import Stencil.Command
/-!
# Main — the commands on the real machine

The only module that touches files, streams and the environment: it makes `IO` a host and runs the command that the
arguments ask for.  The program answers to two names, one for rendering and checking and one for formatting.
-/
namespace Stencil
namespace Main

def failureOf : IO.Error → IoFailure
  | .noFileOrDirectory _ _ _ => .notFound
  | .alreadyExists _ _ _ => .exists
  | .inappropriateType _ code _ => if code = 21 then .isDirectory else .notDirectory
  | .invalidArgument _ 36 _ => .nameTooLong
  | e => .other (toString e)

def attempt {α : Type} (op : IO α) : IO (Except IoFailure α) := do
  try
    return .ok (← op)
  catch e => return .error (failureOf e)

def text (p : Path) : String := Utf8.toText p

def pack (b : Bytes) : ByteArray := ⟨b.toArray⟩

def readFile (p : Path) : IO Bytes := do return (← IO.FS.readBinFile (text p)).data.toList

def writeFile (p : Path) (b : Bytes) : IO Unit := IO.FS.writeBinFile (text p) (pack b)

/-- Copies a file as `Host.copyFile` says: the target is emptied before the source is read. -/
def copyFile (source target : Path) : IO Unit := do
  discard <| readFile source
  writeFile target []
  writeFile target (← readFile source)

def isDir (p : Path) : IO Bool := do ((← IO.currentDir) / text p).isDir

def pathExists (p : Path) : IO Bool := do ((← IO.currentDir) / text p).pathExists

def names (p : Path) : IO (List Bytes) := do
  let entries ← ((← IO.currentDir) / text p).readDir
  return (SortedMap.ofList (entries.toList.map fun e => (utf8 e.fileName, ()))).keys

partial def walk (p : Path) : IO Walk := do
  match ← attempt (names p) with
  | .error e => return ⟨[], some (p, e)⟩
  | .ok ns =>
    let mut found := []
    for name in ns do
      let path := p.join name
      if ← isDir path then
        let below ← walk path
        found := found ++ ⟨path, name, true⟩ :: below.found
        if below.failure.isSome then return ⟨found, below.failure⟩
      else found := found ++ [⟨path, name, false⟩]
    return ⟨found, none⟩

end Main

instance instHostSystem : Host IO where
  readFile p := Main.attempt (Main.readFile p)
  writeFile p b := Main.attempt (Main.writeFile p b)
  copyFile p q := Main.attempt (Main.copyFile p q)
  createDir p := Main.attempt (IO.FS.createDirAll (Main.text p))
  isDir := Main.isDir
  pathExists := Main.pathExists
  walk := Main.walk
  print b := do (← IO.getStdout).write (Main.pack b)
  report s := do (← IO.getStderr).putStr s

def Main.run (palette : Palette) (c : Command) : IO UInt32 := do
  match ← ((c.run palette : Command.Run IO Bool)).run with
  | .ok true => return 0
  | .ok false => return 1
  | .error e =>
    Host.report (m := IO) (palette.alert "error" ++ ": " ++ e.message ++ "\n")
    return 1

end Stencil

open Stencil in
def main (args : List String) : IO UInt32 := do
  let program := (← IO.appPath).fileName.getD "vie"
  match Command.ofArguments? ((program :: args).map utf8) with
  | some c => Main.run (Palette.ofNoColor (← IO.getEnv "NO_COLOR")) c
  | none =>
    Host.report (m := IO) "error: unacceptable arguments\n"
    return 2
