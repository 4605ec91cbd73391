import Stencil.Command.Format
import Stencil.Command.Render
/-!
# Arguments — what a command line asks for

Options may stand anywhere after the name of a command.  A long option takes its value after an equals sign or from the
next argument, a short one also from the rest of its own argument; a value from the next argument may not look like an
option.  After two dashes nothing is an option.  Only assignments may be repeated, and no path may be empty.
-/
namespace Stencil

inductive Command
  | render (template : Path) (bindings : Command.Bindings) (output : Option Path) (unchecked : Bool)
  | check (files : List Path) (types : Bool)
  | tree (source dest : Path) (bindings : Command.Bindings) (force : Bool)
  | format (mode : Command.FormatMode) (files : List Path)
deriving Repr

namespace Command

inductive Opt
  | verbose | context | set | output | unchecked | types | force | check | write
deriving DecidableEq, Repr

namespace Opt

def long : Opt → Bytes
  | .verbose => utf8 "verbose"
  | .context => utf8 "context"
  | .set => utf8 "set"
  | .output => utf8 "output"
  | .unchecked => utf8 "unchecked"
  | .types => utf8 "types"
  | .force => utf8 "force"
  | .check => utf8 "check"
  | .write => utf8 "write"

def short? : Opt → Option UInt8
  | .verbose => some 0x76
  | .output => some 0x6F
  | _ => none

def takesValue : Opt → Bool
  | .context => true
  | .set => true
  | .output => true
  | _ => false

end Opt

inductive Argument
  | positional
  | separator
  /-- Options without values, and one whose value is the argument's rest or the next argument. -/
  | options (flags : List Opt) (valued : Option (Opt × Option Bytes))
deriving Repr

structure Given where
  flags : List Opt
  values : List (Opt × Bytes)
  positionals : List Bytes
deriving Repr

namespace Given

def nothing : Given := ⟨[], [], []⟩

def withOptions (g : Given) (flags : List Opt) (values : List (Opt × Bytes)) : Given :=
  ⟨flags ++ g.flags, values ++ g.values, g.positionals⟩

def withPositional (g : Given) (s : Bytes) : Given := { g with positionals := s :: g.positionals }

def value? (g : Given) (o : Opt) : Option Bytes := g.values.lookup o

def allValues (g : Given) (o : Opt) : List Bytes := (g.values.filter fun v => v.1 = o).map Prod.snd

def hasFlag (g : Given) (o : Opt) : Bool := g.flags.contains o

/-- Whether no option but assignments is given twice, no path is empty, and assignments are text. -/
def isProper (g : Given) : Bool :=
  g.flags.all (fun o => g.flags.count o == 1)
    && g.values.all (fun v => if v.1 = .set then Utf8.isValid v.2 else (g.allValues v.1).length == 1 && !v.2.isEmpty)
    && g.positionals.all fun s => !s.isEmpty

end Given

def dash : UInt8 := 0x2D

def looksLikeOption (s : Bytes) : Bool := s.head? == some dash && s != [dash]

def longOption? (allowed : List Opt) (s : Bytes) : Option Argument := do
  let o ← allowed.find? fun o => o.long == s.takeWhile (· != Byte.equals)
  match s.dropWhile (· != Byte.equals), o.takesValue with
  | [], true => some (.options [] (some (o, none)))
  | _ :: value, true => some (.options [] (some (o, some value)))
  | [], false => some (.options [o] none)
  | _ :: _, false => none

/-- Short options in one argument, without the dash. -/
def shortOptions? (allowed : List Opt) : Bytes → Option Argument
  | [] => some (.options [] none)
  | b :: r => do
    let o ← allowed.find? fun o => o.short? == some b
    if o.takesValue then
      match r with
      | [] => some (.options [] (some (o, none)))
      | Byte.equals :: value => some (.options [] (some (o, some value)))
      | value => some (.options [] (some (o, some value)))
    else
      match ← shortOptions? allowed r with
      | .options flags valued => some (.options (o :: flags) valued)
      | a => some a

def argument? (allowed : List Opt) (s : Bytes) : Option Argument :=
  if !looksLikeOption s then some .positional
  else
    match s with
    | _ :: 0x2D :: [] => some .separator
    | _ :: 0x2D :: r => longOption? allowed r
    | _ :: r => shortOptions? allowed r
    | [] => none

def given? (allowed : List Opt) : List Bytes → Option Given
  | [] => some .nothing
  | s :: rest =>
    match argument? allowed s, rest with
    | none, _ => none
    | some .positional, rest => (given? allowed rest).map (·.withPositional s)
    | some .separator, rest => some { Given.nothing with positionals := rest }
    | some (.options flags none), rest => (given? allowed rest).map (·.withOptions flags [])
    | some (.options flags (some (o, some value))), rest =>
      (given? allowed rest).map (·.withOptions flags [(o, value)])
    | some (.options flags (some (o, none))), value :: rest =>
      if looksLikeOption value then none else (given? allowed rest).map (·.withOptions flags [(o, value)])
    | some (.options _ (some (_, none))), [] => none

def properly? (allowed : List Opt) (args : List Bytes) : Option Given :=
  (given? allowed args).filter Given.isProper

def Given.bindings (g : Given) : Bindings := ⟨g.value? .context, g.allValues .set⟩

def render? (args : List Bytes) : Option Command := do
  let g ← properly? [.verbose, .context, .set, .output, .unchecked] args
  match g.positionals with
  | [template] => some (.render template g.bindings (g.value? .output) (g.hasFlag .unchecked))
  | _ => none

def check? (args : List Bytes) : Option Command := do
  let g ← properly? [.verbose, .types] args
  if g.positionals.isEmpty then none else some (.check g.positionals (g.hasFlag .types))

def tree? (args : List Bytes) : Option Command := do
  let g ← properly? [.verbose, .context, .set, .force] args
  match g.positionals with
  | [source, dest] => some (.tree source dest g.bindings (g.hasFlag .force))
  | _ => none

def format? (args : List Bytes) : Option Command := do
  let g ← properly? [.check, .write] args
  let files := g.positionals
  match files.isEmpty, g.hasFlag .check, g.hasFlag .write with
  | false, false, false => some (.format .print files)
  | false, true, false => some (.format .check files)
  | false, false, true => some (.format .inPlace files)
  | _, _, _ => none

def named? (name : Bytes) (args : List Bytes) : Option Command :=
  if name = utf8 "render" then render? args
  else if name = utf8 "check" then check? args
  else if name = utf8 "tree" then tree? args
  else none

def template? (verbose : Bool) : List Bytes → Option Command
  | [] => none
  | s :: rest =>
    match argument? [.verbose] s with
    | some .positional => named? s rest
    | some (.options [.verbose] none) => if verbose then none else template? true rest
    | _ => none

/-- The command that the arguments of a program ask for; nothing when they are not acceptable. -/
def ofArguments? : List Bytes → Option Command
  | [] => none
  | program :: args =>
    if program = utf8 "vie" then template? false args
    else if program = utf8 "vie-fmt" then format? args
    else none

end Command
end Stencil
