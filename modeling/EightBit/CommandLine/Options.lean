import EightBit.CommandLine.Address
import EightBit.Layout

/-!
# Command-line options

The arguments are one source file and any of four options, in any order. An
option that takes a value has it after an equals sign or as the next argument, in
which case it must not look like an option itself. After `--` every argument is a
source file. No option may be given twice.
-/

namespace EightBit

/-- **What the command line asks for.** -/
structure Options where
  /-- The path of the source text. -/
  source : String
  /-- Where to start, if not where the program is loaded. -/
  start : Option Word := none
  /-- Where to load the program. -/
  loadAddress : Word := 0x4000
  /-- The number of memory cells. -/
  memorySize : Nat := addressSpace
  /-- Whether to print the program before it is run. -/
  dump : Bool := false
deriving DecidableEq, Repr

/-- What arguments come down to. -/
inductive Request where
  /-- They are not in order. -/
  | misuse
  /-- They ask for help. -/
  | help
  /-- They ask for a program to be run. -/
  | run (options : Options)
deriving DecidableEq, Repr

namespace Options

/-- The options that have been read so far; each can still be missing. -/
structure Draft where
  source : Option String := none
  start : Option Word := none
  loadAddress : Option Word := none
  memorySize : Option Nat := none
  dump : Bool := false
deriving DecidableEq, Repr

namespace Draft

/-- The largest memory size that can be asked for. -/
def maxMemorySize : Nat := 0xFFFFFFFFFFFFFFFF

/-- A value for a setting that has none yet. -/
def once {α : Type} (setting : Option α) (value : Option α) : Option (Option α) :=
  if setting.isNone ∧ value.isSome then some value else none

/-- Take a source file; there is one, and its path is not empty. -/
def takeSource (d : Draft) (path : Text) : Option Draft :=
  if d.source.isNone ∧ path ≠ [] then some { d with source := String.ofList path } else none

/-- Take an option with its value. -/
def takeValue (d : Draft) (name value : Text) : Option Draft :=
  if name = "--start".toList then do
    return { d with start := ← once d.start (readAddress value).toOption }
  else if name = "--load-address".toList then do
    return { d with loadAddress := ← once d.loadAddress (readAddress value).toOption }
  else if name = "--memory-size".toList then do
    let size := (Numeral.bounded 10 maxMemorySize value).toOption
    return { d with memorySize := ← once d.memorySize size }
  else none

/-- The options, if there is a source file. -/
def finish (d : Draft) : Request :=
  match d.source with
  | none => .misuse
  | some source => .run {
      source
      start := d.start
      loadAddress := d.loadAddress.getD 0x4000
      memorySize := d.memorySize.getD addressSpace
      dump := d.dump }

end Draft

/-- Whether an argument looks like an option. A lone dash does not. -/
def looksLikeOption : Text → Bool
  | '-' :: _ :: _ => true
  | _ => false

/-- Take arguments that are source files whatever they look like. -/
def readSources (d : Draft) : List Text → Request
  | [] => d.finish
  | path :: rest =>
    match d.takeSource path with
    | some d => readSources d rest
    | none => .misuse

/-- Take arguments, the first of which may be an option. -/
def readFrom (d : Draft) : List Text → Request
  | [] => d.finish
  | argument :: rest =>
    if argument = "--".toList then readSources d rest
    else if argument = "--help".toList ∨ argument = "-h".toList then .help
    else if argument = "--dump".toList then
      if d.dump then .misuse else readFrom { d with dump := true } rest
    else if looksLikeOption argument then
      if '=' ∈ argument then
        let name := argument.takeWhile (· != '=')
        match d.takeValue name (argument.drop (name.length + 1)) with
        | some d => readFrom d rest
        | none => .misuse
      else
        match rest with
        | [] => .misuse
        | value :: rest =>
          if looksLikeOption value then .misuse
          else match d.takeValue argument value with
            | some d => readFrom d rest
            | none => .misuse
    else
      match d.takeSource argument with
      | some d => readFrom d rest
      | none => .misuse

/-- **Reading the command line.** -/
def read (arguments : List String) : Request :=
  readFrom {} (arguments.map String.toList)

end Options

end EightBit
