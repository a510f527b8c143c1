import ObjectTables.Sites
/-!
The arguments of the command.

Options may come in any order. Each directory is given at most once, a bundle of short
options may end in one that takes a value, and after `--` there must be nothing. The first argument
that decides (help, version or an error) decides.
-/
namespace ObjectTables.Command

/-- What a run is asked to do. -/
structure Options where
  root : Path := Path.ofString "."
  library : Path := Path.ofString "../openssl"
  /-- How often more output is asked for. -/
  verbosity : Nat := 0
deriving DecidableEq, Repr

/-- What the command is asked for. -/
inductive Request where
  | run (options : Options)
  | help
  | version
deriving DecidableEq, Repr

/-- Why arguments are refused. -/
inductive UsageError where
  | unexpectedArgument (argument : Bytes)
  | missingValue (option : String)
  | repeated (option : String)
  | unexpectedValue (option : String)
deriving DecidableEq, Repr

/-- What a usage error says. -/
def UsageError.message : UsageError → String
  | unexpectedArgument argument =>
    let argument := Path.display argument
    s!"error: unexpected argument '{argument}' found"
  | missingValue option => s!"error: a value is required for '{option}' but none was supplied"
  | repeated option => s!"error: the argument '{option}' cannot be used multiple times"
  | unexpectedValue option => s!"error: unexpected value for '{option}' found; no more were expected"

/-- The options that take a directory. -/
inductive DirectoryOption where
  | root
  | library
deriving DecidableEq, Repr

/-- How a message writes an option that takes a directory. -/
def DirectoryOption.label : DirectoryOption → String
  | root => "--root <ROOT>"
  | library => "--upstream <UPSTREAM>"

/-- The options seen so far. -/
structure Seen where
  root? : Option Path := none
  library? : Option Path := none
  verbosity : Nat := 0

/-- The options of a run, with defaults for those that were not seen. -/
def Seen.options (s : Seen) : Options :=
  let default : Options := {}
  { root := s.root?.getD default.root
    library := s.library?.getD default.library
    verbosity := s.verbosity }

/-- Takes the value of an option, which must be neither empty nor a second one. -/
def Seen.give (s : Seen) (o : DirectoryOption) (value : Bytes) : Except UsageError Seen :=
  if value.isEmpty then .error (.missingValue o.label)
  else match o with
    | .root => if s.root?.isSome then .error (.repeated o.label) else .ok { s with root? := some value }
    | .library =>
      if s.library?.isSome then .error (.repeated o.label) else .ok { s with library? := some value }

/-- What one argument asks for. -/
inductive Wish where
  /-- These options have been seen; go on. -/
  | seen (s : Seen)
  /-- The value of an option comes next. -/
  | value (s : Seen) (o : DirectoryOption)
  | help
  | version
  | refused (e : UsageError)

/-- The byte that begins an option. -/
def dash : UInt8 := 0x2D

/-- The byte between an option and a value in one argument. -/
def equals : UInt8 := 0x3D

/-- Whether an argument is an option by its form. A single dash is not. -/
def isOption (argument : Bytes) : Bool := argument.head? == some dash && argument != [dash]

/-- Reads a bundle of short options, given without its dash. -/
def readShort (s : Seen) : Bytes → Wish
  | [] => .seen s
  | c :: rest =>
    if c = 0x76 then readShort { s with verbosity := s.verbosity + 1 } rest
    else if c = 0x68 then .help
    else if c = 0x56 then .version
    else if c = 0x72 then directory .root rest
    else if c = 0x75 then directory .library rest
    else .refused (.unexpectedArgument (dash :: c :: rest))
where
  /-- Reads the value of a short option, which may follow it at once. -/
  directory (o : DirectoryOption) : Bytes → Wish
    | [] => .value s o
    | c :: rest =>
      match s.give o (if c = equals then rest else c :: rest) with
      | .ok s' => .seen s'
      | .error e => .refused e

/-- Reads a long option, given without its dashes and split at its first equals sign. -/
def readLong (s : Seen) (name : Bytes) (value? : Option Bytes) : Wish :=
  if name = Bytes.ofString "root" then directory .root
  else if name = Bytes.ofString "upstream" then directory .library
  else if value?.isSome then .refused (.unexpectedValue (Path.display name))
  else if name = Bytes.ofString "verbose" then .seen { s with verbosity := s.verbosity + 1 }
  else if name = Bytes.ofString "help" then .help
  else if name = Bytes.ofString "version" then .version
  else .refused (.unexpectedArgument (dash :: dash :: name))
where
  /-- Takes the value of a long option, if it came with one. -/
  directory (o : DirectoryOption) : Wish :=
    match value? with
    | none => .value s o
    | some value =>
      match s.give o value with
      | .ok s' => .seen s'
      | .error e => .refused e

/-- Reads one argument. -/
def read (s : Seen) (argument : Bytes) : Wish :=
  if !isOption argument then .refused (.unexpectedArgument argument)
  else match argument with
    | _ :: 0x2D :: long =>
      let name := long.takeWhile (· != equals)
      readLong s name (if long.contains equals then some (long.drop (name.length + 1)) else none)
    | _ :: short => readShort s short
    | [] => .refused (.unexpectedArgument argument)

/-- Reads the arguments after some options. -/
def readFrom (s : Seen) : List Bytes → Except UsageError Request
  | [] => .ok (.run s.options)
  | argument :: rest =>
    if argument = [dash, dash] then
      match rest with
      | [] => .ok (.run s.options)
      | extra :: _ => .error (.unexpectedArgument extra)
    else match read s argument with
      | .seen s' => readFrom s' rest
      | .help => .ok .help
      | .version => .ok .version
      | .refused e => .error e
      | .value s' o =>
        match rest with
        | [] => .error (.missingValue o.label)
        | value :: rest' =>
          if isOption value then .error (.missingValue o.label)
          else match s'.give o value with
            | .ok s'' => readFrom s'' rest'
            | .error e => .error e

/-- Reads the arguments of the command. -/
def Request.ofArguments (arguments : List Bytes) : Except UsageError Request := readFrom {} arguments

end ObjectTables.Command
