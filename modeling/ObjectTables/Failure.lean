import ObjectTables.Path
/-!
Why a step can fail, and what is said about it.

A failure names the step and carries its cause. It aborts the run, and its exit code is the tool's if
a tool failed with a positive one.
-/
namespace ObjectTables

/-- The errors of the operating system that file operations meet. -/
inductive SystemError where
  | notFound
  | permissionDenied
  | busy
  | alreadyExists
  | notDirectory
  | isDirectory
  | invalidArgument
  | noSpace
  | readOnly
  | nameTooLong
  | notEmpty
deriving DecidableEq, Repr

namespace SystemError

/-- The number of an error. -/
def number : SystemError → Nat
  | notFound => 2
  | permissionDenied => 13
  | busy => 16
  | alreadyExists => 17
  | notDirectory => 20
  | isDirectory => 21
  | invalidArgument => 22
  | noSpace => 28
  | readOnly => 30
  | nameTooLong => 36
  | notEmpty => 39

/-- The words for an error. -/
def words : SystemError → String
  | notFound => "No such file or directory"
  | permissionDenied => "Permission denied"
  | busy => "Device or resource busy"
  | alreadyExists => "File exists"
  | notDirectory => "Not a directory"
  | isDirectory => "Is a directory"
  | invalidArgument => "Invalid argument"
  | noSpace => "No space left on device"
  | readOnly => "Read-only file system"
  | nameTooLong => "File name too long"
  | notEmpty => "Directory not empty"

/-- All errors. -/
def all : List SystemError :=
  [notFound, permissionDenied, busy, alreadyExists, notDirectory, isDirectory, invalidArgument, noSpace,
    readOnly, nameTooLong, notEmpty]

/-- The error of a number. -/
def ofNumber? (n : Nat) : Option SystemError := all.find? (·.number == n)

theorem ofNumber?_number (e : SystemError) : ofNumber? e.number = some e := by
  cases e <;> rfl

end SystemError

/-- Why a file operation or the start of a program fails. -/
inductive Cause where
  /-- The operating system refuses. -/
  | system (error : SystemError)
  /-- A file that has to be text is not UTF-8. -/
  | notText
  /-- The source of a copy is not a regular file. -/
  | notRegular
  /-- A path holds a NUL. -/
  | nulInPath
  /-- An argument of a program holds a NUL. -/
  | nulInArgument
  /-- Anything else, in its own words. -/
  | other (words : String)
deriving DecidableEq, Repr

/-- What a message says about a cause. -/
def Cause.message : Cause → String
  | .system e =>
    let words := e.words
    let number := toString e.number
    s!"{words} (os error {number})"
  | .notText => "stream did not contain valid UTF-8"
  | .notRegular => "the source path is neither a regular file nor a symlink to a regular file"
  | .nulInPath => "file name contained an unexpected NUL byte"
  | .nulInArgument => "nul byte found in provided data"
  | .other words => words

/-- Why a run stops. -/
inductive Failure where
  /-- A tool ended without success; `code` is -1 if a signal ended it. -/
  | tool (program : String) (code : Int) (stderr : Text)
  /-- A tool could not be started. -/
  | start (program : String) (cause : Cause)
  /-- A file could not be read. -/
  | read (path : Path) (cause : Cause)
  /-- A file could not be written. -/
  | write (path : Path) (cause : Cause)
  /-- A directory could not be created. -/
  | createDirectory (path : Path) (cause : Cause)
  /-- A directory could not be removed. -/
  | removeDirectory (path : Path) (cause : Cause)
  /-- A file could not be copied. -/
  | copy (source target : Path) (cause : Cause)
deriving DecidableEq, Repr

namespace Failure

/-- The exit code of failures without one of their own. -/
def genericExitCode : Int := 1

/-- What lies under a failure, unless a tool failed. -/
def cause? : Failure → Option Cause
  | tool .. => none
  | start _ cause | read _ cause | write _ cause | createDirectory _ cause | removeDirectory _ cause
  | copy _ _ cause => some cause

/-- What a failed tool wrote to standard error. -/
def stderr? : Failure → Option Text
  | tool _ _ stderr => some stderr
  | _ => none

/-- The exit code of a failure. -/
def exitCode : Failure → Int
  | tool _ code _ => if 0 < code then code else genericExitCode
  | _ => genericExitCode

/-- What a failure says. -/
def message : Failure → String
  | tool program code stderr =>
    let status := toString code
    let said := String.ofList stderr
    s!"'{program}' exited with status {status}: {said}"
  | start program cause =>
    let why := cause.message
    s!"failed to spawn '{program}': {why}"
  | read path cause => onPath "failed to read file" path cause
  | write path cause => onPath "failed to write file" path cause
  | createDirectory path cause => onPath "failed to create directory" path cause
  | removeDirectory path cause => onPath "failed to remove directory" path cause
  | copy source target cause =>
    let source := Path.display source
    let target := Path.display target
    let why := cause.message
    s!"failed to copy '{source}' to '{target}': {why}"
where
  /-- The message of a failure that concerns one path. -/
  onPath (what : String) (path : Path) (cause : Cause) : String :=
    let path := Path.display path
    let why := cause.message
    s!"{what} '{path}': {why}"

/-- The exit code of every failure is positive. -/
theorem exitCode_pos (f : Failure) : 0 < f.exitCode := by
  cases f <;> simp only [exitCode, genericExitCode] <;> (try split) <;> omega

end Failure

end ObjectTables
