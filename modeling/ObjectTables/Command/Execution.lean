import ObjectTables.Command.Options
import ObjectTables.Digest
import ObjectTables.Regeneration
import ObjectTables.Text.Harmless
/-!
What the command does: it runs the regeneration with the interpreter as a process, says which files it
has written, and ends with the exit code of what went wrong, if anything did.
-/
namespace ObjectTables.Command

/-- A line that the command puts on standard output. -/
inductive Line where
  | log (level : Level) (message : String)
  | plain (message : String)
deriving DecidableEq, Repr

/-- The name of a level in a log line, five columns wide. -/
def levelLabel : Level → String
  | .info => " INFO"
  | .warning => " WARN"
  | .error => "ERROR"

/-- The text of a line, with its end. The message of a log line is shown in its harmless form. -/
def Line.text : Line → String
  | log level message =>
    let level := levelLabel level
    let shown := String.ofList (Text.harmless message.toList)
    s!"{level} {shown}\n"
  | plain message => s!"{message}\n"

/-- All that shows of the command when it has ended, the files apart. -/
structure Outcome where
  exit : Int
  stdout : List Line
  stderr : Text
deriving DecidableEq, Repr

/-- The number of this version. -/
def version : String := "0.1.0"

/-- The name and the version of the command. -/
def versionLine : String := s!"oidtrim {version}"

/-- How the command is used. -/
def usage : String :=
  "Regenerate a whitelisted OpenSSL object table\n\n" ++
  "Usage: oidtrim [OPTIONS]\n\n" ++
  "Options:\n" ++
  "  -r, --root <ROOT>          Directory with the whitelist and the outputs [default: .]\n" ++
  "  -u, --upstream <UPSTREAM>  Directory of the full tables, relative to the root [default: ../openssl]\n" ++
  "  -v, --verbose...           Say more\n" ++
  "  -h, --help                 Print help\n" ++
  "  -V, --version              Print version"

/-- The sites of a run with some options. -/
def Options.sites (o : Options) : Sites := { root := o.root, library := o.library }

/-- The lines of notices, as far as they are asked for: warnings always, the rest from verbosity 1. -/
def noticeLines (verbosity : Nat) (notices : List Notice) : List Line :=
  (notices.filter fun n => n.level != .info || 0 < verbosity).map fun n => .log n.level n.message

/-- What a failed tool wrote to standard error, with its last line ended. -/
def stderrOf (f : Failure) : Text :=
  match f.stderr? with
  | none => []
  | some said => if said.isEmpty || said.getLast? == some '\n' then said else said ++ ['\n']

/-- The error line of a failed run: where it failed, why, and what lies under that. -/
def failureLine (root : Path) (f : Failure) : Line :=
  let root := Path.display root
  let why := f.message
  let under := match f.cause? with
    | some cause => ": " ++ cause.message
    | none => ""
  .log .error s!"Failed to regenerate object tables in {root}: {why}{under}"

/-- The lines about published files: one for each that can be read back. The first that cannot be
read ends them with an error. -/
def productLines (directory : Location) (t : FileTree) : List Product → List Line × Option Line
  | [] => ([], none)
  | p :: rest =>
    let path := Path.display p.path
    match t.read directory p.path with
    | .ok content =>
      let digest := String.ofList (Digest.short content)
      let (lines, failed?) := productLines directory t rest
      (.plain s!"Wrote {path} ({digest})" :: lines, failed?)
    | .error cause =>
      let why := cause.message
      ([], some (.log .error s!"Failed to read {path}: {why}"))

/-- What is said about a successful run. -/
def reportLines (directory : Location) (verbosity : Nat) (t : FileTree) (r : Report) : List Line × Bool :=
  match productLines directory t r.products with
  | (lines, some failed) => (lines ++ [failed], false)
  | (lines, none) =>
    let retained := toString r.retained
    let total := toString r.total
    let missing := toString r.missing.length
    let written := toString r.products.length
    let summary : Line := .log .info
      s!"Summary: {retained} of {total} objects retained, {missing} placeholders, {written} files written"
    (lines ++ (if 0 < verbosity then [summary] else []), true)

/-- Runs the regeneration that some options ask for. -/
def execute (directory : Location) (launch : Launch) (o : Options) (t : FileTree) : Outcome × FileTree :=
  if !t.reachesDirectory directory o.root then
    let root := Path.display o.root
    (⟨Failure.genericExitCode, [.log .error s!"Root directory does not exist: {root}"], []⟩, t)
  else
    let (result, progress) := (Regeneration.run directory (launch.tool directory) o.sites).run { tree := t }
    let said := noticeLines o.verbosity progress.notices
    match result with
    | .error f => (⟨f.exitCode, said ++ [failureLine o.root f], stderrOf f⟩, progress.tree)
    | .ok report =>
      let (lines, complete) := reportLines directory o.verbosity progress.tree report
      (⟨if complete then 0 else Failure.genericExitCode, said ++ lines, []⟩, progress.tree)

/-- The exit code of a refused command line. -/
def usageExitCode : Int := 2

/-- The command with its arguments, in a working directory and a file tree. -/
def perform (directory : Location) (launch : Launch) (arguments : List Bytes) (t : FileTree) : Outcome × FileTree :=
  match Request.ofArguments arguments with
  | .ok (.run options) => execute directory launch options t
  | .ok .help => (⟨0, [.plain usage], []⟩, t)
  | .ok .version => (⟨0, [.plain versionLine], []⟩, t)
  | .error e => (⟨usageExitCode, [], (e.message ++ "\n").toList⟩, t)

end ObjectTables.Command
