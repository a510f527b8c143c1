import ObjectTables.Shell.Script
/-!
The options of a shell that are on or off.
-/
namespace ObjectTables.Shell

/-- An option of the shell. -/
inductive Switch where
  | exitOnError | noPathnames | ignoreEnd | interactive | monitor | noExecution | standardInput | trace | verbose
  | viEditing | emacsEditing | noClobber | allExport | notify | noUnset | privileged | noLog | debug
deriving DecidableEq, Repr

namespace Switch

/-- All options in their order, with their names and letters. -/
def all : List (Switch × String × Option Char) :=
  [(exitOnError, "errexit", some 'e'), (noPathnames, "noglob", some 'f'), (ignoreEnd, "ignoreeof", some 'I'),
    (interactive, "interactive", some 'i'), (monitor, "monitor", some 'm'), (noExecution, "noexec", some 'n'),
    (standardInput, "stdin", some 's'), (trace, "xtrace", some 'x'), (verbose, "verbose", some 'v'),
    (viEditing, "vi", some 'V'), (emacsEditing, "emacs", some 'E'), (noClobber, "noclobber", some 'C'),
    (allExport, "allexport", some 'a'), (notify, "notify", some 'b'), (noUnset, "nounset", some 'u'),
    (privileged, "privileged", some 'p'), (noLog, "nolog", none), (debug, "debug", none)]

/-- The option of a letter. -/
def ofLetter? (b : UInt8) : Option Switch :=
  (all.find? fun (_, _, letter?) => letter?.any fun c => code c == b).map (·.1)

/-- The option of a name. -/
def ofName? (name : Bytes) : Option Switch :=
  (all.find? fun (_, n, _) => Bytes.ofString n == name).map (·.1)

/-- Some options with one of them on or off. The two ways of editing exclude each other. -/
def put (s : Switch) (on : Bool) (l : List Switch) : List Switch :=
  let others := l.filter (· != s)
  if !on then others
  else match s with
    | viEditing => s :: others.filter (· != emacsEditing)
    | emacsEditing => s :: others.filter (· != viEditing)
    | s => s :: others

/-- The letters of the options that are on, last first. -/
def letters (l : List Switch) : Bytes :=
  (all.filterMap fun (s, _, letter?) => if l.contains s then letter?.map code else none).reverse

end Switch

end ObjectTables.Shell
