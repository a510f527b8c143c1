import ObjectTables.Tool
import ObjectTables.Sites
/-!
The generator scripts and how they are called.

One script numbers the objects of a definition file, or writes their symbol header; another makes the
lookup table from that header.
-/
namespace ObjectTables

/-- What the generator makes. -/
inductive Stage where
  | numbering
  | header
  | lookupTable
deriving DecidableEq, Repr

/-- The name of a stage in messages. -/
def Stage.label : Stage → String
  | numbering => "numbering"
  | header => "header"
  | lookupTable => "lookup_table"

/-- The interpreter and its two scripts. -/
structure Generator where
  interpreter : String
  objectsScript : Path
  tableScript : Path
deriving DecidableEq, Repr

namespace Generator

/-- The argument that asks for a numbering. -/
def numberingFlag : String := "-n"

/-- The generator of the sites. -/
def ofSites (s : Sites) : Generator := ⟨s.interpreter, s.objectsScript, s.tableScript⟩

/-- The call that makes one stage's output from its inputs. -/
def call (g : Generator) (stage : Stage) (inputs : List Path) (output : Path) : Call where
  program := g.interpreter
  arguments := match stage with
    | .numbering => g.objectsScript :: Bytes.ofString numberingFlag :: inputs
    | .header => g.objectsScript :: inputs
    | .lookupTable => g.tableScript :: inputs
  output := output

end Generator

end ObjectTables
