import ObjectTables.Path
/-!
Where a run reads from and writes to.

Every path is taken from the root, the directory that holds the whitelist and receives the published
files; the full tables and the generator scripts are found below the directory of the library that
they belong to.
-/
namespace ObjectTables

/-- The directories of a run, and the interpreter of the generator scripts. -/
structure Sites where
  /-- Holds the whitelist and receives the published files. -/
  root : Path := Path.ofString "."
  /-- The directory of the library, relative to the root unless absolute. -/
  library : Path := Path.ofString "../openssl"
  /-- The scratch directory, relative to the root unless absolute. -/
  scratch : Path := Path.ofString "tempobj"
  /-- The program that runs the generator scripts. -/
  interpreter : String := "perl"
deriving DecidableEq, Repr

/-- A path below another, by the names of the steps between them. -/
def Path.below (base : Path) (steps : List String) : Path :=
  steps.foldl (fun p s => Path.join p (Path.ofString s)) base

namespace Sites

/-- The directory of the library. -/
def libraryDirectory (s : Sites) : Path := Path.join s.root s.library

/-- A file among the object definitions of the library. -/
def libraryObjects (s : Sites) (name : String) : Path := s.libraryDirectory.below ["crypto", "objects", name]

/-- The list of the objects to keep. -/
def whitelist (s : Sites) : Path := s.root.below ["objects.txt"]

/-- The numbering of all objects. -/
def fullNumbering (s : Sites) : Path := s.libraryObjects "obj_mac.num"

/-- The symbol header of all objects. -/
def fullHeader (s : Sites) : Path := s.libraryDirectory.below ["include", "openssl", "obj_mac.h"]

/-- The header with the aliases. -/
def compatHeader (s : Sites) : Path := s.libraryObjects "obj_compat.h"

/-- The script that numbers objects and writes the symbol header. -/
def objectsScript (s : Sites) : Path := s.libraryObjects "objects.pl"

/-- The script that writes the lookup table. -/
def tableScript (s : Sites) : Path := s.libraryObjects "obj_dat.pl"

/-- The source file that is published as it is. -/
def dataSource (s : Sites) : Path := s.libraryObjects "obj_dat.c"

/-- The scratch directory. -/
def scratchDirectory (s : Sites) : Path := Path.join s.root s.scratch

/-- Where the lookup table is published. -/
def publishedTable (s : Sites) : Path := s.root.below ["crypto", "objects", "obj_dat.h"]

/-- Where the symbol header is published. -/
def publishedHeader (s : Sites) : Path := s.root.below ["openssl", "obj_mac.h"]

/-- Where the source file is published. -/
def publishedSource (s : Sites) : Path := s.root.below ["crypto", "objects", "obj_dat.c"]

end Sites

/-- The files of a run in its scratch directory. -/
structure ScratchFiles where
  /-- The numbering to start from. -/
  seed : Path
  /-- The candidates' numbering, and then the trimmed one. -/
  numbering : Path
  /-- The generated header, and then the one with the aliases. -/
  header : Path
  /-- The generated lookup table. -/
  lookupTable : Path
  /-- The header with the placeholders. -/
  finalHeader : Path
deriving DecidableEq, Repr

/-- The files of a run in the scratch directory `p`. -/
def ScratchFiles.inside (p : Path) : ScratchFiles where
  seed := p.below ["obj_mac.num"]
  numbering := p.below ["obj_mac.new"]
  header := p.below ["obj_mac.h.new"]
  lookupTable := p.below ["obj_dat.h"]
  finalHeader := p.below ["obj_mac.h"]

end ObjectTables
