import ObjectTables.Text.Utf8
/-!
Paths: byte sequences that are kept as they are written.

A path is never normalised. Joining follows the rule that an absolute path replaces what comes before
it; the ancestors of a path are cut from its own text.
-/
namespace ObjectTables

/-- A path as it is written. -/
abbrev Path := Bytes

/-- One step of a path, or the name of a directory's entry. -/
abbrev Name := Bytes

namespace Path

/-- The byte between two steps. -/
def separator : UInt8 := 0x2F

/-- The step that stays where it is. -/
def here : Name := [0x2E]

/-- The step that leads to the directory above. -/
def above : Name := [0x2E, 0x2E]

/-- The path that a string spells. -/
def ofString (s : String) : Path := Bytes.ofString s

/-- A path as messages show it. -/
def display (p : Path) : String := String.ofList (Bytes.decodeLossy p)

/-- Whether a path starts at the root. -/
def isAbsolute (p : Path) : Bool := p.head? == some separator

/-- Whether a path ends in a separator. -/
def isSlashed (p : Path) : Bool := p.getLast? == some separator

/-- A path below a base: an absolute path replaces the base, and one separator goes between the two
unless the base is empty or ends in one. -/
def join (base p : Path) : Path :=
  if isAbsolute p then p
  else if base.isEmpty || isSlashed base then base ++ p
  else base ++ separator :: p

/-- The steps of a path: what stands between its separators, empty pieces apart. -/
def steps (p : Path) : List Name := (p.splitOn separator).filter (fun s => !s.isEmpty)

/-- What a path begins with before any step that can be cut off: the root, a step that stays, or
nothing. -/
def base (p : Path) : Path :=
  if isAbsolute p then [separator]
  else if p = here || [0x2E, separator].isPrefixOf p then here
  else []

/-- A base and, last first, the pieces after it: the path itself without meaningless trailing pieces,
then each path above it, the base last. A piece is meaningless if it is empty or stays. -/
def trail (base : Path) : List Name → List Path
  | [] => if base.isEmpty then [] else [base]
  | piece :: up =>
    if piece.isEmpty || piece = here then trail base up
    else (base ++ [separator].intercalate (piece :: up).reverse) :: trail base up

/-- The non-empty paths above a path, nearest first. -/
def ancestors (p : Path) : List Path :=
  (trail (base p) ((p.drop (base p).length).splitOn separator).reverse).tail

/-- The directory that a path names an entry of. The root and the empty path have none; a path of one
step has the empty one. -/
def parent? (p : Path) : Option Path :=
  match ancestors p with
  | q :: _ => some q
  | [] => if p.isEmpty || base p = [separator] && (steps p).all (· = here) then none else some []

theorem join_of_isAbsolute {base p : Path} (h : isAbsolute p = true) : join base p = p := by
  simp [join, h]

end Path

end ObjectTables
