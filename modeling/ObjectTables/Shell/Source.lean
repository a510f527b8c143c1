import ObjectTables.Shell.Script
/-!
Where the bytes of a script come from.

A source is a stack of stretches: the script itself at the bottom, and above it the values of aliases that
have taken the place of words. A stretch that is used up gives way to the one below. An alias is not
replaced again while its own value is read, and up to the first byte after it.
-/
namespace ObjectTables.Shell

/-- Some bytes to be read. -/
structure Stretch where
  rest : Bytes
  /-- The aliases that are not replaced as long as this stretch is read. -/
  aliases : List Bytes := []
  /-- Whether the stretch ends in a blank, so that the word after it may be an alias too. -/
  endsBlank : Bool := false
deriving DecidableEq, Repr

/-- What is left of a script, and the number of the line reached. -/
structure Source where
  script : Bytes
  line : Nat
  /-- The stretches above the script, innermost first. -/
  above : List Stretch := []
  /-- The aliases whose values have just ended. -/
  ended : List Bytes := []
deriving DecidableEq, Repr

namespace Source

/-- A source that is all of a script, from its first line on. -/
def ofScript (script : Bytes) : Source := { script := script, line := 1 }

/-- A blank byte. -/
def isBlank (b : UInt8) : Bool := b == code ' ' || b == code '\t'

/-- The source without the stretches that are used up; the answer tells whether one of these ended in a
blank. -/
def settle : List Stretch → Source → Bool × Source
  | [], s => (false, { s with above := [] })
  | top :: below, s =>
    if top.rest.isEmpty then
      let (blank, s) := settle below { s with ended := top.aliases ++ s.ended }
      (top.endsBlank || blank, s)
    else (false, { s with above := top :: below })

/-- What is left of the stretch that is read. -/
def rest (s : Source) : Bytes :=
  match s.above with
  | top :: _ => top.rest
  | [] => s.script

/-- The source with another rest of the stretch that is read. -/
def withRest (s : Source) (rest : Bytes) : Source :=
  match s.above with
  | top :: below => { s with above := { top with rest := rest } :: below }
  | [] => { s with script := rest }

/-- Puts the value of an alias before what is left. -/
def insert (s : Source) (name value : Bytes) : Source :=
  { s with
    above := ⟨value, name :: s.ended, value.getLast?.any isBlank⟩ :: s.above
    ended := [] }

/-- Whether an alias must not be replaced now. -/
def isInUse (s : Source) (name : Bytes) : Bool :=
  s.ended.contains name || s.above.any fun t => t.aliases.contains name

end Source

end ObjectTables.Shell
