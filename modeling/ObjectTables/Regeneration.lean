import ObjectTables.Generator
import ObjectTables.Header.Placeholder
import ObjectTables.Numbering
import ObjectTables.Publication
import ObjectTables.Scratch
/-!
A run: from the whitelist and the full tables to the published ones.

The run claims its scratch directory, has the candidates numbered, trims the full numbering to them,
has the symbol header and the lookup table generated from it, appends the aliases, completes the header
with placeholders and publishes both. Then it releases the scratch directory and copies the source
file. The first failure ends it, and a scratch directory that is still claimed is discarded.
-/
namespace ObjectTables

/-- How much a notice matters. -/
inductive Level where
  | info
  | warning
  | error
deriving DecidableEq, Repr

/-- What a run has to say while it works. -/
inductive Notice where
  /-- The generator succeeded and wrote to standard error. -/
  | said (stage : Stage) (stderr : Text)
  | generated (stage : Stage) (output : Path)
  | kept (retained total : Nat)
  /-- The header has no line that closes the include guard, so the placeholders are left out. -/
  | noGuard
  | completed (missing : Nat)
  /-- A claimed scratch directory could not be discarded. -/
  | leftover (failure : Failure)
deriving DecidableEq, Repr

namespace Notice

/-- The level of a notice. -/
def level : Notice → Level
  | said .. | noGuard | leftover _ => .warning
  | generated .. | kept .. | completed _ => .info

/-- The words of a notice. -/
def message : Notice → String
  | said stage stderr =>
    let stage := stage.label
    let stderr := String.ofList stderr
    s!"{stage} generator: {stderr}"
  | generated stage output =>
    let stage := stage.label
    let output := Path.display output
    s!"Generated {stage} -> {output}"
  | kept retained total =>
    let retained := toString retained
    let total := toString total
    s!"Trimmed table keeps {retained} of {total} objects"
  | noGuard => "Include guard close not found; placeholders not written"
  | completed missing =>
    let missing := toString missing
    s!"Backfilled {missing} removed symbols"
  | leftover failure =>
    let failure := failure.message
    s!"Failed to clean up scratch directory: {failure}"

end Notice

/-- A call of the generator, and the file tree that it found. -/
structure CallRecord where
  call : Call
  found : FileTree

/-- A run so far: the file tree, what it had to say and the calls it made, in order. -/
structure Progress where
  tree : FileTree
  notices : List Notice := []
  calls : List CallRecord := []

/-- A part of a run. -/
abbrev Run (α : Type) := ExceptT Failure (StateM Progress) α

namespace Run

variable {α : Type}

/-- A change of the file tree as a part of a run. -/
def change (c : Change Failure α) : Run α := fun p =>
  let (result, tree) := c.run p.tree
  (result, { p with tree := tree })

/-- Says something. -/
def note (n : Notice) : Run Unit := modify fun p => { p with notices := p.notices ++ [n] }

/-- Does a part of a run under a claim, which is discarded if the part fails. -/
def under (directory : Location) (claim : ScratchClaim) (part : Run α) : Run α := fun p =>
  match part.run p with
  | (.ok a, p') => (.ok a, p')
  | (.error f, p') =>
    let (leftover?, tree) := claim.discard directory p'.tree
    (.error f, { p' with tree := tree, notices := p'.notices ++ (leftover?.map Notice.leftover).toList })

/-- Has one stage's output generated from its inputs. -/
def generate (tool : Tool) (g : Generator) (stage : Stage) (inputs : List Path) (output : Path) :
    Run Completion := do
  let call := g.call stage inputs output
  modify fun p => { p with calls := p.calls ++ [⟨call, p.tree⟩] }
  let completion ← change (tool call)
  let said := Text.trimEnd completion.stderr
  if !said.isEmpty then note (.said stage said)
  note (.generated stage output)
  return completion

end Run

/-- The kinds of published files. -/
inductive ProductKind where
  | lookupTable
  | symbolHeader
  | dataSource
deriving DecidableEq, Repr

/-- The name of a kind. -/
def ProductKind.label : ProductKind → String
  | lookupTable => "lookup_table"
  | symbolHeader => "symbol_header"
  | dataSource => "obj_dat_source"

/-- A published file. -/
structure Product where
  kind : ProductKind
  path : Path
deriving DecidableEq, Repr

/-- What a run has done. -/
structure Report where
  /-- The published files, in order. -/
  products : List Product
  /-- How many objects the trimmed numbering has. -/
  retained : Nat
  /-- How many objects the full numbering has. -/
  total : Nat
  /-- The number macros that needed placeholders. -/
  missing : List Text
deriving DecidableEq, Repr

namespace Regeneration

/-- Has the candidates numbered and trims the full numbering to them. -/
def trimNumbering (directory : Location) (tool : Tool) (sites : Sites) (files : ScratchFiles) :
    Run (Numbering × Numbering) := do
  let _ ← Run.generate tool (.ofSites sites) .numbering [sites.whitelist, files.seed] files.numbering
  let full ← Run.change (Publication.readText directory sites.fullNumbering)
  let candidates ← Run.change (Publication.readText directory files.numbering)
  let full := Numbering.ofText full
  let trimmed := full.trim (Numbering.listedSymbols candidates)
  Run.change (Publication.writeText directory files.numbering trimmed.toText)
  return (full, trimmed)

/-- Completes the header with the aliases and with placeholders for what it lacks. -/
def completeHeader (directory : Location) (sites : Sites) (files : ScratchFiles) : Run (List Text) := do
  Run.change (Publication.appendAliases directory files.header sites.compatHeader)
  let full ← Run.change (Publication.readText directory sites.fullHeader)
  let trimmed ← Run.change (Publication.readText directory files.header)
  let completed := Header.complete full trimmed
  if Header.lacksGuard full trimmed then Run.note .noGuard
  Run.change (Publication.writeText directory files.finalHeader completed.text)
  Run.note (.completed completed.missing.length)
  return completed.missing

/-- The part of a run that needs the scratch directory. -/
def work (directory : Location) (tool : Tool) (sites : Sites) (files : ScratchFiles) : Run Report := do
  Run.change (Publication.writeText directory files.seed Numbering.seed)
  let (full, trimmed) ← trimNumbering directory tool sites files
  Run.note (.kept trimmed.size full.size)
  let generator := Generator.ofSites sites
  let _ ← Run.generate tool generator .header [sites.whitelist, files.numbering] files.header
  let _ ← Run.generate tool generator .lookupTable [files.header] files.lookupTable
  let missing ← completeHeader directory sites files
  Run.change (Publication.publish directory files.lookupTable sites.publishedTable)
  Run.change (Publication.publish directory files.finalHeader sites.publishedHeader)
  return {
    products := [⟨.lookupTable, sites.publishedTable⟩, ⟨.symbolHeader, sites.publishedHeader⟩]
    retained := trimmed.size
    total := full.size
    missing := missing }

/-- A whole run, in the directory that its relative paths start from. -/
def run (directory : Location) (tool : Tool) (sites : Sites) : Run Report := do
  let claim ← Run.change (Scratch.claim directory sites.scratchDirectory)
  let report ← Run.under directory claim (work directory tool sites (.inside claim.path))
  Run.change (claim.close directory)
  Run.change (Publication.copy directory sites.dataSource sites.publishedSource)
  return { report with products := report.products ++ [⟨.dataSource, sites.publishedSource⟩] }

end Regeneration

end ObjectTables
