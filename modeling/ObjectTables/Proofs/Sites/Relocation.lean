import Mathlib.Data.List.Nodup
import ObjectTables.Proofs.Sites

/-! Moving the root of a run. All sites are joined to the root, and joins can be grouped in any way, so a path put
    before the root stands before every site (`relocate_inputs`, `relocate_outputs`); sites below an absolute path do
    not depend on the root. Different names below one path lead to different locations (`nodup_below`). -/

namespace ObjectTables

open FileTree

variable {directory : Location} {base : Path}

/-! ### Different names -/

theorem nodup_below (directory : Location) (base : Path) (ways : List (List String))
    (h : ∀ names ∈ ways, ∀ n ∈ names, IsName (Path.ofString n)) (hnodup : (ways.map (·.map Path.ofString)).Nodup) :
    ((ways.map base.below).map (target directory)).Nodup := by
  have htargets : (ways.map base.below).map (target directory) =
      (ways.map (·.map Path.ofString)).map (target directory base ++ ·) := by
    rw [List.map_map, List.map_map]
    exact List.map_congr_left fun names hnames => target_below directory base (h names hnames)
  rw [htargets]
  exact hnodup.map (List.append_right_injective (target directory base))

/-- The files of a run in its scratch directory, in the order of their making. -/
def ScratchFiles.all (files : ScratchFiles) : List Path :=
  [files.seed, files.numbering, files.header, files.lookupTable, files.finalHeader]

theorem ScratchFiles.nodup_inside (directory : Location) (scratch : Path) :
    ((inside scratch).all.map (target directory)).Nodup :=
  nodup_below directory scratch [["obj_mac.num"], ["obj_mac.new"], ["obj_mac.h.new"], ["obj_dat.h"], ["obj_mac.h"]]
    (by decide) (by decide)

namespace Sites

theorem nodup_outputs (directory : Location) (s : Sites) : (s.outputs.map (target directory)).Nodup :=
  nodup_below directory s.root
    [["crypto", "objects", "obj_dat.h"], ["openssl", "obj_mac.h"], ["crypto", "objects", "obj_dat.c"]]
    (by decide) (by decide)

/-! ### Another root -/

/-- The sites with a path put before their root. -/
def relocate (p : Path) (s : Sites) : Sites := { s with root := Path.join p s.root }

/-- The files of a run that belong to the library. -/
def libraryFiles (s : Sites) : List Path :=
  [s.fullNumbering, s.fullHeader, s.compatHeader, s.objectsScript, s.tableScript, s.dataSource]

theorem relocate_scratchDirectory (p : Path) (s : Sites) :
    (s.relocate p).scratchDirectory = Path.join p s.scratchDirectory := Path.join_assoc p s.root s.scratch

theorem relocate_libraryDirectory (p : Path) (s : Sites) :
    (s.relocate p).libraryDirectory = Path.join p s.libraryDirectory := Path.join_assoc p s.root s.library

theorem relocate_libraryObjects (p : Path) (s : Sites) (name : String) :
    (s.relocate p).libraryObjects name = Path.join p (s.libraryObjects name) := by
  rw [libraryObjects, relocate_libraryDirectory, Path.join_below, libraryObjects]

theorem relocate_libraryFiles (p : Path) (s : Sites) :
    (s.relocate p).libraryFiles = s.libraryFiles.map (Path.join p) := by
  have hheader : (s.relocate p).fullHeader = Path.join p s.fullHeader := by
    rw [fullHeader, relocate_libraryDirectory, Path.join_below, fullHeader]
  simp only [libraryFiles, fullNumbering, compatHeader, objectsScript, tableScript, dataSource, hheader,
    relocate_libraryObjects, List.map_cons, List.map_nil]

theorem relocate_inputs (p : Path) (s : Sites) : (s.relocate p).inputs = s.inputs.map (Path.join p) := by
  have hwhitelist : (s.relocate p).whitelist = Path.join p s.whitelist := Path.join_below p s.root _
  calc (s.relocate p).inputs = (s.relocate p).whitelist :: (s.relocate p).libraryFiles := rfl
    _ = (s.whitelist :: s.libraryFiles).map (Path.join p) := by
      rw [hwhitelist, relocate_libraryFiles, List.map_cons]

theorem relocate_outputs (p : Path) (s : Sites) : (s.relocate p).outputs = s.outputs.map (Path.join p) := by
  simp only [outputs, publishedTable, publishedHeader, publishedSource, relocate, Path.join_below, List.map_cons,
    List.map_nil]

end Sites

theorem ScratchFiles.inside_join (p scratch : Path) :
    (inside (Path.join p scratch)).all = (inside scratch).all.map (Path.join p) := by
  simp only [all, inside, Path.join_below, List.map_cons, List.map_nil]

namespace Sites

theorem scratchDirectory_of_isAbsolute {s : Sites} (h : Path.isAbsolute s.scratch = true) (root : Path) :
    { s with root }.scratchDirectory = s.scratchDirectory :=
  (Path.join_of_isAbsolute h).trans (Path.join_of_isAbsolute h).symm

/-- The files of an absolute library are the same for every root. -/
theorem libraryFiles_of_isAbsolute {s : Sites} (h : Path.isAbsolute s.library = true) (root : Path) :
    { s with root }.libraryFiles = s.libraryFiles := by
  have hdirectory : { s with root }.libraryDirectory = s.libraryDirectory :=
    (Path.join_of_isAbsolute h).trans (Path.join_of_isAbsolute h).symm
  simp only [libraryFiles, fullNumbering, fullHeader, compatHeader, objectsScript, tableScript, dataSource,
    libraryObjects, hdirectory]

/-- A path put before the root of a run stands before each of its sites and each file in its scratch directory,
    whatever the paths are. The files of an absolute library are the same for every root, and so are an absolute
    scratch directory and its files. The files in the scratch directory are different paths, which lead to different
    locations from every directory, and so are the published files. -/
theorem sites_relocate (p root : Path) (s : Sites) :
    ((s.relocate p).scratchDirectory = Path.join p s.scratchDirectory ∧
      (s.relocate p).inputs = s.inputs.map (Path.join p) ∧
      (s.relocate p).outputs = s.outputs.map (Path.join p) ∧
      (ScratchFiles.inside (s.relocate p).scratchDirectory).all =
        (ScratchFiles.inside s.scratchDirectory).all.map (Path.join p)) ∧
    (Path.isAbsolute s.library = true → { s with root }.libraryFiles = s.libraryFiles) ∧
    (Path.isAbsolute s.scratch = true → { s with root }.scratchDirectory = s.scratchDirectory ∧
      ScratchFiles.inside { s with root }.scratchDirectory = ScratchFiles.inside s.scratchDirectory) ∧
    ((ScratchFiles.inside s.scratchDirectory).all.Nodup ∧
      ∀ directory, ((ScratchFiles.inside s.scratchDirectory).all.map (target directory)).Nodup) ∧
    s.outputs.Nodup ∧ ∀ directory, (s.outputs.map (target directory)).Nodup := by
  refine ⟨⟨relocate_scratchDirectory p s, relocate_inputs p s, relocate_outputs p s, ?_⟩,
    fun h => libraryFiles_of_isAbsolute h root, fun h => ?_,
    ⟨.of_map _ (ScratchFiles.nodup_inside [] _), fun directory => ScratchFiles.nodup_inside directory _⟩,
    .of_map _ (nodup_outputs [] s), fun directory => nodup_outputs directory s⟩
  · rw [relocate_scratchDirectory, ScratchFiles.inside_join]
  · have hscratch := scratchDirectory_of_isAbsolute h root
    exact ⟨hscratch, congrArg ScratchFiles.inside hscratch⟩

/-- An empty root and an empty scratch path below another path: the root ends in a separator then, and so does the
    scratch directory. -/
theorem sites_relocate_empty_root :
    let s : Sites := { root := [], library := Path.ofString "/src", scratch := [] }
    Path.isAbsolute s.library = true ∧
    { s with root := Path.ofString "a" }.libraryFiles = s.libraryFiles ∧
    (s.relocate (Path.ofString "a")).scratchDirectory = Path.ofString "a/" ∧
    (s.relocate (Path.ofString "a")).outputs = s.outputs.map (Path.join (Path.ofString "a")) ∧
    s.outputs.Nodup := by
  intro s
  have h : Path.isAbsolute s.library = true := by decide
  obtain ⟨⟨hscratch, -, houtputs, -⟩, hlibrary, -, -, hnodup, -⟩ :=
    sites_relocate (Path.ofString "a") (Path.ofString "a") s
  exact ⟨h, hlibrary h, hscratch.trans (by decide), houtputs, hnodup⟩

end Sites

end ObjectTables
