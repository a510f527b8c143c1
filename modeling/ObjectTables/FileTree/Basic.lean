import ObjectTables.Path
/-!
File trees.

A node is a file or a directory with named nodes in it, so everything that exists lies in directories
that exist. A location is the list of names that leads to a node from the root. One operation,
`FileTree.put`, changes what stands at a location, and `get?_put` says what is where afterwards.
-/
namespace ObjectTables

/-- The names from the root down to a node. -/
abbrev Location := List Name

/-- A file or a directory. -/
inductive Node where
  | file (content : Bytes)
  | directory (children : List (Name × Node))

/-- What stands at a location, without what lies below it. -/
inductive Entry where
  | file (content : Bytes)
  | directory
deriving DecidableEq, Repr

namespace Node

/-- A node without what lies below it. -/
def entry : Node → Entry
  | file content => .file content
  | directory _ => .directory

/-- The nodes in a directory; a file has none. -/
def children : Node → List (Name × Node)
  | file _ => []
  | directory children => children

/-- The node at a location below a node. -/
def at? : Node → Location → Option Node
  | node, [] => some node
  | node, name :: rest => (node.children.lookup name).bind (·.at? rest)

/-- Whether a node is a directory. -/
def isDirectory : Node → Bool
  | file _ => false
  | directory _ => true

/-- Gives `name` the node `new?` among some nodes, or takes it away. -/
def assign (name : Name) (new? : Option Node) (children : List (Name × Node)) : List (Name × Node) :=
  let others := children.filter (·.1 != name)
  match new? with
  | some new => (name, new) :: others
  | none => others

/-- Some nodes with the one at a location replaced or taken away. Where a directory on the way is
missing nothing changes. -/
def put (new? : Option Node) : Location → List (Name × Node) → List (Name × Node)
  | [], children => children
  | [name], children => assign name new? children
  | name :: rest, children =>
    match children.lookup name with
    | some (directory below) => assign name (some (directory (put new? rest below))) children
    | _ => children

mutual

/-- Every location below a node that stands at `place`, with what stands there. -/
def listing (place : Location) : Node → List (Location × Entry)
  | file content => [(place, .file content)]
  | directory children => (place, .directory) :: listings place children

/-- Every location of some nodes in the directory at `place`. -/
def listings (place : Location) : List (Name × Node) → List (Location × Entry)
  | [] => []
  | (name, node) :: rest => listing (place ++ [name]) node ++ listings place rest

end

@[simp] theorem at?_nil (n : Node) : n.at? [] = some n := by cases n <;> rfl

@[simp] theorem at?_cons (n : Node) (name : Name) (rest : Location) :
    n.at? (name :: rest) = (n.children.lookup name).bind (·.at? rest) := by cases n <;> rfl

theorem lookup_filter_ne {name other : Name} (h : other ≠ name) (l : List (Name × Node)) :
    (l.filter (·.1 != name)).lookup other = l.lookup other := by
  induction l with
  | nil => rfl
  | cons x l ih =>
    obtain ⟨k, v⟩ := x
    by_cases hk : k = name
    · subst hk
      have : (other == k) = false := by simpa using h
      simp [List.lookup_cons, this, ih]
    · have : (k != name) = true := by simpa using hk
      simp [this, List.lookup_cons, ih]

theorem lookup_filter_self (name : Name) (l : List (Name × Node)) :
    (l.filter (·.1 != name)).lookup name = none := by
  induction l with
  | nil => rfl
  | cons x l ih =>
    obtain ⟨k, v⟩ := x
    by_cases hk : k = name
    · subst hk
      simp [ih]
    · have h1 : (k != name) = true := by simpa using hk
      have h2 : (name == k) = false := by simpa using fun h => hk h.symm
      simp [h1, List.lookup_cons, h2, ih]

/-- `assign` changes the node of its name and no other. -/
theorem lookup_assign (name other : Name) (new? : Option Node) (l : List (Name × Node)) :
    (assign name new? l).lookup other = if other = name then new? else l.lookup other := by
  split
  · next h =>
    subst h
    cases new? with
    | none => exact lookup_filter_self _ _
    | some x => simp [assign]
  · next h =>
    have hb : (other == name) = false := by simpa using h
    cases new? with
    | none => exact lookup_filter_ne h _
    | some x => simp [assign, List.lookup_cons, hb, lookup_filter_ne h]

/-- What stands at a location below a node. -/
def entryAt? (n : Node) (l : Location) : Option Entry := (n.at? l).map entry

@[simp] theorem entryAt?_nil (n : Node) : n.entryAt? [] = some n.entry := by simp [entryAt?]

@[simp] theorem entryAt?_cons (n : Node) (name : Name) (rest : Location) :
    n.entryAt? (name :: rest) = (n.children.lookup name).bind (·.entryAt? rest) := by
  simp only [entryAt?, at?_cons]
  cases n.children.lookup name <;> rfl

theorem entry_eq_directory_iff {n : Node} : n.entry = .directory ↔ ∃ children, n = directory children := by
  cases n <;> simp [entry]

/-- `put` changes what stands at its location and below it, and nothing else; it needs a directory to
put the node in. -/
theorem entryAt?_put (new? : Option Node) (l m : Location) (children : List (Name × Node)) :
    (directory (put new? l children)).entryAt? m =
      if l ≠ [] ∧ (directory children).entryAt? l.dropLast = some .directory ∧ l <+: m then
        new?.bind (·.entryAt? (m.drop l.length))
      else (directory children).entryAt? m := by
  fun_induction put new? l children generalizing m with
  | case1 => simp
  | case2 name children =>
    cases m with
    | nil => simp [entry]
    | cons other rest =>
      by_cases h : other = name
      · subst h
        simp [Node.children, lookup_assign, entry]
      · have h' : ¬ name = other := fun e => h e.symm
        simp [Node.children, lookup_assign, h, h']
  | case3 name rest children hne below hlookup ih =>
    cases m with
    | nil => simp [entry]
    | cons other more =>
      obtain ⟨r, rs, rfl⟩ := List.exists_cons_of_ne_nil hne
      by_cases h : other = name
      · subst h
        simp [Node.children, lookup_assign, hlookup, ih]
      · have h' : ¬ name = other := fun e => h e.symm
        simp [Node.children, lookup_assign, h, h']
  | case4 name rest children hne hlookup =>
    obtain ⟨r, rs, rfl⟩ := List.exists_cons_of_ne_nil hne
    have : ¬ (directory children).entryAt? ((name :: r :: rs).dropLast) = some .directory := by
      simp only [List.dropLast_cons_cons, entryAt?_cons, Node.children]
      cases hn : children.lookup name with
      | none => simp
      | some node =>
        cases node with
        | directory below => exact absurd hn (hlookup below)
        | file content => cases h : (r :: rs).dropLast <;> simp [entry, Node.children]
    simp only [this, false_and, and_false, if_false]

end Node

/-- The files and directories of a system, given by what its root holds. -/
structure FileTree where
  children : List (Name × Node)

namespace FileTree

/-- The tree in which there is nothing. -/
def empty : FileTree := ⟨[]⟩

/-- The node at a location; the root is a directory. -/
def node? (t : FileTree) (l : Location) : Option Node := (Node.directory t.children).at? l

/-- What stands at a location. Two trees with the same entries hold the same files. -/
def get? (t : FileTree) (l : Location) : Option Entry := (t.node? l).map Node.entry

/-- Whether a directory stands at a location. -/
def isDirectory (t : FileTree) (l : Location) : Bool := t.get? l == some .directory

/-- The tree with another node at a location, or with none. The root stays, and where a directory on
the way is missing nothing changes. -/
def put (t : FileTree) (l : Location) (new? : Option Node) : FileTree := ⟨Node.put new? l t.children⟩

/-- The tree with a file at a location. -/
def setFile (t : FileTree) (l : Location) (content : Bytes) : FileTree := t.put l (some (.file content))

/-- The tree with an empty directory at a location. -/
def setDirectory (t : FileTree) (l : Location) : FileTree := t.put l (some (.directory []))

/-- The tree without what stands at a location and below it. -/
def erase (t : FileTree) (l : Location) : FileTree := t.put l none

/-- The tree with the directory at a location emptied. -/
def clear (t : FileTree) (l : Location) : FileTree := if l = [] then empty else t.setDirectory l

/-- Every location below a directory, with what stands there. -/
def listing (t : FileTree) (l : Location) : List (Location × Entry) :=
  match t.node? l with
  | some node => Node.listings [] node.children
  | none => []

@[simp] theorem node?_nil (t : FileTree) : t.node? [] = some (.directory t.children) := rfl

theorem get?_eq (t : FileTree) (l : Location) : t.get? l = (Node.directory t.children).entryAt? l := rfl

/-- `put` changes what stands at its location and below it, and nothing else; it needs a directory to
put the node in. -/
theorem get?_put (t : FileTree) (l m : Location) (new? : Option Node) :
    (t.put l new?).get? m =
      if l ≠ [] ∧ t.get? l.dropLast = some .directory ∧ l <+: m then
        new?.bind (·.entryAt? (m.drop l.length))
      else t.get? m :=
  Node.entryAt?_put new? l m t.children

/-- Whatever stands at a location lies in a directory. -/
theorem get?_dropLast {t : FileTree} {l : Location} (h : (t.get? l).isSome = true) :
    t.get? l.dropLast = some .directory := by
  simp only [get?_eq] at h ⊢
  generalize t.children = children at h ⊢
  induction l generalizing children with
  | nil => simp [Node.entry]
  | cons name rest ih =>
    cases rest with
    | nil => simp [Node.entry]
    | cons r rs =>
      simp only [List.dropLast_cons_cons, Node.entryAt?_cons, Node.children] at h ⊢
      cases hn : children.lookup name with
      | none => simp [hn] at h
      | some node =>
        cases node with
        | directory below =>
          rw [hn] at h
          exact ih below (by rw [Node.entryAt?_cons]; exact h)
        | file content => simp [hn] at h

@[simp] theorem isDirectory_nil (t : FileTree) : t.isDirectory [] = true := rfl

end FileTree

end ObjectTables
