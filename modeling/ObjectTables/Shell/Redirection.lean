import ObjectTables.Shell.Expansion
import ObjectTables.Shell.System
/-!
Redirections: opening files and making descriptors stand for them.

The targets of all redirections of a command are expanded before the first of them is opened. A redirection
that cannot be done fails, and those before it have been done.
-/
namespace ObjectTables.Shell.Redirection

/-- What a redirection makes its descriptor stand for. -/
inductive Target where
  | path (direction : Direction) (p : Path)
  /-- What another descriptor stands for, or nothing. -/
  | descriptor (n? : Option Nat)
  | document (number : Nat)
deriving DecidableEq, Repr

/-- A redirection whose target is known. -/
structure Ready where
  descriptor : Nat
  target : Target
deriving DecidableEq, Repr

/-! ### Opening -/

/-- Whether a direction creates a file that is missing. -/
def creates : Direction → Bool
  | .read => false
  | _ => true

/-- What is said when a path cannot be opened. -/
def openingMessage (creating : Bool) (p : Path) (e : Cause) : Bytes :=
  let why := match e with
    | .system .notFound | .system .notDirectory => if creating then "Directory nonexistent" else "No such file"
    | .system e => e.words
    | e => e.message
  Bytes.ofString (if creating then "cannot create " else "cannot open ") ++ p ++ Bytes.ofString (": " ++ why)

/-- Fails because a path cannot be opened. -/
def failToOpen {α : Type} (creating : Bool) (p : Path) (e : Cause) : Act α := Act.fail (openingMessage creating p e)

/-- A stream for a channel. -/
def streamFor (direction : Direction) (c : Channel) : Stream where
  channel := c
  reads := direction = .read || direction = .readWrite
  writes := direction != .read

/-- Whether a direction empties the file that it opens. -/
def empties : Direction → Bool
  | .write | .overwrite => true
  | _ => false

/-- Opens the file at a location, which may be new. -/
def openFile (direction : Direction) (l : Location) : Act Stream := do
  let m ← get
  match m.tree.get? l with
  | some (.file content) => if empties direction && !content.isEmpty then set { m with tree := m.tree.setFile l [] }
  | _ => set { m with tree := m.tree.setFile l [] }
  return streamFor direction (.file l 0 (direction = .append))

/-- Opens something outside of the tree of files. What a descriptor stands for is opened anew. -/
def openOutside (direction : Direction) (creating : Bool) (p : Path) (o : Outside) : Act Stream := do
  match o with
  | .null => return streamFor direction .null
  | .full => return streamFor direction .full
  | .program => return streamFor direction .null
  | .directory =>
    if direction = .read then return streamFor direction .directory
    failToOpen creating p (.system .isDirectory)
  | .descriptor n =>
    match (← get).stream? n with
    | none => failToOpen creating p (.system .notFound)
    | some (_, s) =>
      match s.channel with
      | .file l _ _ => openFile direction l
      | .directory => if direction = .read then return s else failToOpen creating p (.system .isDirectory)
      | c => return streamFor direction c

/-- Opens what a path leads to. Where files are protected, one that is there is not written. -/
def openPath (direction : Direction) (p : Path) : Act Stream := do
  let m ← get
  let isCareful := direction = .write && m.isOn .noClobber
  let isFile := match m.find? p with
    | some (.entry _ (.file _)) => true
    | _ => false
  if isCareful && isFile then failToOpen true p (.system .alreadyExists)
  let creating := creates direction && !(isCareful && (m.find? p).isSome)
  match Outside.of? p with
  | some o => openOutside direction creating p o
  | none =>
    if direction = .read then
      match m.tree.locate m.directory p with
      | .error e => failToOpen creating p e
      | .ok l => if m.tree.isDirectory l then return streamFor .read .directory else openFile .read l
    else
      match m.tree.writable m.directory p with
      | .error e => failToOpen creating p e
      | .ok l => openFile direction l

/-! ### Performing -/

/-- Expands the target of a redirection. -/
def ready (output : Command → Act Bytes) (r : Redirect) : Act Ready := do
  let ⟨descriptor, direction, target⟩ := r
  match direction with
  | .here document => return ⟨descriptor, .document document⟩
  | .duplicate =>
    let value ← Expansion.value output .single target
    match value with
    | [b] =>
      if isDigit b then return ⟨descriptor, .descriptor (some (decimal [b]))⟩
      if b = code '-' then return ⟨descriptor, .descriptor none⟩
    | _ => pure ()
    modify fun m => { m with line := m.reached }
    Act.failWith "Syntax error: Bad fd number"
  | direction => return ⟨descriptor, .path direction (← Expansion.value output .single target)⟩

/-- Makes a descriptor stand for a new stream. -/
def bindNew (descriptor : Nat) (s : Stream) : Act Unit := modify fun m =>
  let (index, m) := m.addStream s
  m.bind descriptor (some index)

/-- Does a redirection. -/
def perform (output : Command → Act Bytes) (r : Ready) : Act Unit := do
  match r.target with
  | .path direction p => bindNew r.descriptor (← openPath direction p)
  | .descriptor none => modify (·.bind r.descriptor none)
  | .descriptor (some n) =>
    match (← get).descriptors.lookup n with
    | some index => modify (·.bind r.descriptor (some index))
    | none =>
      if n != r.descriptor then Act.fail (digitsOf n ++ Bytes.ofString (": " ++ StreamError.badDescriptor.words))
  | .document number =>
    let content ← match (← get).documents.getD number (.raw []) with
      | .raw text => pure text
      | .expanded text => Expansion.value output .quoted text
    modify fun m =>
      let (n, m) := m.addPipe content
      let (index, m) := m.addStream { channel := .pipe n, writes := false }
      m.bind r.descriptor (some index)

/-- Does redirections in order; the answer tells whether all of them could be done. -/
def performAll (output : Command → Act Bytes) (rs : List Ready) : Act Bool := do
  match ← Act.caught (rs.forM (perform output)) with
  | .ok () => return true
  | .error .failed => return false
  | .error e => throw e

/-- Gives the descriptors of some redirections back what they stood for. -/
def undo (rs : List Ready) (before after : Machine) : Machine :=
  rs.foldl (fun m r => m.bind r.descriptor (before.descriptors.lookup r.descriptor)) after

end ObjectTables.Shell.Redirection
