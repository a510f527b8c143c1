import ObjectTables.Generator
/-!
Rehearsed tools: a plan for each stage says what the generator writes, what else it does to the files
and how it ends, so that a run can be played through without a process.
-/
namespace ObjectTables.Rehearsal

/-- A part of what a rehearsed tool writes to its output file. -/
inductive Part where
  /-- Bytes as they are. -/
  | literal (content : Bytes)
  /-- The content of the file that an argument names. -/
  | copy (argument : Nat)
  /-- A text for each line with a word of the file that an argument names. In it the marks for the
  first and the second word are replaced by them. -/
  | each (argument : Nat) (template : Text)
deriving DecidableEq, Repr

/-- Something that a rehearsed tool does to the files, as far as it can. -/
inductive Deed where
  | write (path : Path) (content : Bytes)
  | makeDirectory (path : Path)
  | remove (path : Path)
deriving DecidableEq, Repr

/-- How a rehearsed tool ends. -/
inductive Outcome where
  | exits (code : Int) (stderr : Text)
  | doesNotStart (cause : Cause)
deriving DecidableEq, Repr

/-- What a rehearsed tool does. -/
structure Plan where
  /-- What it writes to its output file; `none` if it does not touch that. -/
  output? : Option (List Part) := some []
  deeds : List Deed := []
  outcome : Outcome := .exits 0 []
deriving DecidableEq, Repr

/-- The plans of the stages. -/
structure Plans where
  numbering : Plan := {}
  header : Plan := {}
  lookupTable : Plan := {}
deriving DecidableEq, Repr

/-- A deed done in full, or up to the point where it fails. -/
def Deed.perform (directory : Location) : Deed → Change Cause Unit
  | write path content => do
    match Path.parent? path with
    | some parent => FileTree.createAll directory parent
    | none => pure ()
    Change.make (·.write directory path content)
  | makeDirectory path => FileTree.createAll directory path
  | remove path => do
    if (← get).reachesDirectory directory path then FileTree.removeAll directory path
    else Change.make (·.removeFile directory path)

/-- The tree after a deed, whether it succeeded or not. -/
def Deed.apply (directory : Location) (d : Deed) (t : FileTree) : FileTree := (d.perform directory).run t |>.2

/-- The words of a line between spaces and tabs. -/
def fields (line : Text) : List Text :=
  (line.splitOnP fun c => c == ' ' || c == '\t').filter (fun w => !w.isEmpty)

/-- A text with each occurrence of the three characters of a mark replaced. -/
def replaceMark (mark : Char) (value : Text) : Text → Text
  | '\x7b' :: c :: '\x7d' :: rest =>
    if c = mark then value ++ replaceMark mark value rest
    else '\x7b' :: replaceMark mark value (c :: '\x7d' :: rest)
  | c :: rest => c :: replaceMark mark value rest
  | [] => []

/-- A template for one line: nothing for a line without a word. -/
def instantiate (template line : Text) : Text :=
  match fields line with
  | [] => []
  | first :: more => replaceMark '1' first (replaceMark '2' (more.head?.getD []) template)

/-- The content of the file that an argument of a call names; nothing if it cannot be read. -/
def argumentContent (directory : Location) (t : FileTree) (call : Call) (argument : Nat) : Bytes :=
  match call.arguments[argument]? with
  | none => []
  | some path =>
    match t.read directory path with
    | .ok content => content
    | .error _ => []

/-- What a part contributes to the output of a call. -/
def Part.content (directory : Location) (t : FileTree) (call : Call) : Part → Bytes
  | literal content => content
  | copy argument => argumentContent directory t call argument
  | each argument template =>
    let text := Bytes.decodeLossy (argumentContent directory t call argument)
    Text.encode ((text.splitOn '\n').flatMap (instantiate template))

/-- The stage that a call belongs to, by its arguments. -/
def stageOf (call : Call) : Stage :=
  if call.arguments[1]? = some (Bytes.ofString Generator.numberingFlag) then .numbering
  else if 2 < call.arguments.length then .header
  else .lookupTable

/-- The plan of a stage. -/
def Plans.plan (p : Plans) : Stage → Plan
  | .numbering => p.numbering
  | .header => p.header
  | .lookupTable => p.lookupTable

/-- The tool that plays a plan for each call. -/
def tool (directory : Location) (plans : Plans) : Tool := fun call => do
  let plan := plans.plan (stageOf call)
  match plan.output? with
  | some parts =>
    (Change.make fun t =>
      t.write directory call.output (parts.flatMap (·.content directory t call))).adapt (Failure.write call.output)
  | none => pure ()
  for deed in plan.deeds do
    modify (deed.apply directory)
  match plan.outcome with
  | .doesNotStart cause => throw (.start call.program cause)
  | .exits code stderr =>
    if code = 0 then return ⟨call.output, stderr⟩
    throw (.tool call.program code stderr)

end ObjectTables.Rehearsal
