import ApiCatalog.Command.Run

namespace ApiCatalog.Main

def absolute (names : List String) : String := "/" ++ "/".intercalate names

-- What stands at a place on disk.
def nodeAt (names : List String) : IO (Option FileNode) := do
  let place := (← IO.currentDir) / absolute names
  if ← place.isDir then
    return some .directory
  else if ← place.pathExists then
    return some (.ofBytes (← IO.FS.readBinFile place))
  else
    return none

-- Take in the places that a path leads through.
def loadAlong (t : FileTree) (start : List String) (segments : List (List Char)) :
    IO FileTree := do
  let mut tree := t
  let mut place := start
  for segment in segments do
    match tree.move place segment with
    | .error _ => return tree
    | .ok next =>
        place := next
        if (tree.node? place).isNone then
          if let some node ← nodeAt place then
            tree := tree.put place node
  return tree

-- Take in everything below a directory.
partial def loadBelow (t : FileTree) (place : List String) : IO FileTree := do
  let mut tree := t
  let directory := (← IO.currentDir) / absolute place
  for entry in ← directory.readDir do
    let names := place ++ [entry.fileName]
    if let some node ← nodeAt names then
      tree := tree.put names node
      if node = .directory then
        tree ← loadBelow tree names
  return tree

def segments (p : Path) : List (List Char) := Text.splitAt '/' p.text.toList

def loadPath (t : FileTree) (p : Path) : IO FileTree :=
  loadAlong t (t.start p) (segments p)

def loadSource (t : FileTree) (p : Path) : IO FileTree := do
  let tree ← loadPath t p
  match tree.resolve p with
  | .ok (place, .directory) => loadBelow tree place
  | _ => return tree

-- The part of the disk that a command looks at: its manifest first, for that
-- says where else to look.
def load (c : Command) : IO FileTree := do
  let current : Path := ⟨(← IO.currentDir).toString⟩
  let names := (segments current).filterMap fun s =>
    if s.isEmpty then none else some (String.ofList s)
  let mut tree ← loadAlong { workingDirectory := names } [] (segments current)
  if let some p := c.manifestPath then
    tree ← loadPath tree p
  let sources := c.sourcePaths tree
  let output := c.outputPath tree
  for p in sources do
    tree ← loadSource tree p
  if let some p := output then
    tree ← loadPath tree p
  return tree

-- Bring the disk to what a command left.
def store (before after : FileTree) : IO Unit := do
  for (names, node) in before.changes after do
    match node with
    | .directory => IO.FS.createDirAll (absolute names)
    | .text content => IO.FS.writeFile (absolute names) content
    | .bytes content => IO.FS.writeBinFile (absolute names) ⟨content.toArray⟩

def explain (reason : Diagnostic) : String :=
  "Error: " ++ reason.code ++ "\n\n  " ++ reason.text ++ "\n" ++
    (match reason.help? with
      | some help => "  help: " ++ help ++ "\n"
      | none => "")

def runCommand (c : Command) : IO UInt32 := do
  let before ← load c
  let outcome := c.run before
  store before outcome.tree
  IO.print outcome.stdout
  IO.eprint outcome.stderr
  match outcome.result with
  | .ok () => return 0
  | .error reason =>
      IO.eprint (explain reason)
      return 1

end ApiCatalog.Main

def main (arguments : List String) : IO UInt32 :=
  match ApiCatalog.Usage.parse arguments with
  | .ok command => ApiCatalog.Main.runCommand command
  | .error e => do
      if e.exitCode = 0 then IO.print e.text else IO.eprint e.text
      return e.exitCode.toUInt32
