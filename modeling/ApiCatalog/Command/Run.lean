import ApiCatalog.Command.Usage
import ApiCatalog.Discovery
import ApiCatalog.Document.Codec
import ApiCatalog.Listing

namespace ApiCatalog

-- A line that tells what a command is doing: a verb and what it does it to.
structure Status where
  verb : String
  message : String
  deriving DecidableEq, Repr

-- Verbs end in one column.
def Status.line (s : Status) : String :=
  String.ofList (List.replicate (12 - s.verb.length) ' ') ++ s.verb ++ " " ++ s.message ++ "\n"

-- What a command leaves behind: the files, what it printed, and how it ended.
structure Outcome where
  tree : FileTree
  stdout : String := ""
  statuses : List Status := []
  result : Except Diagnostic Unit := .ok ()

namespace Outcome

def stderr (o : Outcome) : String := String.join (o.statuses.map Status.line)

def failed (tree : FileTree) (statuses : List Status) (reason : Diagnostic) : Outcome :=
  { tree, statuses, result := .error reason }

end Outcome

-- A count with its noun.
def plural (n : Nat) (one many : String) : String :=
  toString n ++ " " ++ (if n = 1 then one else many)

namespace Document

-- The catalog in numbers, as status lines give it.
def endpointsText (d : Document) : String := plural d.endpointCount "endpoint" "endpoints"

def groupsText (d : Document) : String := plural d.size "group" "groups"

-- Write a catalog where a path says, making the directories it needs. Those
-- stay even if the file cannot be written.
def save (d : Document) (t : FileTree) (path : Path) (pretty : Bool) :
    FileTree × Except Diagnostic Unit :=
  let (t, blocked) := match path.parent? with
    | some parent =>
        if parent.text = "" then
          (t, none)
        else
          let (t, fault) := t.makeDirectories parent
          (t, fault.map fun f => Diagnostic.output
            ("Failed to create " ++ parent.text ++ ": " ++ f.text)
            (some "Check that the output directory is writable"))
    | none => (t, none)
  match blocked with
  | some reason => (t, .error reason)
  | none =>
      match t.write path (d.render pretty) with
      | .ok t => (t, .ok ())
      | .error fault => (t, .error (.io path.text ("Failed to write document: " ++ fault.text)))

end Document

namespace Report

def statuses (r : Report) (verb : String) : List Status :=
  r.failures.map fun f => ⟨verb, f.path ++ ": " ++ f.reason.text⟩

end Report

namespace Command

def shown (t : FileTree) (p : Path) : String := p.display t.workingPath

-- Without any source there is nothing to do, which is no failure. Failing files
-- are skipped, or refused when strict.
def runBuild (t : FileTree) (o : BuildOptions) : Outcome :=
  match Discovery.resolve t o.root o.source with
  | .error reason => .failed t [] reason
  | .ok discovery =>
      if !discovery.hasSources t then
        let places := ", ".intercalate (discovery.sourceDirs.map (shown t))
        { tree := t, statuses := [⟨"Skipping", "no sources at " ++ places⟩] }
      else
        let report := discovery.compile t o.serial
        let statuses :=
          ⟨"Compiling", plural discovery.files.length "source file" "source files"⟩ ::
            report.statuses "Skipped"
        let pretty := o.pretty || discovery.manifest.pretty
        if o.strict && report.hasFailures then
          .failed t statuses (.validation
            (plural report.failures.length "file" "files" ++ " could not be compiled")
            (some "Fix the annotations above or build without --strict"))
        else if o.stdout then
          { tree := t, statuses, stdout := report.document.render pretty ++ "\n" }
        else
          let output := o.output.getD (o.root.join discovery.manifest.output)
          match report.document.save t output pretty with
          | (tree, .error reason) => .failed tree statuses reason
          | (tree, .ok ()) =>
              { tree
                statuses := statuses ++ [⟨"Finished", report.document.endpointsText ++ " in " ++
                  report.document.groupsText ++ " from " ++ plural report.parsed "file" "files" ++
                  " to " ++ shown t output⟩] }

-- Any failing file is a failure of the whole.
def runValidate (t : FileTree) (source : Option Path) (root : Path) : Outcome :=
  match Discovery.resolve t root source with
  | .error reason => .failed t [] reason
  | .ok discovery =>
      let report := discovery.compile t false
      let statuses := report.statuses "Invalid"
      if report.hasFailures then
        .failed t statuses (.validation
          (plural report.failures.length "file" "files" ++ " of " ++ toString report.files ++
            " failed") none)
      else
        { tree := t
          statuses := statuses ++ [⟨"Validated", plural report.files "file" "files" ++ " (" ++
            report.document.endpointsText ++ " in " ++ report.document.groupsText ++ ")"⟩] }

def runList (t : FileTree) (source : Option Path) (root : Path) : Outcome :=
  match Discovery.resolve t root source with
  | .error reason => .failed t [] reason
  | .ok discovery =>
      let report := discovery.compile t false
      { tree := t
        stdout := report.document.listing
        statuses := report.statuses "Skipped" ++ [⟨"Listed", report.document.endpointsText ++
          " in " ++ report.document.groupsText⟩] }

-- Directories that a new project does not look into.
def initExcludes : List String := ["node_modules/*", "dist/*"]

-- A file is annotated when one of its comments carries a tag.
def isAnnotated (text : String) : Bool :=
  (Block.find "" text.toList).any fun block => !block.lines.isEmpty

-- The readable files below a path that are annotated.
def annotatedFiles (t : FileTree) (path : Path) : List Path :=
  (t.scan path { excludes := initExcludes }).filter fun file =>
    match t.read file with
    | .ok text => isAnnotated text
    | .error _ => false

-- The directory of a file, seen from the path that was scanned.
def sourceDir? (path file : Path) : Option String :=
  file.parent?.map fun parent =>
    let dir := Text.unifySlashes ((parent.relativeTo? path).getD parent).text.toList
    if dir.isEmpty then "." else String.ofList dir

-- Each directory once, in the order of their names.
def sourceDirs (path : Path) (files : List Path) : List String :=
  (NameMap.ofList ((files.filterMap (sourceDir? path)).map (·, ()))).keys

def listItem (text : String) : String := "  - \"" ++ text ++ "\"\n"

def manifestText (dirs : List String) : String :=
  (if dirs.isEmpty then "" else "sources:\n" ++ String.join (dirs.map listItem)) ++
    "output: " ++ ({} : Manifest).output.text ++ "\n" ++
    "excludes:\n" ++ String.join (initExcludes.map listItem)

def runInit (t : FileTree) (path : Path) (force : Bool) : Outcome :=
  let manifestPath := path.joinText Manifest.fileName
  if t.exists? manifestPath && !force then
    .failed t []
      (.config (Manifest.fileName ++ " already exists") (some "Use --force to overwrite"))
  else
    let files := annotatedFiles t path
    let dirs := sourceDirs path files
    let scanning : Status := ⟨"Scanning", shown t path⟩
    match t.write manifestPath (manifestText dirs) with
    | .error fault =>
        .failed t [scanning]
          (.io manifestPath.text ("Failed to write manifest: " ++ fault.text))
    | .ok tree =>
        let discovered : List Status :=
          if dirs.isEmpty then [] else [⟨"Discovered", ", ".intercalate dirs⟩]
        { tree
          statuses := scanning :: discovered ++ [⟨"Created", Manifest.fileName ++ " (" ++
            plural files.length "annotated file" "annotated files" ++ " found)"⟩] }

-- Scripts that complete a command line come from outside: a generator makes one
-- for a shell, from the name of the program and its commands.
abbrev ScriptGenerator := Shell → String → List Usage.Spec → String

-- It stands where no generator is given, and makes no script for any shell: only
-- the words that one would offer behind the name of the program.
def offeredWords : ScriptGenerator := fun _ _ commands =>
  " ".intercalate (commands.map (·.name) ++ ["help"]) ++ "\n"

-- The manifest that a command may read.
def manifestPath : Command → Option Path
  | build options => some (options.root.joinText Manifest.fileName)
  | init path _ => some (path.joinText Manifest.fileName)
  | validate _ root => some (root.joinText Manifest.fileName)
  | list _ root => some (root.joinText Manifest.fileName)
  | completions _ => none

-- Where a command looks for sources, given a tree that holds its manifest.
def sourcePaths (t : FileTree) : Command → List Path
  | build options => resolved options.source options.root
  | init path _ => [path]
  | validate source root => resolved source root
  | list source root => resolved source root
  | completions _ => []
where
  resolved (source : Option Path) (root : Path) : List Path :=
    match Discovery.resolve t root source with
    | .ok discovery => discovery.sourceDirs
    | .error _ => []

-- Where a command writes, given a tree that holds its manifest.
def outputPath (t : FileTree) : Command → Option Path
  | build options =>
      match Discovery.resolve t options.root options.source with
      | .ok discovery => some (options.output.getD (options.root.join discovery.manifest.output))
      | .error _ => none
  | init path _ => some (path.joinText Manifest.fileName)
  | _ => none

def runWith (generate : ScriptGenerator) (t : FileTree) : Command → Outcome
  | build options => runBuild t options
  | init path force => runInit t path force
  | validate source root => runValidate t source root
  | list source root => runList t source root
  | completions shell => { tree := t, stdout := generate shell "apidoc" Usage.commands }

def run : FileTree → Command → Outcome := runWith offeredWords

end Command

end ApiCatalog
