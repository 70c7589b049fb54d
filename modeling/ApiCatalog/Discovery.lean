import ApiCatalog.FileTree
import ApiCatalog.Manifest
import ApiCatalog.Report

namespace ApiCatalog

namespace FileTree

-- The files that a manifest covers at or below a path, in the order of their
-- names. A path that does not exist has none.
def scan (t : FileTree) (root : Path) (m : Manifest) : List Path :=
  let found := match t.resolve root with
    | .ok (place, .directory) =>
        (t.filesBelow place).map fun (names : List String) => names.foldl Path.joinText root
    | .ok _ => [root]
    | .error _ => []
  found.filter m.covers

end FileTree

namespace Path

-- Add files that are not there yet, in order.
def addNew (files new : List Path) : List Path :=
  new.foldl (fun files p => if files.any (p.same ·) then files else files ++ [p]) files

end Path

namespace FileTree

-- The files of several sources, relative ones below `base`; each file once.
def scanAll (t : FileTree) (sources : List String) (base : Path) (m : Manifest) : List Path :=
  sources.foldl (fun files source => Path.addNew files (t.scan (base.joinText source) m)) []

end FileTree

-- What is to be compiled, and where it was looked for.
structure Discovery where
  root : Path
  manifest : Manifest
  hasManifest : Bool
  sourceDirs : List Path
  files : List Path
  deriving DecidableEq, Repr

namespace Manifest

def unreadable (path : Path) (fault : Fault) : Diagnostic :=
  .io path.text ("Failed to read manifest: " ++ fault.text)

-- The manifest in the root of a project, and whether there is one.
def load (t : FileTree) (root : Path) : Except Diagnostic (Manifest × Bool) :=
  let path := root.joinText fileName
  if t.exists? path then
    match t.read path with
    | .error fault => .error (unreadable path fault)
    | .ok content => (parse content).map (·, true)
  else
    .ok ({}, false)

end Manifest

namespace Discovery

-- The sources that the manifest of a project names.
def ofProject (t : FileTree) (root : Path) : Except Diagnostic Discovery :=
  (Manifest.load t root).map fun (manifest, hasManifest) =>
    let sources := manifest.effectiveSources
    { root, manifest, hasManifest
      sourceDirs := sources.map root.joinText
      files := t.scanAll sources root manifest }

-- Directories to scan and files to take as they are. Of the manifest only
-- extensions and exclude patterns count.
def ofPaths (t : FileTree) (paths : List Path) (manifest : Manifest) : Discovery where
  root := (paths.head?.bind Path.parent?).getD ⟨"."⟩
  manifest := manifest
  hasManifest := false
  sourceDirs := paths
  files := paths.foldl (fun files p =>
    Path.addNew files
      (if t.isDirectory p then t.scan p manifest else if t.isFile p then [p] else [])) []

def hasSources (d : Discovery) (t : FileTree) : Bool := d.sourceDirs.any t.exists?

def unreadable (path : Path) (fault : Fault) : Failure :=
  ⟨path.sourceName, .io path.text ("Failed to read source: " ++ fault.text)⟩

-- The files that could be read, and a failure for each of the others.
def load (d : Discovery) (t : FileTree) : List SourceFile × List Failure :=
  (d.files.filterMap fun p => match t.read p with
      | .ok text => some ⟨p.sourceName, text⟩
      | .error _ => none,
    d.files.filterMap fun p => match t.read p with
      | .ok _ => none
      | .error fault => some (unreadable p fault))

-- All discovered files count. Those that cannot be read come first among the
-- failures. Files are taken one after another only if `serial` asks for it.
def compile (d : Discovery) (t : FileTree) (serial : Bool) : Report :=
  let (files, unread) := d.load t
  let report := if serial then Report.ofFiles files else Report.ofFilesAtOnce files
  { report with
    files := report.files + unread.length
    failures := unread ++ report.failures }

-- One source in place of those of the project, or the project as it is.
def resolve (t : FileTree) (root : Path) (source : Option Path) : Except Diagnostic Discovery :=
  match source with
  | some path => (Manifest.load t root).map fun (manifest, _) => ofPaths t [path] manifest
  | none => ofProject t root

end Discovery

end ApiCatalog
