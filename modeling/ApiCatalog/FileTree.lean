import ApiCatalog.Path
import ApiCatalog.StableSort

namespace ApiCatalog

-- Why a file operation fails.
inductive Fault where
  | notFound
  | alreadyExists
  | notDirectory
  | isDirectory
  | notText
  deriving DecidableEq, Repr

def Fault.text : Fault → String
  | notFound => "No such file or directory (os error 2)"
  | alreadyExists => "File exists (os error 17)"
  | notDirectory => "Not a directory (os error 20)"
  | isDirectory => "Is a directory (os error 21)"
  | notText => "stream did not contain valid UTF-8"

-- What may stand at a place: a directory, a file of text, or a file that is none.
inductive FileNode where
  | directory
  | text (content : String)
  | bytes (content : List UInt8)
  deriving DecidableEq

def FileNode.ofBytes (content : ByteArray) : FileNode :=
  match String.fromUTF8? content with
  | some decoded => .text decoded
  | none => .bytes content.toList

def FileNode.isFile : FileNode → Bool
  | directory => false
  | _ => true

-- The files and directories below the root, each under the names that lead to
-- it from there, and the working directory. The root itself is not listed.
-- A tree stands for a file system in which every name is a text, no place is a
-- link to another, everything may be read and written, no name is too long and
-- no device fails or is full: no operation has another fault than those above,
-- and nothing changes a tree while a command runs.
structure FileTree where
  nodes : List (List String × FileNode) := []
  workingDirectory : List String := []
  deriving DecidableEq

namespace FileTree

def node? (t : FileTree) (names : List String) : Option FileNode :=
  if names.isEmpty then some .directory else t.nodes.lookup names

def put (t : FileTree) (names : List String) (node : FileNode) : FileTree :=
  { t with nodes := t.nodes.filter (·.1 != names) ++ [(names, node)] }

-- Being in `place`, a path can go on only from a directory.
def enter (t : FileTree) (place : List String) : Except Fault Unit :=
  match t.node? place with
  | some .directory => .ok ()
  | some _ => .error .notDirectory
  | none => .error .notFound

def move (t : FileTree) (place : List String) (segment : List Char) :
    Except Fault (List String) :=
  (t.enter place).map fun _ =>
    if Path.isIdle segment then place
    else if segment = ['.', '.'] then place.dropLast
    else place ++ [String.ofList segment]

def start (t : FileTree) (p : Path) : List String :=
  if p.isAbsolute then [] else t.workingDirectory

-- Follow the segments of a path. The last place need not exist.
def follow (t : FileTree) (place : List String) (segments : List (List Char)) :
    Except Fault (List String) :=
  segments.foldlM t.move place

-- The place that a path names, which exists. The empty path names none.
def resolve (t : FileTree) (p : Path) : Except Fault (List String × FileNode) :=
  if p.text = "" then
    .error .notFound
  else
    match t.follow (t.start p) (Text.splitAt '/' p.text.toList) with
    | .error fault => .error fault
    | .ok place =>
        match t.node? place with
        | some node => .ok (place, node)
        | none => .error .notFound

def exists? (t : FileTree) (p : Path) : Bool := (t.resolve p).isOk

def isDirectory (t : FileTree) (p : Path) : Bool :=
  match t.resolve p with
  | .ok (_, .directory) => true
  | _ => false

def isFile (t : FileTree) (p : Path) : Bool :=
  match t.resolve p with
  | .ok (_, node) => node.isFile
  | .error _ => false

def read (t : FileTree) (p : Path) : Except Fault String :=
  match t.resolve p with
  | .ok (_, .text content) => .ok content
  | .ok (_, .directory) => .error .isDirectory
  | .ok (_, .bytes _) => .error .notText
  | .error fault => .error fault

-- The name that a path gives to something new, and the directory it goes into.
-- There is no name in a path that ends in `.` or `..`, or at the root;
-- `slashed` tells of a separator after the name.
structure Target where
  directory : List String
  name : Option String
  slashed : Bool

def target (t : FileTree) (p : Path) : Except Fault Target :=
  if p.text = "" then
    .error .notFound
  else
    let segments := Text.splitAt '/' p.text.toList
    let named := (segments.reverse.dropWhile (· == [])).reverse
    let slashed := named.length < segments.length
    match named.getLast? with
    | none => .ok ⟨[], none, slashed⟩
    | some last =>
        (t.follow (t.start p) named.dropLast).bind fun directory =>
          (t.enter directory).map fun _ =>
            let name := if last = ['.'] ∨ last = ['.', '.'] then none else some (String.ofList last)
            ⟨directory, name, slashed⟩

-- Write a file anew. Its directory must be there.
def write (t : FileTree) (p : Path) (content : String) : Except Fault FileTree :=
  (t.target p).bind fun target =>
    match target.name with
    | none => .error .isDirectory
    | some name =>
        if target.slashed then
          .error .isDirectory
        else
          match t.node? (target.directory ++ [name]) with
          | some .directory => .error .isDirectory
          | _ => .ok (t.put (target.directory ++ [name]) (.text content))

-- Make one directory inside one that is there.
def makeDirectory (t : FileTree) (p : Path) : Except Fault FileTree :=
  (t.target p).bind fun target =>
    match target.name with
    | none => .error .alreadyExists
    | some name =>
        match t.node? (target.directory ++ [name]) with
        | some _ => .error .alreadyExists
        | none => .ok (t.put (target.directory ++ [name]) .directory)

-- Make the first path of a list a directory, if need be after those that
-- follow it. What has been made stays, also if the rest fails.
def makeAll (t : FileTree) : List Path → FileTree × Option Fault
  | [] => (t, none)
  | p :: above =>
      if p.text = "" then
        (t, none)
      else
        match t.makeDirectory p with
        | .ok t => (t, none)
        | .error .notFound =>
            match t.makeAll above with
            | (t, some fault) => (t, some fault)
            | (t, none) =>
                match t.makeDirectory p with
                | .ok t => (t, none)
                | .error fault => (t, if t.isDirectory p then none else some fault)
        | .error fault => (t, if t.isDirectory p then none else some fault)

-- Make a directory and all that is missing above it.
def makeDirectories (t : FileTree) (p : Path) : FileTree × Option Fault :=
  t.makeAll p.ancestors

-- Names one after another, each by code points; what ends first comes first.
def namesLe : List String → List String → Bool
  | [], _ => true
  | _ :: _, [] => false
  | a :: as, b :: bs => decide (a < b) || (a == b && namesLe as bs)

-- The files below a place, by the names that lead on from there, in the order
-- of those names.
def filesBelow (t : FileTree) (place : List String) : List (List String) :=
  let below := t.nodes.filterMap fun (names, node) =>
    if node.isFile then (place.isPrefixOf? names).filter (!·.isEmpty) else none
  StableSort.sort namesLe below

-- What `later` has and `t` does not, or not with that content.
def changes (t later : FileTree) : List (List String × FileNode) :=
  later.nodes.filter fun (names, node) => t.node? names != some node

def workingPath (t : FileTree) : Path :=
  ⟨"/" ++ "/".intercalate t.workingDirectory⟩

end FileTree

end ApiCatalog
