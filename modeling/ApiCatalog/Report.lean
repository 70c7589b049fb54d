import ApiCatalog.Contribution

namespace ApiCatalog

-- A file under the name that its endpoints carry.
structure SourceFile where
  path : String
  text : String
  deriving DecidableEq, Repr, Inhabited

structure Failure where
  path : String
  reason : Diagnostic
  deriving DecidableEq, Repr

-- What a file adds to the catalog, whatever the others add.
def SourceFile.share (file : SourceFile) : Except Failure Document :=
  (Document.ofSource file.path file.text).mapError fun reason => ⟨file.path, reason⟩

-- The catalog of some files, and the files that gave nothing to it.
structure Report where
  document : Document := {}
  failures : List Failure := []
  files : Nat := 0
  deriving DecidableEq

namespace Report

-- A file counts whether or not it can be read; a failing one leaves the
-- document as it was.
def add (r : Report) (file : SourceFile) : Report :=
  match Document.ofSource file.path file.text with
  | .ok share => { r with document := r.document.merge share, files := r.files + 1 }
  | .error reason =>
      { r with failures := r.failures ++ [⟨file.path, reason⟩], files := r.files + 1 }

-- Files are taken in the order given: descriptions run on in it, and the
-- first url wins.
def ofFiles (files : List SourceFile) : Report := files.foldl add {}

def addShare (r : Report) : Except Failure Document → Report
  | .ok share => { r with document := r.document.merge share, files := r.files + 1 }
  | .error failure => { r with failures := r.failures ++ [failure], files := r.files + 1 }

-- The shares do not depend on each other, so they may be found at the same
-- time. They are merged in the order given.
def ofFilesAtOnce (files : List SourceFile) : Report :=
  (files.map SourceFile.share).foldl addShare {}

def hasFailures (r : Report) : Bool := !r.failures.isEmpty

def parsed (r : Report) : Nat := r.files - r.failures.length

end Report

end ApiCatalog
