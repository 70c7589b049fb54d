import ApiCatalog.Text.Cut

namespace ApiCatalog

-- A path as it was written. Its text is kept even where it names a place in a
-- roundabout way; comparison goes by its steps.
structure Path where
  text : String
  deriving DecidableEq, Repr, Inhabited

-- One move along a path.
inductive Path.Step where
  | root
  | here
  | up
  | name (text : String)
  deriving DecidableEq, Repr

namespace Path

-- What a path starts from: the root, an explicit `.`, or neither.
inductive Anchor where
  | root
  | here
  | none
  deriving DecidableEq, Repr

-- An empty segment, or a `.`, moves nowhere.
def isIdle (segment : List Char) : Bool := segment == [] || segment == ['.']

-- The anchor, and the segments between the separators after it.
def anchored (p : Path) : Anchor × List (List Char) :=
  match p.text.toList with
  | [] => (.none, [])
  | '/' :: rest => (.root, Text.splitAt '/' rest)
  | text =>
      match Text.splitAt '/' text with
      | ['.'] :: rest => (.here, rest)
      | segments => (.none, segments)

def isAbsolute (p : Path) : Bool := p.anchored.1 == .root

def Anchor.steps : Anchor → List Step
  | root => [.root]
  | here => [.here]
  | none => []

def step? (segment : List Char) : Option Step :=
  if isIdle segment then none
  else if segment = ['.', '.'] then some .up
  else some (.name (String.ofList segment))

-- A leading `.` and every `..` count; other idle segments do not.
def steps (p : Path) : List Step :=
  let (anchor, segments) := p.anchored
  anchor.steps ++ segments.filterMap step?

-- Whether two texts name their place by the same steps.
def same (p q : Path) : Bool := p.steps == q.steps

-- One separator goes between the two unless the left side is empty or ends in
-- one; an absolute right side stands alone.
def join (p q : Path) : Path :=
  if q.isAbsolute then q
  else if p.text = "" || Text.endsWith p.text.toList ['/'] then ⟨p.text ++ q.text⟩
  else ⟨p.text ++ "/" ++ q.text⟩

def joinText (p : Path) (text : String) : Path := p.join ⟨text⟩

def dropIdleEnd (segments : List (List Char)) : List (List Char) :=
  (segments.reverse.dropWhile isIdle).reverse

def ofAnchored (anchor : Anchor) (segments : List (List Char)) : Path :=
  let body := ['/'].intercalate segments
  match anchor with
  | .root => ⟨String.ofList ('/' :: body)⟩
  | .here => ⟨String.ofList (if segments.isEmpty then ['.'] else '.' :: '/' :: body)⟩
  | .none => ⟨String.ofList body⟩

-- The path without its last step. The root and the empty path have none to lose.
def parent? (p : Path) : Option Path :=
  let (anchor, segments) := p.anchored
  match dropIdleEnd segments, anchor with
  | [], .here => some ⟨""⟩
  | [], _ => none
  | body, _ => some (ofAnchored anchor (dropIdleEnd body.dropLast))

-- Drop as many segments that move as `n` says, and the idle ones before them.
def dropMoves : Nat → List (List Char) → List (List Char)
  | 0, segments => segments
  | _, [] => []
  | n + 1, segment :: rest =>
      if isIdle segment then dropMoves (n + 1) rest else dropMoves n rest

-- What is left of a path after the steps of `base`, its idle ends dropped.
def relativeTo? (p base : Path) : Option Path :=
  let (anchor, segments) := p.anchored
  if base.steps.isPrefixOf p.steps then
    if base.steps.isEmpty then
      some (ofAnchored anchor (dropIdleEnd segments))
    else
      let rest := dropMoves (base.steps.length - anchor.steps.length) segments
      some (ofAnchored .none (dropIdleEnd (rest.dropWhile isIdle)))
  else
    none

def fileName? (p : Path) : Option String :=
  match p.steps.getLast? with
  | some (.name text) => some text
  | _ => none

-- What follows the last dot of the file name, unless that dot begins the name.
def extension? (p : Path) : Option String :=
  p.fileName?.bind fun name =>
    let backwards := name.toList.reverse
    match backwards.dropWhile (· != '.') with
    | _ :: _ :: _ => some (String.ofList (backwards.takeWhile (· != '.')).reverse)
    | _ => none

def Step.text : Step → String
  | root => "/"
  | here => "."
  | up => ".."
  | name text => text

-- The name under which a source file is known: no leading `.`, no idle
-- segments, forward slashes only.
def sourceName (p : Path) : String :=
  let moves := p.steps.dropWhile (· == .here)
  let path := match moves with
    | .root :: rest => "/" ++ "/".intercalate (rest.map Step.text)
    | rest => "/".intercalate (rest.map Step.text)
  String.ofList (Text.unifySlashes path.toList)

-- How a path is shown: from the working directory where it lies below it.
def display (p workingDirectory : Path) : String :=
  match p.relativeTo? workingDirectory with
  | some rest => if rest.text = "" then "." else rest.text
  | none => p.text

-- The path and everything above it, nearest first. Each is shorter than the
-- one before, so the length of the text bounds their number.
def ancestorsUpTo : Nat → Path → List Path
  | 0, _ => []
  | n + 1, p => p :: (match p.parent? with
      | some above => ancestorsUpTo n above
      | none => [])

def ancestors (p : Path) : List Path := ancestorsUpTo (p.text.length + 1) p

end Path

end ApiCatalog
