import ApiCatalog.Comment
import ApiCatalog.Text.Case

namespace ApiCatalog

-- One tag with its whole payload. `tag` is the name after `@api` in small
-- letters, or `api` itself; `line` is the line of the file it starts on. No tag
-- is counted beyond the last line, so that 32 bits hold the same number where
-- there are fewer than 2 ^ 32 - 1 lines.
structure TagLine where
  tag : String
  detail : String
  line : Nat
  deriving DecidableEq, Repr

namespace TagLine

-- Letters of a tag name: the ASCII letters, and the two characters that differ
-- from one of them only by case, the long s and the Kelvin sign.
def isNameChar (c : Char) : Bool :=
  ('a' ≤ c && c ≤ 'z') || ('A' ≤ c && c ≤ 'Z') || c.toNat == 0x17F || c.toNat == 0x212A

-- Drops `@api`, its letters in either case.
def afterMark? : List Char → Option (List Char)
  | '@' :: a :: p :: i :: rest =>
      if (a == 'a' || a == 'A') && (p == 'p' || p == 'P') && (i == 'i' || i == 'I') then
        some rest
      else
        none
  | _ => none

-- The name ends at a blank or at the end of the text. Other tags give nothing.
def ofText? (line : Nat) (text : List Char) : Option TagLine :=
  (afterMark? text).bind fun rest =>
    let name := rest.takeWhile isNameChar
    let tag := if name.isEmpty then "api" else String.ofList (Text.lower name)
    match rest.dropWhile isNameChar with
    | [] => some ⟨tag, "", line⟩
    | c :: after =>
        if Text.isBlank c then
          some ⟨tag, String.ofList (Text.trim (c :: after)), line⟩
        else
          none

end TagLine

-- A documentation comment taken apart: the text above its first tag, and its
-- tags in order.
structure Block where
  path : String
  location : Location
  summary : String
  lines : List TagLine
  deriving DecidableEq, Repr

namespace Block

-- A line after the first loses its indentation, star and one space. Without a
-- star it keeps its indentation, unless it opens a tag.
def undecorate (line : List Char) : List Char :=
  match Text.trimStart line with
  | '*' :: ' ' :: rest => rest
  | '*' :: rest => rest
  | '@' :: rest => '@' :: rest
  | _ => line

def opensTag (line : List Char) : Bool := line.head? == some '@'

-- Numbered lines gathered into the ones above the first tag, and for each tag
-- its line number and its lines.
def gather : List (Nat × List Char) → List (List Char) × List (Nat × List (List Char))
  | [] => ([], [])
  | (n, line) :: rest =>
      let (pending, entries) := gather rest
      if opensTag line then ([], (n, line :: pending) :: entries) else (line :: pending, entries)

-- The lines of a body, numbered from `first`. The first has no decoration left.
def numbered (first : Nat) (body : List Char) : List (Nat × List Char) :=
  match Text.lines body with
  | [] => []
  | line :: rest => (first, line) :: ((rest.map undecorate).zipIdx (first + 1)).map Prod.swap

-- Summary and tags of a body that starts on line `first`.
def split (first : Nat) (body : List Char) : String × List TagLine :=
  let (summary, entries) := gather (numbered first body)
  (String.ofList (Text.trim (Text.unlines summary)),
    entries.filterMap fun (n, ls) => TagLine.ofText? n (Text.unlines ls))

def ofComment (path : String) (location : Location) (comment : Comment) : Block :=
  let (summary, lines) := split (location.advanceAll comment.lead).line comment.body
  { path, location, summary, lines }

-- The blocks of a text in order.
def find (path : String) (source : List Char) : List Block :=
  (Comment.find source).map fun (location, comment) => ofComment path location comment

end Block

end ApiCatalog
