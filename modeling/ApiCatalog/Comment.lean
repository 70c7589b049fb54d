import ApiCatalog.Location
import ApiCatalog.Text.Blank
import ApiCatalog.Text.Cut

namespace ApiCatalog

-- A documentation comment as it stands in a text: `lead` is the opener with
-- its line break and the decoration of the first line, `body` the rest of it,
-- and the closing mark follows.
structure Comment where
  lead : List Char
  body : List Char
  deriving DecidableEq, Repr

namespace Comment

def closing : List Char := ['*', '/']

def size (c : Comment) : Nat := c.lead.length + c.body.length + closing.length

-- The opener `/**` must end its line. Gives the opener with its line break,
-- and what follows.
def opener? : List Char → Option (List Char × List Char)
  | '/' :: '*' :: '*' :: rest =>
      match rest.dropWhile Text.isGap with
      | '\n' :: after => some ('/' :: '*' :: '*' :: rest.takeWhile Text.isGap ++ ['\n'], after)
      | _ => none
  | _ => none

-- The first line loses its indentation, one star and the gap after it, and the
-- body runs to the next closing mark. Blank lines count as indentation. The
-- star of a closing mark is taken for decoration as long as another closing
-- mark follows; only when none does it close the comment.
def afterOpener? (text : List Char) : Option (List Char × List Char) :=
  let indent := text.takeWhile Text.isBlank
  match text.dropWhile Text.isBlank with
  | '*' :: rest =>
      match Text.cut? closing (rest.dropWhile Text.isGap) with
      | some (body, _) => some (indent ++ '*' :: rest.takeWhile Text.isGap, body)
      | none =>
          match rest with
          | '/' :: _ => some (indent, [])
          | _ => none
  | rest => (Text.cut? closing rest).map fun (body, _) => (indent, body)

-- The comment that starts at the first character, if one does.
def ofText? (text : List Char) : Option Comment :=
  (opener? text).bind fun (opener, after) =>
    (afterOpener? after).map fun (decoration, body) => ⟨opener ++ decoration, body⟩

-- All comments from left to right with the place of each opener. `skip` counts
-- the characters that still belong to the comment found last.
def findFrom (loc : Location) (skip : Nat) : List Char → List (Location × Comment)
  | [] => []
  | c :: rest =>
      match skip with
      | n + 1 => findFrom (loc.advance c) n rest
      | 0 =>
          match ofText? (c :: rest) with
          | some comment => (loc, comment) :: findFrom (loc.advance c) (comment.size - 1) rest
          | none => findFrom (loc.advance c) 0 rest

def find (text : List Char) : List (Location × Comment) := findFrom Location.start 0 text

end Comment

end ApiCatalog
