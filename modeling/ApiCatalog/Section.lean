import ApiCatalog.Text.Blank

namespace ApiCatalog

-- How the text after the bracketed parts is read: its first word is a name and
-- the rest a description, or all of it is one of the two.
inductive Section.Mode where
  | withName
  | nameOnly
  | descriptionOnly
  deriving DecidableEq, Repr

-- A payload read as `<tag> (paren) {curly} name - description`. A part that is
-- not there is empty.
structure Section where
  tag : String := ""
  paren : String := ""
  curly : String := ""
  name : String := ""
  description : String := ""
  deriving DecidableEq, Repr, Inhabited

namespace Section

-- One or more characters between two brackets at the very start, and what
-- follows the closing one.
def bracketed? (opening closing : Char) : List Char → Option (List Char × List Char)
  | [] => none
  | c :: rest =>
      if c = opening then
        match rest.takeWhile (· != closing), rest.dropWhile (· != closing) with
        | inner@(_ :: _), _ :: after => some (inner, after)
        | _, _ => none
      else
        none

-- Take a bracketed part if it stands next after any blanks. Where a name must
-- follow, a part after which only blanks are left is not taken: it is the name.
def takePart (mode : Mode) (opening closing : Char) (text : List Char) :
    List Char × List Char :=
  match bracketed? opening closing (Text.trimStart text) with
  | some (inner, after) =>
      if mode = .withName ∧ Text.allBlank after then ([], text) else (inner, after)
  | none => ([], text)

-- Blanks, at most one dash, and blanks.
def dropDash (text : List Char) : List Char :=
  match Text.trimStart text with
  | '-' :: rest => Text.trimStart rest
  | rest => rest

-- The first line and the lines after it.
def splitFirst (detail : List Char) : List Char × List Char :=
  (detail.takeWhile (· != '\n'), (detail.dropWhile (· != '\n')).drop 1)

-- Continuation lines follow the description on a line of their own.
def continued (description rest : List Char) : List Char :=
  if description.isEmpty || rest.isEmpty then description ++ rest
  else description ++ '\n' :: rest

-- A name that is wanted but missing leaves everything empty, continuation
-- lines included.
def parse (detail : String) (mode : Mode) : Section :=
  let (first, rest) := splitFirst detail.toList
  if mode = .withName ∧ Text.allBlank first then
    {}
  else
    let (tag, first) := takePart mode '<' '>' first
    let (paren, first) := takePart mode '(' ')' first
    let (curly, first) := takePart mode '{' '}' first
    let (name, description) :=
      match mode with
      | .withName =>
          let named := Text.trimStart first
          (named.takeWhile (!Text.isBlank ·), dropDash (named.dropWhile (!Text.isBlank ·)))
      | .nameOnly => (dropDash first, [])
      | .descriptionOnly => ([], dropDash first)
    { tag := String.ofList tag
      paren := String.ofList paren
      curly := String.ofList curly
      name := String.ofList name
      description := String.ofList (continued description rest) }

end Section

end ApiCatalog
