namespace ApiCatalog.Yaml

-- Line breaks: the line feed, and the line and paragraph separators. The other
-- ways to end a line are made line feeds before anything is read.
def isBreak (c : Char) : Bool := c == '\n' || c.toNat == 0x2028 || c.toNat == 0x2029

def isBlank (c : Char) : Bool := c == ' ' || c == '\t'

def isBlankOrBreak (c : Char) : Bool := isBlank c || isBreak c

-- A carriage return, alone or with a line feed, and a next-line character are
-- line feeds.
def unifyBreaks : List Char → List Char
  | [] => []
  | c :: rest =>
      if c = '\r' then
        match rest with
        | '\n' :: _ => unifyBreaks rest
        | _ => '\n' :: unifyBreaks rest
      else if c.toNat = 0x85 then '\n' :: unifyBreaks rest
      else c :: unifyBreaks rest

-- Control characters may not stand in a document, except for the tab and the
-- line breaks.
def isAllowed (c : Char) : Bool :=
  let n := c.toNat
  n == 9 || n == 10 || n == 13 || (0x20 ≤ n && n ≤ 0x7E) || n == 0x85 || (0xA0 ≤ n && n ≤ 0xFFFD) ||
    0x10000 ≤ n

-- What is left to read, and where it stands.
structure Cursor where
  rest : List Char
  index : Nat := 0
  line : Nat := 0
  column : Nat := 0

namespace Cursor

def next (c : Cursor) : Cursor :=
  match c.rest with
  | [] => c
  | ch :: rest =>
      if isBreak ch then ⟨rest, c.index + 1, c.line + 1, 0⟩
      else ⟨rest, c.index + 1, c.line, c.column + 1⟩

def skip (c : Cursor) : Nat → Cursor
  | 0 => c
  | n + 1 => c.next.skip n

def takeWhile (c : Cursor) (p : Char → Bool) : List Char := c.rest.takeWhile p

def skipWhile (c : Cursor) (p : Char → Bool) : Cursor := c.skip (c.takeWhile p).length

end Cursor

-- Whether nothing, a blank or a break comes next.
def endsWord : List Char → Bool
  | [] => true
  | c :: _ => isBlankOrBreak c

-- A marker of three characters at the start of a line, on its own.
def isMarker (mark : List Char) (c : Cursor) : Bool :=
  c.column == 0 &&
    match mark.isPrefixOf? c.rest with
    | some after => endsWord after
    | none => false

def isDocumentStart (c : Cursor) : Bool := isMarker ['-', '-', '-'] c

def isDocumentEnd (c : Cursor) : Bool := isMarker ['.', '.', '.'] c

-- Blanks within a scalar. Without a line break they stand for themselves; one
-- line feed folds to a space, and of several the first is dropped.
def foldBlanks (blanks : List Char) : List Char :=
  match blanks.filter isBreak with
  | [] => blanks
  | first :: more =>
      if first = '\n' then if more.isEmpty then [' '] else more
      else first :: more

end ApiCatalog.Yaml
