namespace ApiCatalog

-- A place between two characters of a text: bytes passed, line and column
-- counted from one, columns in characters. The counts have no bound; kept in 32
-- bits they are the same for texts of fewer than 2 ^ 32 - 1 characters.
structure Location where
  offset : Nat
  line : Nat
  column : Nat
  deriving DecidableEq, Repr

namespace Location

def start : Location := ⟨0, 1, 1⟩

def advance (loc : Location) (c : Char) : Location :=
  if c = '\n' then
    ⟨loc.offset + c.utf8Size, loc.line + 1, 1⟩
  else
    ⟨loc.offset + c.utf8Size, loc.line, loc.column + 1⟩

def advanceAll (loc : Location) (s : List Char) : Location := s.foldl advance loc

-- Walk as far as `limit` bytes reach; a character that the limit cuts stays ahead.
def walk (limit : Nat) (loc : Location) : List Char → Location
  | [] => loc
  | c :: rest =>
      if loc.offset + c.utf8Size ≤ limit then walk limit (loc.advance c) rest else loc

def ofOffset (source : String) (offset : Nat) : Location := walk offset start source.toList

def display (loc : Location) : String := toString loc.line ++ ":" ++ toString loc.column

end Location

end ApiCatalog
