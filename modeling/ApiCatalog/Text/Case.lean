import ApiCatalog.Text.CasedTable
import ApiCatalog.Text.CaseTable

namespace ApiCatalog.Text

def mapCase (runs : List CaseRun) (expansions : List (Nat × List Nat)) (c : Char) :
    List Char :=
  match runs.findSome? (·.mapped? c.toNat) with
  | some n => [Char.ofNat n]
  | none =>
      match expansions.lookup c.toNat with
      | some codes => codes.map Char.ofNat
      | none => [c]

-- One letter on its own, without regard to its neighbours.
def lowerChar (c : Char) : List Char := mapCase lowerRuns lowerExpansions c

def upperChar (c : Char) : List Char := mapCase upperRuns upperExpansions c

def isCased (c : Char) : Bool := inRanges casedRanges c.toNat

def isCaseIgnorable (c : Char) : Bool := inRanges ignorableRanges c.toNat

-- Whether the nearest character that counts is a cased letter.
def meetsCased (s : List Char) : Bool :=
  match s.dropWhile isCaseIgnorable with
  | c :: _ => isCased c
  | [] => false

-- A capital sigma that ends a word of two or more letters has a small form of
-- its own. `before` is the text already passed, nearest character first.
def lowerFrom (before : List Char) : List Char → List Char
  | [] => []
  | c :: rest =>
      let image :=
        if c == 'Σ' then
          if meetsCased before && !meetsCased rest then ['ς'] else ['σ']
        else
          lowerChar c
      image ++ lowerFrom (c :: before) rest

def lower (s : List Char) : List Char := lowerFrom [] s

def upper (s : List Char) : List Char := s.flatMap upperChar

end ApiCatalog.Text
