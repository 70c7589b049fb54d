import ApiCatalog.Yaml.Scalar

namespace ApiCatalog.Yaml

-- Block collections are bracketed by tokens of their own, made from the
-- indentation; `key` stands in front of a key even where the text has no mark
-- for it. A scalar is plain when it has neither quotes nor a block indicator.
inductive Token where
  | directive
  | documentStart
  | documentEnd
  | blockSequenceStart
  | blockMappingStart
  | blockEnd
  | flowSequenceStart
  | flowSequenceEnd
  | flowMappingStart
  | flowMappingEnd
  | flowEntry
  | blockEntry
  | key
  | value
  | alias (name : String)
  | anchor (name : String)
  | tag
  | scalar (text : String) (plain : Bool)
  deriving DecidableEq, Repr

-- A token that turns out to be a key if a colon follows it: the number of
-- tokens in front of it, and where it starts. One that stands at the column of
-- its block can be nothing else.
structure Candidate where
  position : Nat
  index : Nat
  line : Nat
  column : Nat
  required : Bool

-- Tokens found so far, newest first, and what decides the next one: the columns
-- of the open block collections, innermost first; whether a key may start here;
-- and the candidate of each open bracket, innermost first, with the one outside
-- all brackets last.
structure Scanner where
  cursor : Cursor
  tokens : List Token := []
  indents : List Nat := []
  keyAllowed : Bool := true
  candidates : List (Option Candidate) := [none]

namespace Scanner

def inFlow (s : Scanner) : Bool := 1 < s.candidates.length

def emit (s : Scanner) (t : Token) : Scanner := { s with tokens := t :: s.tokens }

-- A candidate that was bound to be a key and is none is a fault.
def dropCandidate? (s : Scanner) : Option Scanner :=
  match s.candidates with
  | some k :: outer => if k.required then none else some { s with candidates := none :: outer }
  | _ => some s

def saveCandidate? (s : Scanner) : Option Scanner :=
  if s.keyAllowed then
    s.dropCandidate?.map fun s =>
      let required := !s.inFlow && s.indents.head? == some s.cursor.column
      { s with candidates := some ⟨s.tokens.length, s.cursor.index, s.cursor.line,
          s.cursor.column, required⟩ :: s.candidates.tail }
  else
    some s

-- A key lies on one line and is at most 1024 characters long.
def isStale (s : Scanner) (k : Candidate) : Bool :=
  k.line < s.cursor.line || k.index + 1024 < s.cursor.index

def dropStale? (s : Scanner) : Option Scanner :=
  (s.candidates.mapM fun candidate => match candidate with
    | some k =>
        if s.isStale k then if k.required then none else some none else some (some k)
    | none => some none).map fun candidates => { s with candidates }

-- Put a token in front of the one that has `position` tokens before it.
def insertAt (s : Scanner) (position : Nat) (t : Token) : Scanner :=
  let behind := s.tokens.length - position
  { s with tokens := s.tokens.take behind ++ t :: s.tokens.drop behind }

-- Open a block collection at a column deeper than the innermost one.
def openBlock (s : Scanner) (column position : Nat) (t : Token) : Scanner :=
  if !s.inFlow && s.indents.head?.all (· < column) then
    { s.insertAt position t with indents := column :: s.indents }
  else
    s

-- Close the block collections deeper than a column, or all of them.
def closeBlocks (s : Scanner) (column : Option Nat) : Scanner :=
  if s.inFlow then
    s
  else
    let closed := s.indents.takeWhile fun indent => match column with
      | some n => decide (n < indent)
      | none => true
    { s with
      indents := s.indents.drop closed.length
      tokens := List.replicate closed.length Token.blockEnd ++ s.tokens }

-- Pass blanks, comments and line breaks. A tab is blank only where no key may
-- start; a line break outside brackets allows one.
def skipToToken : Nat → Scanner → Scanner
  | 0, s => s
  | fuel + 1, s =>
      let tabs := s.inFlow || !s.keyAllowed
      let c := if s.cursor.index == 0 && s.cursor.rest.head? == some (Char.ofNat 0xFEFF)
        then s.cursor.next else s.cursor
      let c := c.skipWhile fun ch => ch == ' ' || (tabs && ch == '\t')
      let c := if c.rest.head? == some '#' then c.skipWhile (!isBreak ·) else c
      match c.rest with
      | ch :: _ =>
          if isBreak ch then
            skipToToken fuel { s with cursor := c.next, keyAllowed := !s.inFlow || s.keyAllowed }
          else
            { s with cursor := c }
      | [] => { s with cursor := c }

def marker? (s : Scanner) (t : Token) : Option Scanner :=
  (s.closeBlocks none).dropCandidate?.map fun s =>
    { s.emit t with keyAllowed := false, cursor := s.cursor.skip 3 }

def flowStart? (s : Scanner) (t : Token) : Option Scanner :=
  s.saveCandidate?.map fun s =>
    { s.emit t with
      candidates := none :: s.candidates, keyAllowed := true, cursor := s.cursor.next }

def flowEnd? (s : Scanner) (t : Token) : Option Scanner :=
  s.dropCandidate?.map fun s =>
    { s.emit t with
      candidates := if s.inFlow then s.candidates.tail else s.candidates
      keyAllowed := false
      cursor := s.cursor.next }

def flowEntry? (s : Scanner) : Option Scanner :=
  s.dropCandidate?.map fun s =>
    { s.emit .flowEntry with keyAllowed := true, cursor := s.cursor.next }

-- A dash or a question mark outside brackets opens a block where it stands.
def blockMark? (s : Scanner) (opening mark : Token) : Option Scanner :=
  if !s.inFlow && !s.keyAllowed then
    none
  else
    (s.openBlock s.cursor.column s.tokens.length opening).dropCandidate?.map (·.emit mark)

def blockEntry? (s : Scanner) : Option Scanner :=
  (s.blockMark? .blockSequenceStart .blockEntry).map fun s =>
    { s with keyAllowed := true, cursor := s.cursor.next }

def explicitKey? (s : Scanner) : Option Scanner :=
  (s.blockMark? .blockMappingStart .key).map fun s =>
    { s with keyAllowed := !s.inFlow, cursor := s.cursor.next }

-- A colon makes the candidate a key, or follows an explicit or empty one.
def value? (s : Scanner) : Option Scanner :=
  match s.candidates with
  | some k :: outer =>
      let s := (s.insertAt k.position .key).openBlock k.column k.position .blockMappingStart
      some { s.emit .value with
        candidates := none :: outer, keyAllowed := false, cursor := s.cursor.next }
  | _ =>
      if !s.inFlow && !s.keyAllowed then
        none
      else
        let s := s.openBlock s.cursor.column s.tokens.length .blockMappingStart
        some { s.emit .value with keyAllowed := !s.inFlow, cursor := s.cursor.next }

def isNameChar (c : Char) : Bool := c.isAlphanum || c == '_' || c == '-'

-- The name after `&` or `*`.
def name? (s : Scanner) (token : String → Token) : Option Scanner :=
  s.saveCandidate?.bind fun s =>
    let c := s.cursor.next
    let name := c.takeWhile isNameChar
    let c := c.skip name.length
    if !name.isEmpty && (endsWord c.rest || c.rest.head?.any ("?:,]\x7d%@".toList.contains ·)) then
      some { s.emit (token (String.ofList name)) with keyAllowed := false, cursor := c }
    else
      none

-- Tags are passed over. Only the two handles that need no directive are known.
def tag? (s : Scanner) : Option Scanner :=
  s.saveCandidate?.bind fun s =>
    let text := s.cursor.takeWhile fun c => !isBlankOrBreak c && !isFlowIndicator c
    let c := s.cursor.skip text.length
    if !(text.drop 2).contains '!' &&
        (endsWord c.rest || (s.inFlow && c.rest.head? == some ',')) then
      some { s.emit .tag with keyAllowed := false, cursor := c }
    else
      none

def emitScalar (s : Scanner) (r : ScalarRead) (plain : Bool) : Scanner :=
  { s.emit (.scalar (String.ofList r.text) plain) with cursor := r.after }

def blockScalar? (s : Scanner) (folded : Bool) : Option Scanner :=
  s.dropCandidate?.bind fun s =>
    (block? folded s.indents.head? s.cursor).map fun r =>
      { s.emitScalar r false with keyAllowed := true }

def quotedScalar? (s : Scanner) (single : Bool) : Option Scanner :=
  s.saveCandidate?.bind fun s =>
    (quoted? single s.cursor).map fun r => { s.emitScalar r false with keyAllowed := false }

def plainScalar? (s : Scanner) : Option Scanner :=
  s.saveCandidate?.bind fun s =>
    let indent := match s.indents.head? with
      | some n => n + 1
      | none => 0
    (plain? s.inFlow indent s.cursor).map fun r =>
      { s.emitScalar r true with keyAllowed := r.newLine }

-- The only directive known is the version, 1.1 or 1.2.
def directive? (s : Scanner) : Option Scanner :=
  (s.closeBlocks none).dropCandidate?.bind fun s =>
    let line := s.cursor.takeWhile (!isBreak ·)
    let words := (line.takeWhile (· != '#')).splitBy (fun a b => isBlank a == isBlank b)
    match words.filter (!·.any isBlank) with
    | [name, version] =>
        if String.ofList name = "%YAML" && ["1.1", "1.2"].contains (String.ofList version) then
          some { s.emit .directive with keyAllowed := false, cursor := s.cursor.skip line.length }
        else
          none
    | _ => none

-- Characters that never start a plain scalar, and those that do only where no
-- blank follows.
def isReserved (c : Char) : Bool := ",[]\x7b\x7d#&*!|>'\"%@\x60".toList.contains c

-- The token at the cursor, which stands at no blank.
def fetch? (s : Scanner) (c : Char) (rest : List Char) : Option Scanner :=
  let alone := endsWord rest
  if s.cursor.column == 0 && c == '%' then s.directive?
  else if isDocumentStart s.cursor then s.marker? .documentStart
  else if isDocumentEnd s.cursor then s.marker? .documentEnd
  else if c == '[' then s.flowStart? .flowSequenceStart
  else if c == '{' then s.flowStart? .flowMappingStart
  else if c == ']' then s.flowEnd? .flowSequenceEnd
  else if c == '}' then s.flowEnd? .flowMappingEnd
  else if c == ',' then s.flowEntry?
  else if c == '-' && alone then s.blockEntry?
  else if c == '?' && (s.inFlow || alone) then s.explicitKey?
  else if c == ':' && (s.inFlow || alone) then s.value?
  else if c == '*' then s.name? .alias
  else if c == '&' then s.name? .anchor
  else if c == '!' then s.tag?
  else if c == '|' && !s.inFlow then s.blockScalar? false
  else if c == '>' && !s.inFlow then s.blockScalar? true
  else if c == '\'' then s.quotedScalar? true
  else if c == '"' then s.quotedScalar? false
  else if isBlankOrBreak c || isReserved c then none
  else s.plainScalar?

def finish? (s : Scanner) : Option Scanner := (s.closeBlocks none).dropCandidate?

-- Every token takes at least one character.
def run : Nat → Scanner → Option Scanner
  | 0, _ => none
  | fuel + 1, s =>
      let s := skipToToken (s.cursor.rest.length + 1) s
      s.dropStale?.bind fun s =>
        let s := s.closeBlocks (some s.cursor.column)
        match s.cursor.rest with
        | [] => s.finish?
        | c :: rest => (s.fetch? c rest).bind (run fuel)

end Scanner

-- The tokens of a text, or nothing if it cannot be cut into any.
def Token.ofText? (text : String) : Option (List Token) :=
  let chars := unifyBreaks text.toList
  if text.toList.all isAllowed then
    (Scanner.run (chars.length + 1) { cursor := { rest := chars } }).map (·.tokens.reverse)
  else
    none

end ApiCatalog.Yaml
