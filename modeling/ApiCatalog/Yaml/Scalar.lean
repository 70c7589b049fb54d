import ApiCatalog.Yaml.Cursor

namespace ApiCatalog.Yaml

-- A scalar read at a cursor: its text, the cursor after it, and whether a line
-- ended just before that.
structure ScalarRead where
  text : List Char
  after : Cursor
  newLine : Bool

def isFlowIndicator (c : Char) : Bool :=
  c == ',' || c == '[' || c == ']' || c == '{' || c == '}'

-- The characters of a plain scalar up to a blank or to what ends it. Inside
-- brackets a colon may not stand right before an indicator.
def plainChunk? (flow : Bool) : List Char → Option (List Char)
  | [] => some []
  | c :: rest =>
      if isBlankOrBreak c then some []
      else if flow && c == ':' && rest.head?.any (fun d => isFlowIndicator d || d == '?') then none
      else if c == ':' && endsWord rest then some []
      else if flow && isFlowIndicator c then some []
      else (plainChunk? flow rest).map (c :: ·)

-- Whether a tab stands where a continuation line is indented: among the blanks
-- of a line in front of the column `indent`.
def tabInIndent (indent column : Nat) : Bool → List Char → Bool
  | _, [] => false
  | inLead, c :: rest =>
      if isBreak c then tabInIndent indent 0 true rest
      else (inLead && c == '\t' && column < indent) || tabInIndent indent (column + 1) inLead rest

-- Chunks with the blanks between them folded. The scalar ends at a comment, a
-- document marker, an indicator, or a line that is indented too little.
-- `passed` are the blanks since the last chunk.
def plainFrom (flow : Bool) (indent : Nat) :
    Nat → List Char → List Char → Cursor → Option ScalarRead
  | 0, _, _, _ => none
  | fuel + 1, text, passed, c =>
      let newLine := passed.any isBreak
      if isDocumentStart c || isDocumentEnd c || c.rest.head? == some '#' then
        some ⟨text, c, newLine⟩
      else
        (plainChunk? flow c.rest).bind fun chunk =>
          if chunk.isEmpty then
            some ⟨text, c, newLine⟩
          else
            let text := text ++ foldBlanks passed ++ chunk
            let c := c.skip chunk.length
            let blanks := c.takeWhile isBlankOrBreak
            let after := c.skip blanks.length
            if blanks.isEmpty then some ⟨text, after, false⟩
            else if tabInIndent indent c.column false blanks then none
            else if !flow && after.column < indent then some ⟨text, after, blanks.any isBreak⟩
            else plainFrom flow indent fuel text blanks after

-- `indent` is the least column of a continuation line.
def plain? (flow : Bool) (indent : Nat) (c : Cursor) : Option ScalarRead :=
  plainFrom flow indent (c.rest.length + 1) [] [] c

-- Escapes of one letter in double quotes.
def escape? (c : Char) : Option Char :=
  match c with
  | '0' => some (Char.ofNat 0)
  | 'a' => some (Char.ofNat 7)
  | 'b' => some (Char.ofNat 8)
  | 't' | '\t' => some '\t'
  | 'n' => some '\n'
  | 'v' => some (Char.ofNat 11)
  | 'f' => some (Char.ofNat 12)
  | 'r' => some '\r'
  | 'e' => some (Char.ofNat 27)
  | ' ' | '"' | '/' | '\\' => some c
  | 'N' => some (Char.ofNat 0x85)
  | '_' => some (Char.ofNat 0xA0)
  | 'L' => some (Char.ofNat 0x2028)
  | 'P' => some (Char.ofNat 0x2029)
  | _ => none

-- How many hexadecimal digits follow.
def escapeDigits? (c : Char) : Option Nat :=
  match c with
  | 'x' => some 2
  | 'u' => some 4
  | 'U' => some 8
  | _ => none

def hexValue? (c : Char) : Option Nat :=
  if '0' ≤ c ∧ c ≤ '9' then some (c.toNat - 48)
  else if 'a' ≤ c ∧ c ≤ 'f' then some (c.toNat - 87)
  else if 'A' ≤ c ∧ c ≤ 'F' then some (c.toNat - 55)
  else none

-- The character with that code; there is none for a surrogate.
def charOfDigits? (digits : List Char) : Option Char :=
  (digits.foldlM (fun n c => (hexValue? c).map (16 * n + ·)) 0).bind fun n =>
    if n.isValidChar then some (Char.ofNat n) else none

-- What an escape stands for, and how many characters it takes. A backslash at
-- the end of a line joins the next line without its indentation.
def escapeAt? (rest : List Char) : Option (List Char × Nat) :=
  match rest with
  | [] => none
  | c :: more =>
      if isBreak c then
        let blanks := more.takeWhile isBlankOrBreak
        some (blanks.filter isBreak, 1 + blanks.length)
      else
        match escapeDigits? c with
        | some n =>
            if (more.take n).length = n then
              (charOfDigits? (more.take n)).map fun ch => ([ch], 1 + n)
            else
              none
        | none => (escape? c).map fun ch => ([ch], 1)

-- The text between quotes, folded; `single` says which quotes. In single quotes
-- a quote is written twice, in double quotes there are escapes.
def quotedFrom (single : Bool) : Nat → List Char → Cursor → Option ScalarRead
  | 0, _, _ => none
  | fuel + 1, text, c =>
      if isDocumentStart c || isDocumentEnd c then
        none
      else
        match c.rest with
        | [] => none
        | ch :: rest =>
            if single && ch == '\'' then
              match rest with
              | '\'' :: _ => quotedFrom single fuel (text ++ ['\'']) (c.skip 2)
              | _ => some ⟨text, c.next, false⟩
            else if !single && ch == '"' then
              some ⟨text, c.next, false⟩
            else if !single && ch == '\\' then
              (escapeAt? rest).bind fun (chars, size) =>
                quotedFrom single fuel (text ++ chars) (c.skip (1 + size))
            else if isBlankOrBreak ch then
              let blanks := c.takeWhile isBlankOrBreak
              quotedFrom single fuel (text ++ foldBlanks blanks) (c.skip blanks.length)
            else
              quotedFrom single fuel (text ++ [ch]) c.next

-- The cursor stands at the opening quote.
def quoted? (single : Bool) (c : Cursor) : Option ScalarRead :=
  quotedFrom single (c.rest.length + 1) [] c.next

-- What happens to the line breaks at the end of a block scalar.
inductive Chomping where
  | strip
  | clip
  | keep
  deriving DecidableEq

structure BlockHeader where
  chomping : Chomping := .clip
  increment : Option Nat := none

def chomping? (c : Char) : Option Chomping :=
  match c with
  | '+' => some .keep
  | '-' => some .strip
  | _ => none

def digit? (c : Char) : Option Nat :=
  if '0' ≤ c ∧ c ≤ '9' then some (c.toNat - 48) else none

-- Chomping and indentation in either order, each at most once; an indentation
-- of zero is refused.
def blockHeader? (rest : List Char) : Option (BlockHeader × Nat) :=
  match rest with
  | a :: more =>
      match chomping? a, digit? a with
      | some chomping, _ =>
          match more.head?.bind digit? with
          | some 0 => none
          | some n => some (⟨chomping, some n⟩, 2)
          | none => some (⟨chomping, none⟩, 1)
      | none, some 0 => none
      | none, some n =>
          match more.head?.bind chomping? with
          | some chomping => some (⟨chomping, some n⟩, 2)
          | none => some (⟨.clip, some n⟩, 1)
      | none, none => some ({}, 0)
  | [] => some ({}, 0)

-- Empty lines in front of a line of a block scalar: their breaks, the cursor at
-- the line's first character, and the widest indentation passed. No indentation
-- known yet means that all of it is passed.
def blockBreaks (indent : Option Nat) (widest : Nat) :
    Nat → List Char → Cursor → Option (List Char × Cursor × Nat)
  | 0, _, _ => none
  | fuel + 1, breaks, c =>
      let spaces := (c.takeWhile (· == ' ')).length
      let c := c.skip (match indent with
        | some n => min spaces (n - c.column)
        | none => spaces)
      let widest := max widest c.column
      let inIndent := match indent with
        | some n => decide (c.column < n)
        | none => true
      match c.rest with
      | ch :: _ =>
          if inIndent && ch == '\t' then none
          else if isBreak ch then blockBreaks indent widest fuel (breaks ++ [ch]) c.next
          else some (breaks, c, widest)
      | [] => some (breaks, c, widest)

-- The lines of a block scalar. `lastBreak` ended the line before, `breaks` are
-- those of the empty lines after it. A folded scalar joins two lines by a space
-- unless one of them starts with a blank.
def blockLines (folded : Bool) (chomping : Chomping) (indent : Nat) :
    Nat → List Char → List Char → List Char → Bool → Cursor → Option ScalarRead
  | 0, _, _, _, _, _ => none
  | fuel + 1, text, lastBreak, breaks, afterBlank, c =>
      if c.column == indent && !c.rest.isEmpty then
        let blank := c.rest.head?.any isBlank
        let glue :=
          if folded && lastBreak == ['\n'] && !afterBlank && !blank then
            if breaks.isEmpty then [' '] else breaks
          else
            lastBreak ++ breaks
        let line := c.takeWhile (!isBreak ·)
        let c := c.skip line.length
        let ended := c.rest.take 1
        (blockBreaks (some indent) 0 (c.rest.length + 1) [] c.next).bind fun (breaks, c, _) =>
          blockLines folded chomping indent fuel (text ++ glue ++ line) ended breaks blank c
      else
        some ⟨text ++ (if chomping = .strip then [] else lastBreak) ++
          (if chomping = .keep then breaks else []), c, true⟩

-- The cursor stands at the indicator. `parentIndent` is the column of the
-- collection around the scalar, if there is one; the scalar lies deeper.
def block? (folded : Bool) (parentIndent : Option Nat) (c : Cursor) : Option ScalarRead :=
  let c := c.next
  (blockHeader? c.rest).bind fun (header, size) =>
    let c := (c.skip size).skipWhile isBlank
    let c := if c.rest.head? == some '#' then c.skipWhile (!isBreak ·) else c
    if endsWord c.rest then
      let c := c.next
      let least := match parentIndent with
        | some n => n + 1
        | none => 0
      let wanted := header.increment.map fun n => match parentIndent with
        | some outer => outer + n
        | none => n
      (blockBreaks wanted 0 (c.rest.length + 1) [] c).bind fun (breaks, c, widest) =>
        let indent := wanted.getD (max (max widest least) 1)
        blockLines folded header.chomping indent (c.rest.length + 1) [] [] breaks false c
    else
      none

end ApiCatalog.Yaml
