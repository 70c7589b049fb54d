namespace ApiCatalog.Text

-- Look for `mark`, having passed some text already, its last character first.
def cutFrom (mark passed : List Char) : List Char → Option (List Char × List Char)
  | [] => if mark.isEmpty then some (passed.reverse, []) else none
  | c :: rest =>
      match mark.isPrefixOf? (c :: rest) with
      | some after => some (passed.reverse, after)
      | none => cutFrom mark (c :: passed) rest

-- The text before and after the first occurrence of `mark`.
def cut? (mark s : List Char) : Option (List Char × List Char) := cutFrom mark [] s

def contains (s mark : List Char) : Bool := (cut? mark s).isSome

def endsWith (s mark : List Char) : Bool := mark.reverse.isPrefixOf s.reverse

-- The text in front of `mark`, if `s` ends with it.
def dropSuffix? (s mark : List Char) : Option (List Char) :=
  (mark.reverse.isPrefixOf? s.reverse).map List.reverse

-- Split at every occurrence of one character: `n` of them give `n + 1` pieces.
def splitAt (sep : Char) (s : List Char) : List (List Char) :=
  s.foldr (fun c pieces =>
    if c = sep then [] :: pieces
    else match pieces with
      | piece :: more => (c :: piece) :: more
      | [] => [[c]]) [[]]

def lines (s : List Char) : List (List Char) := splitAt '\n' s

def unlines (ls : List (List Char)) : List Char := ['\n'].intercalate ls

-- A carriage return is dropped where a line feed follows it, and only there.
def unifyBreaks (s : List Char) : List Char :=
  (s.zip (s.tail.map some ++ [none])).filterMap fun (c, next) =>
    if c = '\r' ∧ next = some '\n' then none else some c

-- Backslashes read as path separators.
def unifySlashes (s : List Char) : List Char :=
  s.map fun c => if c = '\\' then '/' else c

theorem cutFrom_eq (mark passed s : List Char) :
    cutFrom mark passed s = (cut? mark s).map fun (before, after) =>
      (passed.reverse ++ before, after) := by
  induction s generalizing passed with
  | nil => by_cases h : mark.isEmpty <;> simp [cut?, cutFrom, h]
  | cons c rest ih =>
      simp only [cut?, cutFrom]
      cases mark.isPrefixOf? (c :: rest) with
      | some after => simp
      | none =>
          simp only [ih (c :: passed), ih [c]]
          cases cut? mark rest <;> simp

theorem cut?_nil (mark : List Char) :
    cut? mark [] = if mark.isEmpty then some ([], []) else none := rfl

theorem cut?_cons (mark : List Char) (c : Char) (rest : List Char) :
    cut? mark (c :: rest) =
      match mark.isPrefixOf? (c :: rest) with
      | some after => some ([], after)
      | none => (cut? mark rest).map fun (before, after) => (c :: before, after) := by
  rw [cut?, cutFrom]
  cases mark.isPrefixOf? (c :: rest) with
  | some after => rfl
  | none => simp [cutFrom_eq]

theorem splitAt_nil (sep : Char) : splitAt sep [] = [[]] := rfl

theorem splitAt_cons (sep c : Char) (rest : List Char) :
    splitAt sep (c :: rest) =
      if c = sep then [] :: splitAt sep rest
      else match splitAt sep rest with
        | piece :: more => (c :: piece) :: more
        | [] => [[c]] := rfl

theorem splitAt_ne_nil (sep : Char) (s : List Char) : splitAt sep s ≠ [] := by
  cases s with
  | nil => simp [splitAt_nil]
  | cons c rest =>
      rw [splitAt_cons]
      split
      · simp
      · split <;> simp

-- Splitting loses nothing: the pieces with the separator between them are the text.
theorem intercalate_splitAt (sep : Char) (s : List Char) :
    [sep].intercalate (splitAt sep s) = s := by
  induction s with
  | nil => simp [splitAt_nil, List.intercalate]
  | cons c rest ih =>
      rw [splitAt_cons]
      cases hp : splitAt sep rest with
      | nil => exact absurd hp (splitAt_ne_nil sep rest)
      | cons piece pieces =>
          rw [hp] at ih
          by_cases h : c = sep
          · subst h
            simpa [List.intercalate, List.intersperse] using ih
          · cases pieces <;> simp_all [List.intercalate, List.intersperse]

theorem unlines_lines (s : List Char) : unlines (lines s) = s := intercalate_splitAt '\n' s

end ApiCatalog.Text
