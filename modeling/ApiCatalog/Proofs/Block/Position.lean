import ApiCatalog.Proofs.Block.Place
import ApiCatalog.Proofs.Block.Writing

namespace ApiCatalog

namespace Text

theorem head?_of_lines_eq {s first : List Char} {rest : List (List Char)}
    (h : lines s = first :: rest) : ∀ c ∈ first.head?, c ∈ s.head? := by
  intro c hc
  obtain ⟨line, rfl⟩ := List.head?_eq_some_iff.1 hc
  obtain ⟨tail, htail⟩ := exists_unlines_cons c line rest
  rw [← unlines_lines s, h, htail]
  rfl

theorem trim_unlines_indented {gap : List Char} (h : ∀ c ∈ gap, isBlank c) (first : List Char)
    (rest : List (List Char)) :
    trim (unlines ((gap ++ first) :: rest)) = trim (unlines (first :: rest)) := by
  rw [unlines_append_cons, trim, trimStart_append h]
  rfl

section Blanks

variable {blanks : List (List Char)} (hblanks : ∀ l ∈ blanks, ∀ c ∈ l, isBlank c)
include hblanks

theorem isBlank_unlines : ∀ c ∈ unlines blanks, isBlank c := by
  induction blanks with
  | nil => simp [unlines, List.intercalate]
  | cons l ls ih =>
      have hl := hblanks l (by simp)
      by_cases hne : ls = []
      · subst hne
        simpa [unlines] using hl
      · have hls := ih fun l' hl' => hblanks l' (List.mem_cons_of_mem l hl')
        rw [unlines_cons hne]
        intro c hc
        rcases List.mem_append.1 hc with hc | hc
        · exact hl c hc
        · rcases List.mem_cons.1 hc with rfl | hc
          · decide
          · exact hls c hc

theorem trim_unlines_append (ls : List (List Char)) :
    trim (unlines (blanks ++ ls)) = trim (unlines ls) := by
  have hblank := isBlank_unlines hblanks
  by_cases hempty : blanks = []
  · rw [hempty, List.nil_append]
  by_cases hls : ls = []
  · have hall : allBlank (unlines blanks) := List.all_eq_true.2 hblank
    rw [hls, List.append_nil, (trim_eq_nil_iff _).2 hall]
    rfl
  · have hbreak : ∀ c ∈ unlines blanks ++ ['\n'], isBlank c := by
      intro c hc
      rcases List.mem_append.1 hc with hc | hc
      · exact hblank c hc
      · rw [List.mem_singleton.1 hc]
        decide
    rw [unlines_append hempty hls, List.append_cons, trim, trimStart_append hbreak]
    rfl

end Blanks

end Text

namespace TagLine

-- The same tag, one line further down.
def lowered (l : TagLine) : TagLine := { l with line := l.line + 1 }

theorem ofText?_succ (n : Nat) (text : List Char) :
    ofText? (n + 1) text = (ofText? n text).map lowered := by
  simp only [ofText?]
  cases afterMark? text with
  | none => rfl
  | some rest =>
      simp only [Option.bind_some]
      cases rest.dropWhile isNameChar with
      | nil => rfl
      | cons c after =>
          by_cases hc : Text.isBlank c
          · simp only [if_pos hc]
            rfl
          · simp only [if_neg hc]
            rfl

end TagLine

namespace Comment

-- All that the interior of a comment can begin with, and what its first line
-- loses: the gap behind a star goes as a whole.
theorem decoration_cases (interior : List Char) :
    (∃ indent gap body, interior = indent ++ '*' :: gap ++ body ∧
      (∀ c ∈ indent, Text.isBlank c) ∧ (∀ c ∈ gap, Text.isGap c) ∧
      (∀ c ∈ body.head?, Text.isGap c = false) ∧
      decoration interior = indent ++ '*' :: gap ∧ undecorated interior = body) ∨
    (∃ indent body, interior = indent ++ body ∧ (∀ c ∈ indent, Text.isBlank c) ∧
      (∀ c ∈ body.head?, Text.isBlank c = false ∧ c ≠ '*') ∧
      decoration interior = indent ∧ undecorated interior = body) := by
  have hsplit := Text.blanks_append_trimStart interior
  have hindent := Text.forall_isBlank (Text.allBlank_takeWhile interior)
  by_cases hstar : ∃ rest, interior.dropWhile Text.isBlank = '*' :: rest
  · obtain ⟨rest, hrest⟩ := hstar
    have hgap : ∀ c ∈ rest.takeWhile Text.isGap, Text.isGap c :=
      fun c hc => List.mem_takeWhile_imp hc
    have hbody : ∀ c ∈ (rest.dropWhile Text.isGap).head?, Text.isGap c = false := by
      intro c hc
      have hstop := List.head?_dropWhile_not Text.isGap rest
      rw [Option.mem_def.1 hc] at hstop
      exact hstop
    refine .inl ⟨interior.takeWhile Text.isBlank, rest.takeWhile Text.isGap,
      rest.dropWhile Text.isGap, ?_, hindent, hgap, hbody, ?_, ?_⟩
    · rw [List.append_assoc, List.cons_append, List.takeWhile_append_dropWhile, ← hrest]
      exact hsplit.symm
    · simp only [decoration, hrest]
    · simp only [undecorated, hrest]
  · have hplain : ∀ rest, interior.dropWhile Text.isBlank ≠ '*' :: rest :=
      fun rest heq => hstar ⟨rest, heq⟩
    obtain ⟨hdecoration, hundecorated⟩ := decoration_plain hplain
    refine .inr ⟨_, _, hsplit.symm, hindent, ?_, hdecoration, hundecorated⟩
    intro c hc
    refine ⟨Text.isBlank_head?_trimStart hc, ?_⟩
    rintro rfl
    obtain ⟨rest, hrest⟩ := List.head?_eq_some_iff.1 hc
    exact hplain rest hrest

theorem newline_not_mem_star {gap : List Char} (h : ∀ c ∈ gap, Text.isGap c) :
    '\n' ∉ '*' :: gap := by
  intro hmem
  rcases List.mem_cons.1 hmem with heq | hgap
  · exact absurd heq (by decide)
  · exact absurd (h '\n' hgap) (by decide)

-- A tag on the first line that stands deeper behind its star than one space.
def OpensDeep (interior : List Char) : Prop :=
  ∃ blanks gap rest, interior = blanks ++ '*' :: gap ++ '@' :: rest ∧
    (∀ c ∈ blanks, Text.isBlank c) ∧ (∀ c ∈ gap, Text.isGap c) ∧ gap ≠ [] ∧ gap ≠ [' ']

end Comment

namespace Block

-- Summary and tags of numbered lines.
def reading (numbered : List (Nat × List Char)) : String × List TagLine :=
  (String.ofList (Text.trim (Text.unlines (gather numbered).1)),
    (gather numbered).2.filterMap fun (n, ls) => TagLine.ofText? n (Text.unlines ls))

theorem split_eq_reading {body first : List Char} {rest : List (List Char)}
    (h : Text.lines body = first :: rest) (n : Nat) :
    split n body = reading (numberedFrom n (first :: rest.map undecorate)) := by
  simp only [split, numbered, h]
  rfl

theorem gather_map_succ (numbered : List (Nat × List Char)) :
    gather (numbered.map (Prod.map Nat.succ id)) =
      ((gather numbered).1, (gather numbered).2.map (Prod.map Nat.succ id)) := by
  induction numbered with
  | nil => rfl
  | cons entry rest ih =>
      obtain ⟨n, line⟩ := entry
      simp only [List.map_cons, Prod.map_apply, id, gather, ih]
      split <;> rfl

theorem reading_succ (n : Nat) (ls : List (List Char)) :
    reading (numberedFrom (n + 1) ls) =
      ((reading (numberedFrom n ls)).1,
        (reading (numberedFrom n ls)).2.map TagLine.lowered) := by
  have hnumbered : numberedFrom (n + 1) ls =
      (numberedFrom n ls).map (Prod.map Nat.succ id) := by
    rw [numberedFrom, List.zipIdx_succ]
    simp [numberedFrom, Function.comp_def]
  simp only [reading, hnumbered, gather_map_succ, List.filterMap_map, List.map_filterMap,
    ← TagLine.ofText?_succ]
  rfl

-- Blank lines in front have no part in what is read.
theorem reading_blanks {blanks : List (List Char)} (h : ∀ l ∈ blanks, ∀ c ∈ l, Text.isBlank c)
    (n : Nat) (ls : List (List Char)) :
    reading (numberedFrom n (blanks ++ ls)) =
      reading (numberedFrom (n + blanks.length) ls) := by
  have huntagged : ∀ l ∈ blanks, l.head? ≠ some '@' := by
    intro l hl hat
    exact absurd (h l hl '@' (List.mem_of_mem_head? hat)) (by decide)
  simp only [reading, numberedFrom_append, gather_untagged huntagged,
    Text.trim_unlines_append h]

section FirstLine

variable {gap first : List Char} (hgap : ∀ c ∈ gap, Text.isBlank c) (rest : List (List Char))
include hgap

theorem head?_append_ne (h : gap ≠ [] ∨ first.head? ≠ some '@') :
    (gap ++ first).head? ≠ some '@' := by
  intro hat
  cases gap with
  | nil => exact h.elim (fun hne => hne rfl) fun hne => hne hat
  | cons c more =>
      obtain rfl : c = '@' := by simpa using hat
      exact absurd (hgap '@' (by simp)) (by decide)

-- The depth of a line that opens no tag goes with the blanks around the summary.
theorem reading_indented (h : first.head? ≠ some '@') (n : Nat) :
    reading (numberedFrom n ((gap ++ first) :: rest)) =
      reading (numberedFrom n (first :: rest)) := by
  have hdeep : (gap ++ first).head? ≠ some '@' := head?_append_ne hgap (.inr h)
  simp only [reading, numberedFrom_cons, gather_plain h, gather_plain hdeep,
    Text.trim_unlines_indented hgap]

-- The depth of a line that would open one decides: its text is a tag, or the
-- first word of the summary.
theorem reading_indented_ne (h : first.head? = some '@') (hne : gap ≠ []) (m n : Nat) :
    (reading (numberedFrom m ((gap ++ first) :: rest))).1 ≠
      (reading (numberedFrom n (first :: rest))).1 := by
  have hdeep : (gap ++ first).head? ≠ some '@' := head?_append_ne hgap (.inl hne)
  have htag : (reading (numberedFrom n (first :: rest))).1 = "" := by
    simp only [reading, numberedFrom_cons, gather_tag h]
    rfl
  obtain ⟨s, rfl⟩ := List.head?_eq_some_iff.1 h
  obtain ⟨tail, htail⟩ := Text.exists_unlines_cons '@' s (gather (numberedFrom (m + 1) rest)).1
  have htext : Text.trim ('@' :: tail) ≠ [] := Text.trim_cons_ne_nil (by decide) tail
  rw [htag]
  simp only [reading, numberedFrom_cons, gather_plain hdeep, Text.trim_unlines_indented hgap, htail]
  simpa using htext

end FirstLine

section Lowered

-- A line below the first loses one space behind its star.
theorem exists_undecorate_star {margin gap first : List Char}
    (hmargin : ∀ c ∈ margin, Text.isBlank c) (hgap : ∀ c ∈ gap, Text.isGap c)
    (hfirst : ∀ c ∈ first.head?, Text.isGap c = false) :
    ∃ deep, undecorate (margin ++ ('*' :: gap ++ first)) = deep ++ first ∧
      (∀ c ∈ deep, Text.isBlank c) ∧ (deep = [] ↔ gap = [] ∨ gap = [' ']) := by
  have hstart : Text.trimStart (margin ++ ('*' :: gap ++ first)) = '*' :: gap ++ first :=
    Text.trimStart_append hmargin
  have hblank : ∀ c ∈ gap, Text.isBlank c := fun c hc => Text.isBlank_of_isGap (hgap c hc)
  rw [undecorate, hstart]
  cases gap with
  | nil =>
      refine ⟨[], ?_, by simp, by simp⟩
      cases first with
      | nil => rfl
      | cons c more =>
          have hc : c ≠ ' ' := by
            rintro rfl
            exact absurd (hfirst ' ' (by simp)) (by decide)
          simp [hc]
  | cons c more =>
      by_cases hc : c = ' '
      · subst hc
        exact ⟨more, rfl, fun c hc => hblank c (List.mem_cons_of_mem _ hc), by simp⟩
      · exact ⟨c :: more, by simp [hc], hblank, by simp [hc]⟩

-- Without a star it keeps its depth, and loses it only to a tag.
theorem exists_undecorate_plain {margin first : List Char}
    (hmargin : ∀ c ∈ margin, Text.isBlank c)
    (hfirst : ∀ c ∈ first.head?, Text.isBlank c = false ∧ c ≠ '*') :
    ∃ deep, undecorate (margin ++ first) = deep ++ first ∧
      (∀ c ∈ deep, Text.isBlank c) ∧ (deep = [] ∨ first.head? ≠ some '@') := by
  cases first with
  | nil =>
      rw [List.append_nil, undecorate_of_isBlank hmargin]
      exact ⟨margin, by simp, hmargin, by simp⟩
  | cons c more =>
      obtain ⟨hblank, hstar⟩ := hfirst c rfl
      have hstart : Text.trimStart (margin ++ c :: more) = c :: more := by
        rw [Text.trimStart_append hmargin]
        exact Text.trimStart_of_head? (by simpa using hblank)
      rw [undecorate, hstart]
      by_cases hat : c = '@'
      · subst hat
        exact ⟨[], rfl, by simp, .inl rfl⟩
      · exact ⟨margin, by simp [hat, hstar], hmargin, .inr (by simpa using hat)⟩

-- Below an empty line the first line is one like the others. Of the lines in
-- front of it only their number is left.
theorem exists_split_lowered {indent star body first : List Char} {rest : List (List Char)}
    (hindent : ∀ c ∈ indent, Text.isBlank c) (hstar : '\n' ∉ star)
    (hlines : Text.lines body = first :: rest) :
    ∃ margin, (∀ c ∈ margin, Text.isBlank c) ∧ ∀ n,
      split n ('\n' :: (indent ++ (star ++ body))) =
        reading (numberedFrom (n + indent.count '\n' + 1)
          (undecorate (margin ++ (star ++ first)) :: rest.map undecorate)) := by
  obtain ⟨front, margin, hbreak, hmargin⟩ := Text.exists_last_break indent
  have hblank : ∀ c ∈ front ++ '\n' :: margin, Text.isBlank c := by
    rw [← hbreak]
    intro c hc
    rcases List.mem_cons.1 hc with rfl | hc
    · decide
    · exact hindent c hc
  have hfront : ∀ l ∈ Text.lines front, ∀ c ∈ l, Text.isBlank c :=
    fun l hl c hc => hblank c (List.mem_append_left _ (Text.subset_of_mem_lines hl hc))
  have hcount : indent.count '\n' = front.count '\n' := by
    have hboth := congrArg (List.count '\n') hbreak
    rw [List.count_cons_self, List.count_append, List.count_cons_self,
      List.count_eq_zero_of_not_mem hmargin] at hboth
    omega
  have hsplit : Text.lines ('\n' :: (indent ++ (star ++ body))) =
      Text.lines front ++ (margin ++ (star ++ first)) :: rest := by
    have hfirst : Text.lines (margin ++ (star ++ body)) = (margin ++ (star ++ first)) :: rest :=
      Text.lines_append hmargin (Text.lines_append hstar hlines)
    rw [← List.cons_append, hbreak, List.append_assoc, List.cons_append,
      Text.lines_append_newline, hfirst]
  have hempty : Text.lines ('\n' :: (indent ++ (star ++ body))) =
      [] :: Text.lines (indent ++ (star ++ body)) := Text.lines_append_newline [] _
  have hundecorate : (Text.lines front).map undecorate = Text.lines front := by
    rw [List.map_congr_left fun l hl => undecorate_of_isBlank (hfront l hl), List.map_id']
  refine ⟨margin, fun c hc => hblank c (by simp [hc]), fun n => ?_⟩
  have hall := congrArg (List.map undecorate) (hempty.symm.trans hsplit)
  rw [List.map_cons, List.map_append, hundecorate] at hall
  change [] :: _ = _ at hall
  rw [split_eq_reading hempty, hall, reading_blanks hfront, Text.length_lines, hcount]
  rfl

variable {interior : List Char}

theorem split_newline_cons_of_deep (h : Comment.OpensDeep interior) (m n : Nat) :
    (split m ('\n' :: interior)).1 ≠ (split n (Comment.undecorated interior)).1 := by
  obtain ⟨blanks, gap, rest, rfl, hblanks, hgap, hne, hspace⟩ := h
  have hdecoration : Comment.IsDecoration (blanks ++ '*' :: gap) :=
    ⟨blanks, '*' :: gap, rfl, hblanks, .inr ⟨gap, rfl, hgap⟩⟩
  obtain ⟨line, more, hline⟩ := Text.exists_lines_cons rest
  have hlines : Text.lines ('@' :: rest) = ('@' :: line) :: more :=
    Text.lines_cons (by decide) hline
  have hstar : '\n' ∉ '*' :: gap := Comment.newline_not_mem_star hgap
  obtain ⟨margin, hmargin, hlowered⟩ := exists_split_lowered hblanks hstar hlines
  have hsolid : ∀ c ∈ ('@' :: line).head?, Text.isGap c = false := by simp; decide
  obtain ⟨deep, hundecorate, hdeep, hempty⟩ := exists_undecorate_star hmargin hgap hsolid
  have hfar : deep ≠ [] := fun heq => (hempty.1 heq).elim hne hspace
  rw [Comment.undecorated_append hdecoration (by decide) (by decide), List.append_assoc, hlowered,
    hundecorate, split_eq_reading hlines]
  exact reading_indented_ne hdeep _ rfl hfar _ n

-- Otherwise what the two rules leave of the first line differs by blanks at most, and not
-- where it opens a tag.
theorem exists_depth (h : ¬ Comment.OpensDeep interior) {first : List Char}
    {rest : List (List Char)} (hlines : Text.lines (Comment.undecorated interior) = first :: rest) :
    ∃ deep, (∀ c ∈ deep, Text.isBlank c) ∧ (deep = [] ∨ first.head? ≠ some '@') ∧
      ∀ n, split n ('\n' :: interior) =
        reading (numberedFrom (n + (Comment.decoration interior).count '\n' + 1)
          ((deep ++ first) :: rest.map undecorate)) := by
  have hhead := Text.head?_of_lines_eq hlines
  rcases Comment.decoration_cases interior with
    ⟨indent, gap, body, heq, hindent, hgap, hbody, hdecoration, hundecorated⟩ |
    ⟨indent, body, heq, hindent, hbody, hdecoration, hundecorated⟩
  · have hstar : '\n' ∉ '*' :: gap := Comment.newline_not_mem_star hgap
    rw [hundecorated] at hlines hhead
    obtain ⟨margin, hmargin, hlowered⟩ := exists_split_lowered hindent hstar hlines
    obtain ⟨deep, hundecorate, hdeep, hempty⟩ :=
      exists_undecorate_star hmargin hgap fun c hc => hbody c (hhead c hc)
    have hcount : (Comment.decoration interior).count '\n' = indent.count '\n' := by
      rw [hdecoration, List.count_append, List.count_eq_zero_of_not_mem hstar, Nat.add_zero]
    refine ⟨deep, hdeep, ?_, fun n => ?_⟩
    · rw [hempty]
      by_contra hfar
      rw [not_or, not_or, not_not] at hfar
      obtain ⟨⟨hne, hspace⟩, hat⟩ := hfar
      obtain ⟨tail, rfl⟩ := List.head?_eq_some_iff.1 (hhead '@' hat)
      exact h ⟨indent, gap, tail, heq, hindent, hgap, hne, hspace⟩
    · rw [hcount, heq, List.append_assoc, hlowered, hundecorate]
  · have hnone : '\n' ∉ ([] : List Char) := List.not_mem_nil
    rw [hundecorated] at hlines hhead
    obtain ⟨margin, hmargin, hlowered⟩ := exists_split_lowered hindent hnone hlines
    obtain ⟨deep, hundecorate, hdeep, hshallow⟩ :=
      exists_undecorate_plain hmargin fun c hc => hbody c (hhead c hc)
    rw [List.nil_append, List.nil_append, hundecorate] at hlowered
    refine ⟨deep, hdeep, hshallow, fun n => ?_⟩
    rw [hdecoration, heq, hlowered]

-- One line further down, all else as it was.
theorem split_newline_cons (h : ¬ Comment.OpensDeep interior) (n : Nat) :
    split n ('\n' :: interior) =
      ((split (n + (Comment.decoration interior).count '\n')
          (Comment.undecorated interior)).1,
        (split (n + (Comment.decoration interior).count '\n')
          (Comment.undecorated interior)).2.map TagLine.lowered) := by
  obtain ⟨first, rest, hlines⟩ := Text.exists_lines_cons (Comment.undecorated interior)
  obtain ⟨deep, hdeep, hshallow, hlowered⟩ := exists_depth h hlines
  rw [hlowered, split_eq_reading hlines, ← reading_succ]
  rcases hshallow with rfl | hat
  · rw [List.nil_append]
  · exact reading_indented hdeep _ hat _

end Lowered

-- A text that is one comment and nothing else.
theorem find_opener {interior : List Char} (h : ¬ Comment.closing <:+: interior)
    (path : String) :
    find path (Draft.opener ++ interior ++ Comment.closing) =
      [ofComment path .start
        ⟨Draft.opener ++ Comment.decoration interior, Comment.undecorated interior⟩] := by
  have hstart := Draft.atStart?_opener h []
  rw [List.append_nil] at hstart
  have hbefore : ¬ ['/', '*', '*'] <:+: ([] : List Char) := by decide
  have hnext : Comment.next? (Draft.opener ++ interior ++ Comment.closing) =
      some ⟨[], Draft.opener, interior, []⟩ := Comment.next?_append hbefore hstart
  have hclosed : ¬ Comment.Span.Swallows ⟨[], Draft.opener, interior, []⟩ := by
    rintro ⟨-, hin⟩
    simp [Comment.closing] at hin
  rw [find, Comment.find, Comment.findFrom_of_not_swallows .start hnext hclosed]
  rfl

-- Where a tag stands among the lines of its comment does not matter, with one
-- exception: below the opener a tag may stand at any depth behind its star, on
-- every other line no deeper than one space.
theorem find_below_empty_line_iff (path : String) {interior : List Char}
    (h : ¬ Comment.closing <:+: interior) :
    ∃ block lower,
      find path ("/**\n".toList ++ interior ++ "*/".toList) = [block] ∧
      find path ("/**\n *\n".toList ++ interior ++ "*/".toList) = [lower] ∧
      (lower.summary = block.summary ∧ lower.lines = block.lines.map TagLine.lowered ↔
        ¬ Comment.OpensDeep interior) := by
  have hlower : ¬ Comment.closing <:+: [' ', '*'] ++ '\n' :: interior := by
    rw [Comment.closing_infix_append_cons (by decide) (by decide), not_or]
    exact ⟨by decide, h⟩
  refine ⟨_, _, find_opener h path, find_opener hlower path, ?_⟩
  have hline : ∀ s, (Location.start.advanceAll (Draft.opener ++ s)).line = 2 + s.count '\n' := by
    intro s
    rw [Location.line_advanceAll, List.count_append, ← Nat.add_assoc]
    rfl
  have hdecoration : Comment.decoration ([' ', '*'] ++ '\n' :: interior) = [' ', '*'] := rfl
  have hundecorated :
      Comment.undecorated ([' ', '*'] ++ '\n' :: interior) = '\n' :: interior := rfl
  simp only [ofComment, hline, hdecoration, hundecorated]
  constructor
  · rintro ⟨hsummary, -⟩ hdeep
    exact split_newline_cons_of_deep hdeep _ _ hsummary
  · intro hshallow
    have hfirst : 2 + [' ', '*'].count '\n' = 2 := rfl
    rw [hfirst, split_newline_cons hshallow]
    exact ⟨rfl, rfl⟩

theorem find_below_empty_line_group :
    ¬ Comment.closing <:+: " * @apiGroup A\n ".toList ∧
      ¬ Comment.OpensDeep " * @apiGroup A\n ".toList := by
  have hopen : ¬ Comment.closing <:+: " * @apiGroup A\n ".toList := by decide +kernel
  have hfirst : find "a.js" ("/**\n".toList ++ " * @apiGroup A\n ".toList ++ "*/".toList) =
      [⟨"a.js", .start, "", [⟨"group", "A", 2⟩]⟩] := by decide +kernel
  have hsecond : find "a.js" ("/**\n *\n".toList ++ " * @apiGroup A\n ".toList ++ "*/".toList) =
      [⟨"a.js", .start, "", [⟨"group", "A", 3⟩]⟩] := by decide +kernel
  obtain ⟨block, lower, hblock, hlower, hiff⟩ := find_below_empty_line_iff "a.js" hopen
  obtain rfl := List.singleton_inj.1 (hblock.symm.trans hfirst)
  obtain rfl := List.singleton_inj.1 (hlower.symm.trans hsecond)
  exact ⟨hopen, hiff.1 ⟨rfl, rfl⟩⟩

-- Two spaces behind the star: a tag below the opener, text below an empty line.
theorem find_loses_deep_tag :
    find "a.js" "/**\n *  @apiGroup A\n */".toList =
      [{ path := "a.js", location := .start, summary := "", lines := [⟨"group", "A", 2⟩] }] ∧
    find "a.js" "/**\n *\n *  @apiGroup A\n */".toList =
      [{ path := "a.js", location := .start, summary := "@apiGroup A", lines := [] }] := by
  decide +kernel

end Block

end ApiCatalog
