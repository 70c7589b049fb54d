import ApiCatalog.Proofs.Comment.Scan
import ApiCatalog.Proofs.Location

namespace ApiCatalog

namespace Comment

theorem not_closing_infix_of_not_mem {s : List Char} (h : '/' ∉ s) : ¬ closing <:+: s := by
  intro hin
  exact h (hin.subset (by simp [closing]))

-- A character that is not of the mark keeps its two sides apart.
theorem closing_infix_append_cons {c : Char} (hstar : c ≠ '*') (hslash : c ≠ '/')
    (l r : List Char) : closing <:+: l ++ c :: r ↔ closing <:+: l ∨ closing <:+: r := by
  constructor
  · intro h
    induction l with
    | nil =>
        rcases List.infix_cons_iff.1 h with hhere | hr
        · obtain ⟨more, hmore⟩ := hhere
          simp only [closing, List.cons_append, List.cons.injEq] at hmore
          exact absurd hmore.1.symm hstar
        · exact .inr hr
    | cons a rest ih =>
        rcases List.infix_cons_iff.1 h with hhere | hlater
        · obtain ⟨more, hmore⟩ := hhere
          cases rest with
          | nil =>
              simp [closing, hslash.symm] at hmore
          | cons b tail =>
              simp only [closing, List.cons_append, List.nil_append, List.cons.injEq] at hmore
              obtain ⟨rfl, rfl, -⟩ := hmore
              exact .inl (List.prefix_append closing tail).isInfix
        · rcases ih hlater with hl | hr
          · exact .inl (List.infix_cons hl)
          · exact .inr hr
  · rintro (hl | hr)
    · exact hl.trans (List.prefix_append l (c :: r)).isInfix
    · exact hr.trans ((List.suffix_cons c r).trans (List.suffix_append l (c :: r))).isInfix

theorem closing_infix_unlines (ls : List (List Char)) :
    closing <:+: Text.unlines ls ↔ ∃ l ∈ ls, closing <:+: l := by
  induction ls with
  | nil => simp [Text.unlines, List.intercalate, closing]
  | cons l ls ih =>
      by_cases hne : ls = []
      · subst hne
        simp [Text.unlines]
      · rw [Text.unlines_cons hne, closing_infix_append_cons (by decide) (by decide), ih]
        simp

end Comment

namespace TagLine

theorem isNameChar_of_isAlpha {c : Char} (h : c.isAlpha) : isNameChar c := by
  have hrange := Text.toNat_of_isAlpha h
  simp only [isNameChar, Bool.or_eq_true, Bool.and_eq_true, decide_eq_true_eq, Char.le_def,
    UInt32.le_iff_toNat_le]
  rcases hrange with hupper | hlower
  · exact .inl (.inl (.inr hupper))
  · exact .inl (.inl (.inl hlower))

theorem isNameChar_of_isBlank {c : Char} (h : Text.isBlank c) : isNameChar c = false := by
  have hval : c.toNat = c.val.toNat := rfl
  have ha : 'a'.val.toNat = 97 := rfl
  have hz : 'z'.val.toNat = 122 := rfl
  have hA : 'A'.val.toNat = 65 := rfl
  have hZ : 'Z'.val.toNat = 90 := rfl
  simp only [Text.isBlank, Bool.or_eq_true, Bool.and_eq_true, decide_eq_true_eq,
    beq_iff_eq] at h
  simp only [isNameChar, Bool.or_eq_false_iff, Bool.and_eq_false_iff, decide_eq_false_iff_not,
    Char.le_def, UInt32.le_iff_toNat_le, beq_eq_false_iff_ne]
  omega

end TagLine

-- A tag to be written: the letters behind `@api`, and its payload.
structure Entry where
  suffix : List Char
  payload : List Char
  letters : ∀ c ∈ suffix, c.isAlpha
  trimmed : Text.Trimmed payload
  untagged : ∀ line ∈ (Text.lines payload).tail, line.head? ≠ some '@'
  unclosed : ¬ Comment.closing <:+: payload

namespace Entry

def name (e : Entry) : List Char := '@' :: 'a' :: 'p' :: 'i' :: e.suffix

def text (e : Entry) : List Char :=
  e.name ++ if e.payload = [] then [] else ' ' :: e.payload

def tag (e : Entry) : String :=
  if e.suffix = [] then "api" else String.ofList (e.suffix.map Char.toLower)

-- The tags of some entries, the first on line `first`, each below the lines of the one before.
def tagLines (first : Nat) : List Entry → List TagLine
  | [] => []
  | e :: rest =>
      ⟨e.tag, String.ofList e.payload, first⟩ :: tagLines (first + (Text.lines e.text).length) rest

end Entry

-- A block to be written, and how far each of its lines is indented.
structure Draft where
  summary : List Char
  entries : List Entry
  indent : Nat → List Char
  trimmed : Text.Trimmed summary
  untagged : ∀ line ∈ Text.lines summary, line.head? ≠ some '@'
  unclosed : ¬ Comment.closing <:+: summary
  nonempty : summary ≠ [] ∨ entries ≠ []
  gaps : ∀ i, ∀ c ∈ indent i, Text.isGap c

namespace Draft

def summaryLines (d : Draft) : List (List Char) :=
  if d.summary = [] then [] else Text.lines d.summary

def texts (d : Draft) : List (List Char) :=
  d.summaryLines ++ d.entries.flatMap fun e => Text.lines e.text

def decorate (d : Draft) (first : Nat) (texts : List (List Char)) : List (List Char) :=
  (texts.zipIdx first).map fun (text, i) => d.indent i ++ '*' :: ' ' :: text

def render (d : Draft) : List Char :=
  '/' :: '*' :: '*' :: '\n' ::
    Text.unlines (d.decorate 0 d.texts ++ [d.indent d.texts.length ++ Comment.closing])

-- What is to be read back when the opener stands at `location`.
def block (d : Draft) (path : String) (location : Location) : Block where
  path := path
  location := location
  summary := String.ofList d.summary
  lines := Entry.tagLines (location.line + 1 + d.summaryLines.length) d.entries

end Draft

namespace Entry

theorem not_mem_suffix {e : Entry} {c : Char} (hc : c.isAlpha = false) : c ∉ e.suffix := by
  intro hmem
  simp [e.letters c hmem] at hc

theorem not_mem_name {e : Entry} {c : Char} (hc : c.isAlpha = false) (hat : c ≠ '@') :
    c ∉ e.name := by
  have ha : c ≠ 'a' := by rintro rfl; simp at hc
  have hp : c ≠ 'p' := by rintro rfl; simp at hc
  have hi : c ≠ 'i' := by rintro rfl; simp at hc
  simpa [name, hat, ha, hp, hi] using not_mem_suffix hc

theorem text_unclosed (e : Entry) : ¬ Comment.closing <:+: e.text := by
  have hname : ¬ Comment.closing <:+: e.name :=
    Comment.not_closing_infix_of_not_mem (not_mem_name (by decide) (by decide))
  unfold text
  split
  · simpa using hname
  · rw [Comment.closing_infix_append_cons (by decide) (by decide)]
    exact not_or.2 ⟨hname, e.unclosed⟩

-- The first line of an entry opens a tag, and none of the others does.
theorem lines_text (e : Entry) : ∃ first rest, Text.lines e.text = first :: rest ∧
    first.head? = some '@' ∧ ∀ line ∈ rest, line.head? ≠ some '@' := by
  have hnewline : '\n' ∉ e.name := not_mem_name (by decide) (by decide)
  unfold text
  split
  · exact ⟨e.name ++ [], [], Text.lines_append hnewline rfl, by simp [name], by simp⟩
  · obtain ⟨first, rest, hlines⟩ := Text.exists_lines_cons e.payload
    have hspaced : Text.lines (' ' :: e.payload) = (' ' :: first) :: rest :=
      Text.lines_append (l := [' ']) (by decide) hlines
    refine ⟨_, rest, Text.lines_append hnewline hspaced, by simp [name], ?_⟩
    simpa [hlines] using e.untagged

-- What follows the letters of the name begins with a blank or is nothing.
theorem span_suffix (e : Entry) {more : List Char} (h : ∀ c ∈ more.head?, Text.isBlank c) :
    (e.suffix ++ more).takeWhile TagLine.isNameChar = e.suffix ∧
      (e.suffix ++ more).dropWhile TagLine.isNameChar = more := by
  have hsuffix : ∀ c ∈ e.suffix, TagLine.isNameChar c :=
    fun c hc => TagLine.isNameChar_of_isAlpha (e.letters c hc)
  rw [List.takeWhile_append_of_pos hsuffix, List.dropWhile_append_of_pos hsuffix]
  cases more with
  | nil => simp
  | cons c rest => simp [TagLine.isNameChar_of_isBlank (h c (by simp))]

theorem trim_remainder (e : Entry) {blanks : List Char} (h : ∀ c ∈ blanks, Text.isBlank c) :
    Text.trim ((if e.payload = [] then [] else ' ' :: e.payload) ++ blanks) = e.payload := by
  split
  · rename_i hempty
    simpa [hempty] using Text.trim_append_append e.trimmed [] blanks (by simp) h
  · exact Text.trim_append_append e.trimmed [' '] blanks
      (List.forall_mem_singleton.2 (by decide)) h

theorem head?_remainder (e : Entry) {blanks : List Char} (h : ∀ c ∈ blanks, Text.isBlank c) :
    ∀ c ∈ ((if e.payload = [] then [] else ' ' :: e.payload) ++ blanks).head?,
      Text.isBlank c := by
  intro c hc
  split at hc
  · exact h c (List.mem_of_mem_head? hc)
  · obtain rfl : ' ' = c := by simpa using hc
    decide

-- An entry is read back, whatever blanks stand behind it.
theorem ofText?_eq (e : Entry) (line : Nat) {blanks : List Char}
    (h : ∀ c ∈ blanks, Text.isBlank c) :
    TagLine.ofText? line (e.text ++ blanks) = some ⟨e.tag, String.ofList e.payload, line⟩ := by
  have htag : (if e.suffix.isEmpty then "api" else String.ofList (Text.lower e.suffix)) =
      e.tag := by
    rw [Text.lower, Text.lowerFrom_of_isAlpha e.letters, tag]
    simp
  have htrim := trim_remainder e h
  have hhead := head?_remainder e h
  rw [text, List.append_assoc]
  generalize (if e.payload = [] then [] else ' ' :: e.payload) ++ blanks = more at htrim hhead
  obtain ⟨htake, hdrop⟩ := span_suffix e hhead
  have hmark : TagLine.afterMark? (e.name ++ more) = some (e.suffix ++ more) := rfl
  simp only [TagLine.ofText?, hmark, Option.bind_some, htake, hdrop, htag]
  cases more with
  | nil =>
      rw [← htrim]
      rfl
  | cons c rest =>
      have hc : Text.isBlank c := hhead c (by simp)
      simp only [hc, htrim, if_true]

end Entry

namespace Block

theorem undecorate_of_isBlank {line : List Char} (h : ∀ c ∈ line, Text.isBlank c) :
    undecorate line = line := by
  have hblank : Text.trimStart line = [] :=
    (Text.trimStart_eq_nil_iff line).2 (List.all_eq_true.2 h)
  simp only [undecorate, hblank]

-- Numbered lines as they are gathered.
def numberedFrom (first : Nat) (ls : List (List Char)) : List (Nat × List Char) :=
  (ls.zipIdx first).map Prod.swap

theorem numberedFrom_cons (first : Nat) (l : List Char) (ls : List (List Char)) :
    numberedFrom first (l :: ls) = (first, l) :: numberedFrom (first + 1) ls := rfl

theorem numberedFrom_append (first : Nat) (ls rs : List (List Char)) :
    numberedFrom first (ls ++ rs) =
      numberedFrom first ls ++ numberedFrom (first + ls.length) rs := by
  simp [numberedFrom, List.zipIdx_append]

theorem gather_plain {line : List Char} (h : line.head? ≠ some '@') (n : Nat)
    (rest : List (Nat × List Char)) :
    gather ((n, line) :: rest) = (line :: (gather rest).1, (gather rest).2) := by
  have hline : opensTag line = false := by simpa [opensTag] using h
  rw [gather]
  simp [hline]

theorem gather_tag {line : List Char} (h : line.head? = some '@') (n : Nat)
    (rest : List (Nat × List Char)) :
    gather ((n, line) :: rest) = ([], (n, line :: (gather rest).1) :: (gather rest).2) := by
  have hline : opensTag line = true := by simp [opensTag, h]
  rw [gather]
  simp [hline]

theorem gather_untagged {ls : List (List Char)} (h : ∀ l ∈ ls, l.head? ≠ some '@')
    (first : Nat) (rest : List (Nat × List Char)) :
    gather (numberedFrom first ls ++ rest) = (ls ++ (gather rest).1, (gather rest).2) := by
  induction ls generalizing first with
  | nil => rfl
  | cons l ls ih =>
      have htail := ih (fun l' hl' => h l' (List.mem_cons_of_mem l hl')) (first + 1)
      rw [numberedFrom_cons, List.cons_append, gather_plain (h l (by simp)), htail]
      rfl

theorem gather_entry (e : Entry) (n : Nat) (rest : List (Nat × List Char)) :
    gather (numberedFrom n (Text.lines e.text) ++ rest) =
      ([], (n, Text.lines e.text ++ (gather rest).1) :: (gather rest).2) := by
  obtain ⟨first, more, hlines, hfirst, hmore⟩ := e.lines_text
  rw [hlines, numberedFrom_cons, List.cons_append, gather_tag hfirst, gather_untagged hmore]
  rfl

theorem isBlank_newline_cons {last : List Char} (h : ∀ c ∈ last, Text.isGap c) :
    ∀ c ∈ '\n' :: last, Text.isBlank c := by
  intro c hc
  rcases List.mem_cons.1 hc with rfl | hc
  · decide
  · exact Text.isBlank_of_isGap (h c hc)

-- The last line of a comment, which holds only its indentation, goes to the
-- last entry, or to the lines in front if there is no entry.
theorem gather_entries (entries : List Entry) (n : Nat) {last : List Char}
    (hlast : ∀ c ∈ last, Text.isGap c) :
    (gather (numberedFrom n (entries.flatMap (fun e => Text.lines e.text) ++ [last]))).1 =
        (if entries = [] then [last] else []) ∧
      (gather (numberedFrom n (entries.flatMap (fun e => Text.lines e.text) ++ [last]))).2.filterMap
          (fun (line, ls) => TagLine.ofText? line (Text.unlines ls)) =
        Entry.tagLines n entries := by
  have huntagged : ∀ l ∈ [last], l.head? ≠ some '@' := by
    intro l hl hat
    obtain rfl : l = last := by simpa using hl
    exact absurd (hlast '@' (List.mem_of_mem_head? hat)) (by decide)
  induction entries generalizing n with
  | nil =>
      have hgather := gather_untagged huntagged n []
      rw [List.append_nil] at hgather
      simp [hgather, gather, Entry.tagLines]
  | cons e rest ih =>
      obtain ⟨hpending, hentries⟩ := ih (n + (Text.lines e.text).length)
      rw [List.flatMap_cons, List.append_assoc, numberedFrom_append, gather_entry]
      refine ⟨by simp, ?_⟩
      rw [hpending, List.filterMap_cons, hentries, Entry.tagLines]
      have hread : TagLine.ofText? n (Text.unlines (Text.lines e.text ++
          if rest = [] then [last] else [])) = some ⟨e.tag, String.ofList e.payload, n⟩ := by
        split
        · rw [Text.unlines_lines_append]
          exact e.ofText?_eq n (isBlank_newline_cons hlast)
        · rw [List.append_nil, Text.unlines_lines]
          simpa using e.ofText?_eq n (List.forall_mem_nil _)
      simp only [hread]

end Block

namespace Draft

def interior (d : Draft) : List Char :=
  Text.unlines (d.decorate 0 d.texts ++ [d.indent d.texts.length])

def opener : List Char := ['/', '*', '*', '\n']

theorem render_eq (d : Draft) : d.render = opener ++ d.interior ++ Comment.closing := by
  rw [render, Text.unlines_append_singleton]
  simp [opener, interior]

theorem head_texts (d : Draft) :
    ∃ c line rest, d.texts = (c :: line) :: rest ∧ Text.isBlank c = false := by
  by_cases hsummary : d.summary = []
  · have hentries : d.entries ≠ [] := d.nonempty.resolve_left fun hne => hne hsummary
    obtain ⟨e, rest, hcons⟩ := List.exists_cons_of_ne_nil hentries
    obtain ⟨first, more, hlines, hfirst, -⟩ := e.lines_text
    obtain ⟨line, rfl⟩ := List.head?_eq_some_iff.1 hfirst
    refine ⟨'@', line, more ++ rest.flatMap (fun e => Text.lines e.text), ?_, by decide⟩
    simp [texts, summaryLines, hsummary, hcons, hlines]
  · obtain ⟨c, s, hcons⟩ := List.exists_cons_of_ne_nil hsummary
    have hc : Text.isBlank c = false := d.trimmed.1 c (by simp [hcons])
    have hnewline : '\n' ∉ [c] := by
      intro hmem
      obtain rfl : '\n' = c := by simpa using hmem
      exact absurd hc (by decide)
    obtain ⟨line, rest, hlines⟩ := Text.exists_lines_cons s
    have hfirst : Text.lines (c :: s) = (c :: line) :: rest := Text.lines_append hnewline hlines
    refine ⟨c, line, rest ++ d.entries.flatMap (fun e => Text.lines e.text), ?_, hc⟩
    simp [texts, summaryLines, hcons, hfirst]

theorem text_mem_texts {d : Draft} {text : List Char} (h : text ∈ d.texts) :
    '\n' ∉ text ∧ ¬ Comment.closing <:+: text := by
  have hline : ∀ {s : List Char}, ¬ Comment.closing <:+: s → text ∈ Text.lines s →
      '\n' ∉ text ∧ ¬ Comment.closing <:+: text := by
    intro s hs hmem
    refine ⟨Text.newline_not_mem_of_mem_lines hmem, fun hin => hs ?_⟩
    rw [← Text.unlines_lines s]
    exact (Comment.closing_infix_unlines (Text.lines s)).2 ⟨text, hmem, hin⟩
  rcases List.mem_append.1 h with hsummary | hentries
  · unfold summaryLines at hsummary
    split at hsummary
    · exact absurd hsummary (by simp)
    · exact hline d.unclosed hsummary
  · obtain ⟨e, -, hmem⟩ := List.mem_flatMap.1 hentries
    exact hline e.text_unclosed hmem

theorem not_mem_indent (d : Draft) (i : Nat) {c : Char} (hc : Text.isGap c = false) :
    c ∉ d.indent i := by
  intro hmem
  simp [d.gaps i c hmem] at hc

theorem exists_of_mem_decorate {d : Draft} {first : Nat} {texts : List (List Char)}
    {line : List Char} (h : line ∈ d.decorate first texts) :
    ∃ i, ∃ text ∈ texts, line = d.indent i ++ '*' :: ' ' :: text := by
  obtain ⟨⟨text, i⟩, hmem, rfl⟩ := List.mem_map.1 h
  exact ⟨i, text, List.fst_mem_of_mem_zipIdx hmem, rfl⟩

theorem interior_unclosed (d : Draft) : ¬ Comment.closing <:+: d.interior := by
  rw [interior, Comment.closing_infix_unlines]
  rintro ⟨line, hline, hin⟩
  rcases List.mem_append.1 hline with hdecorated | hlast
  · obtain ⟨i, text, hmem, rfl⟩ := exists_of_mem_decorate hdecorated
    have hslash : '/' ∉ d.indent i ++ ['*'] := by
      simpa using d.not_mem_indent i (by decide)
    rw [List.append_cons, Comment.closing_infix_append_cons (by decide) (by decide)] at hin
    exact hin.elim (Comment.not_closing_infix_of_not_mem hslash) (text_mem_texts hmem).2
  · obtain rfl : line = d.indent d.texts.length := by simpa using hlast
    exact Comment.not_closing_infix_of_not_mem (d.not_mem_indent _ (by decide)) hin

theorem trimStart_indent_append (d : Draft) (i : Nat) (s : List Char) :
    Text.trimStart (d.indent i ++ s) = Text.trimStart s :=
  Text.trimStart_append fun c hc => Text.isBlank_of_isGap (d.gaps i c hc)

theorem map_undecorate (d : Draft) (first : Nat) (texts : List (List Char)) :
    (d.decorate first texts).map Block.undecorate = texts := by
  have hline : ∀ i text, Block.undecorate (d.indent i ++ '*' :: ' ' :: text) = text := by
    intro i text
    have hstart : Text.trimStart ('*' :: ' ' :: text) = '*' :: ' ' :: text := rfl
    simp only [Block.undecorate, trimStart_indent_append, hstart]
  rw [decorate, List.map_map]
  simp [Function.comp_def, hline]

theorem undecorate_indent (d : Draft) (i : Nat) : Block.undecorate (d.indent i) = d.indent i :=
  Block.undecorate_of_isBlank fun c hc => Text.isBlank_of_isGap (d.gaps i c hc)

section Body

variable {d : Draft} {first : List Char} {rest : List (List Char)} (h : d.texts = first :: rest)
include h

theorem interior_eq : d.interior = d.indent 0 ++ '*' :: ' ' ::
    Text.unlines (first :: d.decorate 1 rest ++ [d.indent d.texts.length]) := by
  have hdecorate : d.decorate 0 (first :: rest) =
      (d.indent 0 ++ ['*', ' '] ++ first) :: d.decorate 1 rest := by
    simp [decorate, List.zipIdx_cons]
  rw [interior, h, hdecorate, List.cons_append, Text.unlines_append_cons]
  simp

-- The decoration of the first line goes as a whole, since no text begins with a blank.
theorem comment_interior : Comment.decoration d.interior = d.indent 0 ++ ['*', ' '] ∧
    Comment.undecorated d.interior =
      Text.unlines (first :: d.decorate 1 rest ++ [d.indent d.texts.length]) := by
  obtain ⟨c, line, rest', htexts, hc⟩ := d.head_texts
  obtain ⟨rfl, rfl⟩ : first = c :: line ∧ rest = rest' := by simpa [h] using htexts
  obtain ⟨tail, htail⟩ := Text.exists_unlines_cons c line
    (d.decorate 1 rest ++ [d.indent d.texts.length])
  have hindent : ∀ c ∈ d.indent 0, Text.isBlank c :=
    fun c hc => Text.isBlank_of_isGap (d.gaps 0 c hc)
  have hgap : Text.isGap c = false := by
    by_contra hgap
    simp [Text.isBlank_of_isGap (by simpa using hgap)] at hc
  have hdrop : d.interior.dropWhile Text.isBlank = '*' :: ' ' :: c :: tail := by
    rw [interior_eq h, List.cons_append, htail, List.dropWhile_append_of_pos hindent]
    rfl
  have htake : d.interior.takeWhile Text.isBlank = d.indent 0 := by
    rw [interior_eq h, List.takeWhile_append_of_pos hindent]
    exact List.append_nil _
  have hspace : Text.isGap ' ' = true := by decide
  rw [Comment.decoration, Comment.undecorated, hdrop, htake, List.cons_append, htail]
  simp [hspace, hgap]

theorem numbered_body (n : Nat) :
    Block.numbered n (Text.unlines (first :: d.decorate 1 rest ++ [d.indent d.texts.length])) =
      Block.numberedFrom n (d.texts ++ [d.indent d.texts.length]) := by
  have htext : ∀ text ∈ first :: rest, '\n' ∉ text := fun text ht => (text_mem_texts (h ▸ ht)).1
  have hindent : ∀ i, '\n' ∉ d.indent i := fun i => d.not_mem_indent i (by decide)
  have hnewline : ∀ l ∈ first :: d.decorate 1 rest ++ [d.indent d.texts.length], '\n' ∉ l := by
    intro l hl
    rcases List.mem_append.1 hl with hl | hl
    · rcases List.mem_cons.1 hl with rfl | hl
      · exact htext l (by simp)
      · obtain ⟨i, text, hmem, rfl⟩ := exists_of_mem_decorate hl
        simpa [hindent i] using htext text (List.mem_cons_of_mem first hmem)
    · obtain rfl : l = d.indent d.texts.length := by simpa using hl
      exact hindent _
  rw [Block.numbered, Text.lines_unlines (by simp) hnewline, List.cons_append]
  simp [h, Block.numberedFrom, map_undecorate, undecorate_indent]

end Body

theorem trim_summary (d : Draft) :
    Text.trim (Text.unlines (d.summaryLines ++
      if d.entries = [] then [d.indent d.texts.length] else [])) = d.summary := by
  have hplain := Text.trim_append_append d.trimmed [] [] (by simp) (by simp)
  unfold summaryLines
  by_cases hsummary : d.summary = []
  · have hentries : d.entries ≠ [] := d.nonempty.resolve_left fun hne => hne hsummary
    rw [if_pos hsummary, if_neg hentries, hsummary]
    rfl
  · rw [if_neg hsummary]
    split
    · rw [Text.unlines_lines_append]
      exact Text.trim_append_append d.trimmed [] _ (by simp)
        (Block.isBlank_newline_cons (d.gaps d.texts.length))
    · rw [List.append_nil, Text.unlines_lines]
      simpa using hplain

theorem summaryLines_untagged (d : Draft) : ∀ l ∈ d.summaryLines, l.head? ≠ some '@' := by
  unfold summaryLines
  split
  · simp
  · exact d.untagged

theorem gather_texts (d : Draft) (n : Nat) (last : List Char) :
    Block.gather (Block.numberedFrom n (d.texts ++ [last])) =
      let below := Block.gather (Block.numberedFrom (n + d.summaryLines.length)
        (d.entries.flatMap (fun e => Text.lines e.text) ++ [last]))
      (d.summaryLines ++ below.1, below.2) := by
  rw [texts, List.append_assoc, Block.numberedFrom_append,
    Block.gather_untagged d.summaryLines_untagged]

theorem split_body {d : Draft} {first : List Char} {rest : List (List Char)}
    (h : d.texts = first :: rest) (n : Nat) :
    Block.split n (Text.unlines (first :: d.decorate 1 rest ++ [d.indent d.texts.length])) =
      (String.ofList d.summary, Entry.tagLines (n + d.summaryLines.length) d.entries) := by
  obtain ⟨hpending, htags⟩ := Block.gather_entries d.entries (n + d.summaryLines.length)
    (d.gaps d.texts.length)
  simp only [Block.split, numbered_body h, gather_texts, hpending, htags, d.trim_summary]

-- The comment of a draft reads as the block that was to be written.
theorem ofComment_interior (d : Draft) (path : String) (here : Location) :
    Block.ofComment path here
      ⟨opener ++ Comment.decoration d.interior, Comment.undecorated d.interior⟩ =
      d.block path here := by
  obtain ⟨c, line, rest, htexts, -⟩ := d.head_texts
  obtain ⟨hdecoration, hundecorated⟩ := comment_interior htexts
  have hindent : (d.indent 0).count '\n' = 0 :=
    List.count_eq_zero.2 (d.not_mem_indent 0 (by decide))
  have hline : (here.advanceAll (opener ++ (d.indent 0 ++ ['*', ' ']))).line = here.line + 1 := by
    rw [Location.line_advanceAll]
    simp [opener, hindent]
  rw [Block.ofComment, hdecoration, hundecorated, hline, split_body htexts]
  rfl

end Draft

end ApiCatalog
