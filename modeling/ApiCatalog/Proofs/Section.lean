import ApiCatalog.Proofs.Text
import ApiCatalog.Section

namespace ApiCatalog

namespace Section

-- What stands in brackets, with its brackets; nothing at all if it is empty.
def enclosed (opening closing : Char) (inner : List Char) : List Char :=
  if inner = [] then [] else opening :: inner ++ [closing]

theorem enclosed_append {inner : List Char} (hne : inner ≠ []) (opening closing : Char)
    (after : List Char) :
    enclosed opening closing inner ++ after = opening :: inner ++ closing :: after := by
  simp [enclosed, hne]

-- A part in brackets stands next after any blanks. Where a name must follow,
-- more than blanks is left for it.
def Offers (mode : Mode) (opening closing : Char) (text : List Char) : Prop :=
  ∃ gap inner after, Text.allBlank gap ∧ inner ≠ [] ∧ closing ∉ inner ∧
    text = gap ++ opening :: inner ++ closing :: after ∧
    (mode = .withName → ¬ Text.allBlank after)

-- Blanks, a part in brackets or none, and what follows: it is taken where it is offered.
structure Part (mode : Mode) (opening closing : Char) (gap inner after : List Char) : Prop where
  blank : Text.allBlank gap
  unclosed : closing ∉ inner
  taken_iff : inner ≠ [] ↔
    Offers mode opening closing (gap ++ enclosed opening closing inner ++ after)

theorem part_of_offered {mode : Mode} {opening closing : Char} {gap inner after : List Char}
    (hgap : Text.allBlank gap) (hne : inner ≠ []) (hclosing : closing ∉ inner)
    (hleft : mode = .withName → ¬ Text.allBlank after) :
    Part mode opening closing gap inner after := by
  refine ⟨hgap, hclosing, fun _ => ⟨gap, inner, after, hgap, hne, hclosing, ?_, hleft⟩,
    fun _ => hne⟩
  rw [List.append_assoc, List.append_assoc, enclosed_append hne]

-- Where a name is wanted, something is always left for it.
theorem exists_part {mode : Mode} (opening closing : Char) {text : List Char}
    (h : mode = .withName → ¬ Text.allBlank text) :
    ∃ gap inner after, text = gap ++ enclosed opening closing inner ++ after ∧
      Part mode opening closing gap inner after ∧
      (mode = .withName → ¬ Text.allBlank after) := by
  by_cases hoffers : Offers mode opening closing text
  · obtain ⟨gap, inner, after, hgap, hne, hclosing, rfl, hleft⟩ := hoffers
    refine ⟨gap, inner, after, ?_, part_of_offered hgap hne hclosing hleft, hleft⟩
    rw [List.append_assoc, List.append_assoc, enclosed_append hne]
  · exact ⟨[], [], text, rfl,
      ⟨rfl, by simp, fun hne => absurd rfl hne, fun htaken => absurd htaken hoffers⟩, h⟩

theorem bracketed?_eq_some_iff {opening closing : Char} {s inner after : List Char} :
    bracketed? opening closing s = some (inner, after) ↔
      inner ≠ [] ∧ closing ∉ inner ∧ s = opening :: inner ++ closing :: after := by
  constructor
  · intro h
    cases s with
    | nil => cases h
    | cons c rest =>
        rw [bracketed?] at h
        split at h
        · rename_i hopening
          split at h
          · rename_i d more e tail hinner hafter
            obtain ⟨rfl, rfl⟩ : d :: more = inner ∧ tail = after := by simpa using h
            have hclosing : closing ∉ d :: more := hinner ▸ Text.not_mem_takeWhile_ne closing rest
            have he : e = closing := by
              have hstop := List.head?_dropWhile_not (· != closing) rest
              rw [hafter] at hstop
              simpa using hstop
            refine ⟨by simp, hclosing, ?_⟩
            rw [he] at hafter
            rw [hopening, List.cons_append, ← hinner, ← hafter, List.takeWhile_append_dropWhile]
          · cases h
        · cases h
  · rintro ⟨hne, hclosing, rfl⟩
    rw [List.cons_append, bracketed?, if_pos rfl, Text.takeWhile_ne_append_cons hclosing,
      Text.dropWhile_ne_append_cons hclosing]
    cases inner with
    | nil => exact absurd rfl hne
    | cons c more => rfl

section Brackets

variable {mode : Mode} {opening closing : Char}

theorem takePart_of_bracketed {text inner after : List Char}
    (hfound : bracketed? opening closing (Text.trimStart text) = some (inner, after))
    (hleft : mode = .withName → ¬ Text.allBlank after) :
    takePart mode opening closing text = (inner, after) := by
  unfold takePart
  rw [hfound]
  exact if_neg fun h => hleft h.1 h.2

variable (hopening : Text.isBlank opening = false)

include hopening

theorem trimStart_opening {gap : List Char} (hgap : Text.allBlank gap) (s : List Char) :
    Text.trimStart (gap ++ opening :: s) = opening :: s := by
  rw [Text.trimStart_append (Text.forall_isBlank hgap)]
  exact Text.trimStart_of_head? (by simpa using hopening)

theorem offers_iff {text : List Char} :
    Offers mode opening closing text ↔ ∃ inner after,
      bracketed? opening closing (Text.trimStart text) = some (inner, after) ∧
      (mode = .withName → ¬ Text.allBlank after) := by
  constructor
  · rintro ⟨gap, inner, after, hgap, hne, hclosing, rfl, hleft⟩
    refine ⟨inner, after, bracketed?_eq_some_iff.2 ⟨hne, hclosing, ?_⟩, hleft⟩
    rw [List.append_assoc, List.cons_append, trimStart_opening hopening hgap]
  · rintro ⟨inner, after, hfound, hleft⟩
    obtain ⟨hne, hclosing, htrim⟩ := bracketed?_eq_some_iff.1 hfound
    refine ⟨text.takeWhile Text.isBlank, inner, after, Text.allBlank_takeWhile text, hne,
      hclosing, ?_, hleft⟩
    rw [List.append_assoc, ← htrim, Text.blanks_append_trimStart]

theorem part_of_head? {after : List Char}
    (h : ∀ c ∈ after.head?, Text.isBlank c = false ∧ c ≠ opening) :
    Part mode opening closing [] [] after := by
  refine ⟨rfl, by simp, fun hne => absurd rfl hne, fun hoffers => ?_⟩
  obtain ⟨inner, rest, hfound, -⟩ := (offers_iff hopening).1 hoffers
  obtain ⟨-, -, htrim⟩ := bracketed?_eq_some_iff.1 hfound
  change Text.trimStart after = _ at htrim
  rw [Text.trimStart_of_head? fun c hc => (h c hc).1] at htrim
  exact absurd rfl (h opening (by rw [htrim]; rfl)).2

theorem takePart_of_not_offers {text : List Char} (h : ¬ Offers mode opening closing text) :
    takePart mode opening closing text = ([], text) := by
  unfold takePart
  split
  · rename_i inner after hfound
    split
    · rfl
    · rename_i hleft
      exact absurd ((offers_iff hopening).2 ⟨inner, after, hfound, by simpa using hleft⟩) h
  · rfl

-- Blanks in front are no part of what is read, so the text is known only up to them.
theorem Part.takePart_eq {text gap inner after : List Char}
    (h : Part mode opening closing gap inner after)
    (htext : Text.trimStart text =
      Text.trimStart (gap ++ enclosed opening closing inner ++ after)) :
    (takePart mode opening closing text).1 = inner ∧
      Text.trimStart (takePart mode opening closing text).2 = Text.trimStart after := by
  by_cases hne : inner = []
  · subst hne
    have hoffers : ¬ Offers mode opening closing text := by
      rw [offers_iff hopening, htext, ← offers_iff hopening]
      exact fun hoffers => h.taken_iff.2 hoffers rfl
    rw [takePart_of_not_offers hopening hoffers, htext]
    refine ⟨rfl, ?_⟩
    rw [List.append_assoc, Text.trimStart_append (Text.forall_isBlank h.blank)]
    rfl
  · obtain ⟨inner', after', hfound, hleft⟩ := (offers_iff hopening).1 (h.taken_iff.1 hne)
    have hsame : bracketed? opening closing (Text.trimStart text) = some (inner, after) := by
      refine bracketed?_eq_some_iff.2 ⟨hne, h.unclosed, ?_⟩
      rw [htext, List.append_assoc, enclosed_append hne, List.cons_append,
        trimStart_opening hopening h.blank]
    rw [← htext, hsame] at hfound
    cases hfound
    rw [takePart_of_bracketed hsame hleft]
    exact ⟨rfl, rfl⟩

end Brackets

-- A run of characters that no blank interrupts and none extends, where a name is
-- wanted; nothing where it is not.
structure Word (mode : Mode) (gap name after : List Char) : Prop where
  blank : Text.allBlank gap
  solid : ∀ c ∈ name, Text.isBlank c = false
  maximal : mode = .withName → name ≠ [] ∧ ∀ c ∈ after.head?, Text.isBlank c
  absent : mode ≠ .withName → name = []

theorem exists_word {mode : Mode} {line : List Char}
    (h : mode = .withName → ¬ Text.allBlank line) :
    ∃ gap name after, line = gap ++ name ++ after ∧ Word mode gap name after := by
  by_cases hmode : mode = .withName
  · have hline := Text.blanks_append_trimStart line
    have hne : Text.trimStart line ≠ [] := mt (Text.trimStart_eq_nil_iff line).1 (h hmode)
    obtain ⟨c, rest, htrim⟩ := List.exists_cons_of_ne_nil hne
    have hc : Text.isBlank c = false := Text.isBlank_head?_trimStart (by rw [htrim]; rfl)
    refine ⟨line.takeWhile Text.isBlank, (Text.trimStart line).takeWhile (!Text.isBlank ·),
      (Text.trimStart line).dropWhile (!Text.isBlank ·), ?_, Text.allBlank_takeWhile line, ?_,
      fun _ => ⟨?_, ?_⟩, fun hother => absurd hmode hother⟩
    · rw [List.append_assoc, List.takeWhile_append_dropWhile, hline]
    · exact fun d hd => by simpa using List.mem_takeWhile_imp hd
    · simp [htrim, hc]
    · intro d hd
      have hstop := List.head?_dropWhile_not (!Text.isBlank ·) (Text.trimStart line)
      rw [Option.mem_def.1 hd] at hstop
      simpa using hstop
  · exact ⟨[], [], line, rfl, rfl, by simp, fun hname => absurd hname hmode, fun _ => rfl⟩

theorem Word.trimStart_eq {gap name after : List Char} (h : Word .withName gap name after) :
    Text.trimStart (gap ++ name ++ after) = name ++ after := by
  rw [List.append_assoc, Text.trimStart_append (Text.forall_isBlank h.blank)]
  refine Text.trimStart_of_head? fun c hc => ?_
  rw [List.head?_append_of_ne_nil _ (h.maximal rfl).1] at hc
  exact h.solid c (List.mem_of_mem_head? hc)

theorem Word.takeWhile_eq {gap name after : List Char} (h : Word .withName gap name after) :
    (name ++ after).takeWhile (!Text.isBlank ·) = name ∧
      (name ++ after).dropWhile (!Text.isBlank ·) = after := by
  have hname : ∀ c ∈ name, (!Text.isBlank c) = true := fun c hc => by simp [h.solid c hc]
  rw [List.takeWhile_append_of_pos hname, List.dropWhile_append_of_pos hname]
  cases after with
  | nil => simp
  | cons c rest =>
      have hc : Text.isBlank c := (h.maximal rfl).2 c rfl
      simp [hc]

-- The text that ends a line, behind at most one dash and the blanks around it.
structure Ending (gap : List Char) (dash : Bool) (gap' text : List Char) : Prop where
  blank : Text.allBlank gap
  blank' : Text.allBlank gap'
  head_solid : ∀ c ∈ text.head?, Text.isBlank c = false
  head_ne_dash : dash = false → text.head? ≠ some '-'

def dashText (dash : Bool) : List Char := if dash then ['-'] else []

theorem exists_ending (line : List Char) :
    ∃ gap dash gap' text, line = gap ++ dashText dash ++ gap' ++ text ∧
      Ending gap dash gap' text := by
  have hline := Text.blanks_append_trimStart line
  by_cases hdash : (Text.trimStart line).head? = some '-'
  · obtain ⟨rest, htrim⟩ := List.head?_eq_some_iff.1 hdash
    refine ⟨line.takeWhile Text.isBlank, true, rest.takeWhile Text.isBlank, Text.trimStart rest,
      ?_, Text.allBlank_takeWhile line, Text.allBlank_takeWhile rest,
      fun c hc => Text.isBlank_head?_trimStart hc, by simp⟩
    rw [htrim] at hline
    simpa [dashText, Text.blanks_append_trimStart] using hline.symm
  · refine ⟨line.takeWhile Text.isBlank, false, [], Text.trimStart line, ?_,
      Text.allBlank_takeWhile line, rfl, fun c hc => Text.isBlank_head?_trimStart hc,
      fun _ => hdash⟩
    simpa [dashText] using hline.symm

theorem Ending.dropDash_eq {line gap gap' text : List Char} {dash : Bool}
    (h : Ending gap dash gap' text)
    (hline : Text.trimStart line = Text.trimStart (gap ++ dashText dash ++ gap' ++ text)) :
    dropDash line = text := by
  have htext : Text.trimStart (gap' ++ text) = text := by
    rw [Text.trimStart_append (Text.forall_isBlank h.blank'),
      Text.trimStart_of_head? h.head_solid]
  rw [List.append_assoc, List.append_assoc,
    Text.trimStart_append (Text.forall_isBlank h.blank)] at hline
  unfold dropDash
  cases dash with
  | true =>
      have hdash : Text.trimStart line = '-' :: (gap' ++ text) := by
        rw [hline]
        exact Text.trimStart_of_head? (by simp [dashText]; decide)
      rw [hdash]
      exact htext
  | false =>
      rw [hline, dashText, if_neg (by simp), List.nil_append, htext]
      split
      · rename_i rest
        exact absurd rfl (h.head_ne_dash rfl)
      · rfl

-- The pieces of a first line in their order, and the blanks in front of each.
structure Layout where
  beforeTag : List Char
  tag : List Char
  beforeParen : List Char
  paren : List Char
  beforeCurly : List Char
  curly : List Char
  beforeName : List Char
  name : List Char
  beforeDash : List Char
  dash : Bool
  beforeText : List Char
  text : List Char

namespace Layout

-- The line from a piece on.
def fromDash (l : Layout) : List Char := l.beforeDash ++ dashText l.dash ++ l.beforeText ++ l.text

def fromName (l : Layout) : List Char := l.beforeName ++ l.name ++ l.fromDash

def fromCurly (l : Layout) : List Char := l.beforeCurly ++ enclosed '{' '}' l.curly ++ l.fromName

def fromParen (l : Layout) : List Char := l.beforeParen ++ enclosed '(' ')' l.paren ++ l.fromCurly

def line (l : Layout) : List Char := l.beforeTag ++ enclosed '<' '>' l.tag ++ l.fromParen

-- Whether a piece is there is settled by the line from it on, so the first that can be is.
structure Proper (l : Layout) (mode : Mode) : Prop where
  tag : Part mode '<' '>' l.beforeTag l.tag l.fromParen
  paren : Part mode '(' ')' l.beforeParen l.paren l.fromCurly
  curly : Part mode '{' '}' l.beforeCurly l.curly l.fromName
  name : Word mode l.beforeName l.name l.fromDash
  text : Ending l.beforeDash l.dash l.beforeText l.text

-- What the pieces say, with the lines that follow the first one.
def toSection (l : Layout) (mode : Mode) (rest : List Char) : Section :=
  let description := if mode = .nameOnly then [] else l.text
  { tag := String.ofList l.tag
    paren := String.ofList l.paren
    curly := String.ofList l.curly
    name := String.ofList (if mode = .nameOnly then l.text else l.name)
    description := String.ofList
      (description ++ (if description ≠ [] ∧ rest ≠ [] then ['\n'] else []) ++ rest) }

theorem Proper.not_allBlank {l : Layout} (h : l.Proper .withName) : ¬ Text.allBlank l.line := by
  obtain ⟨c, hc⟩ := List.exists_mem_of_ne_nil _ (h.name.maximal rfl).1
  have hmem : c ∈ l.line := by simp [line, fromParen, fromCurly, fromName, hc]
  exact Text.not_allBlank_of_mem hmem (h.name.solid c hc)

end Layout

theorem exists_layout {mode : Mode} {first : List Char}
    (h : ¬ (mode = .withName ∧ Text.allBlank first)) :
    ∃ l : Layout, l.Proper mode ∧ l.line = first := by
  obtain ⟨beforeTag, tag, fromParen, rfl, partTag, hparen⟩ := exists_part '<' '>' (not_and.1 h)
  obtain ⟨beforeParen, paren, fromCurly, rfl, partParen, hcurly⟩ := exists_part '(' ')' hparen
  obtain ⟨beforeCurly, curly, fromName, rfl, partCurly, hname⟩ := exists_part '{' '}' hcurly
  obtain ⟨beforeName, name, fromDash, rfl, word⟩ := exists_word hname
  obtain ⟨beforeDash, dash, beforeText, text, rfl, ending⟩ := exists_ending fromDash
  exact ⟨⟨beforeTag, tag, beforeParen, paren, beforeCurly, curly, beforeName, name, beforeDash,
    dash, beforeText, text⟩, ⟨partTag, partParen, partCurly, word, ending⟩, rfl⟩

theorem continued_eq (description rest : List Char) :
    continued description rest =
      description ++ (if description ≠ [] ∧ rest ≠ [] then ['\n'] else []) ++ rest := by
  unfold continued
  cases description <;> cases rest <;> simp

-- Name and description, read from what follows the brackets.
def wording (mode : Mode) (line : List Char) : List Char × List Char :=
  match mode with
  | .withName =>
      ((Text.trimStart line).takeWhile (!Text.isBlank ·),
        dropDash ((Text.trimStart line).dropWhile (!Text.isBlank ·)))
  | .nameOnly => (dropDash line, [])
  | .descriptionOnly => ([], dropDash line)

theorem parse_of_allBlank {detail : String} (h : Text.allBlank (splitFirst detail.toList).1) :
    parse detail .withName = {} :=
  if_pos ⟨rfl, h⟩

theorem parse_of_not_allBlank {detail : String} {mode : Mode}
    (h : ¬ (mode = .withName ∧ Text.allBlank (splitFirst detail.toList).1)) :
    let first := splitFirst detail.toList
    let tag := takePart mode '<' '>' first.1
    let paren := takePart mode '(' ')' tag.2
    let curly := takePart mode '{' '}' paren.2
    let words := wording mode curly.2
    parse detail mode =
      { tag := String.ofList tag.1
        paren := String.ofList paren.1
        curly := String.ofList curly.1
        name := String.ofList words.1
        description := String.ofList (continued words.2 first.2) } := by
  simp only [parse, if_neg h]
  cases mode <;> rfl

theorem Layout.Proper.wording_eq {l : Layout} {mode : Mode} {line : List Char}
    (h : l.Proper mode) (hline : Text.trimStart line = Text.trimStart l.fromName) :
    wording mode line =
      (if mode = .nameOnly then l.text else l.name, if mode = .nameOnly then [] else l.text) := by
  by_cases hmode : mode = .withName
  · subst hmode
    obtain ⟨hname, hfromDash⟩ := h.name.takeWhile_eq
    have htext : dropDash l.fromDash = l.text := h.text.dropDash_eq rfl
    simp only [wording, hline.trans h.name.trimStart_eq, hname, hfromDash, htext]
    rfl
  · have hname := h.name.absent hmode
    have htext : dropDash line = l.text := by
      refine h.text.dropDash_eq ?_
      rw [hline, fromName, hname, List.append_nil,
        Text.trimStart_append (Text.forall_isBlank h.name.blank)]
      rfl
    cases mode with
    | withName => exact absurd rfl hmode
    | nameOnly => simp only [wording, htext, if_pos]
    | descriptionOnly =>
        simp only [wording, htext, hname]
        rfl

-- A line has one reading: any proper layout of it is the one that is found.
theorem Layout.Proper.parse_eq {l : Layout} {mode : Mode} {detail : String} (h : l.Proper mode)
    (hline : (splitFirst detail.toList).1 = l.line) :
    parse detail mode = l.toSection mode (splitFirst detail.toList).2 := by
  obtain ⟨htag, hfromParen⟩ := h.tag.takePart_eq (by decide) (congrArg Text.trimStart hline)
  obtain ⟨hparen, hfromCurly⟩ := h.paren.takePart_eq (by decide) hfromParen
  obtain ⟨hcurly, hfromName⟩ := h.curly.takePart_eq (by decide) hfromCurly
  have hnamed : ¬ (mode = .withName ∧ Text.allBlank (splitFirst detail.toList).1) := by
    rintro ⟨rfl, hblank⟩
    exact h.not_allBlank (hline ▸ hblank)
  rw [parse_of_not_allBlank hnamed]
  simp only [htag, hparen, hcurly, h.wording_eq hfromName, toSection, continued_eq]

section Pieces

variable (detail : String)

theorem subset_enclosed (opening closing : Char) (inner : List Char) :
    inner ⊆ enclosed opening closing inner := by
  intro c hc
  have hne : inner ≠ [] := List.ne_nil_of_mem hc
  simp [enclosed, hne, hc]

theorem exists_toSection {mode : Mode} (h : parse detail mode ≠ {}) :
    ∃ l : Layout, l.Proper mode ∧ l.line = (splitFirst detail.toList).1 ∧
      parse detail mode = l.toSection mode (splitFirst detail.toList).2 := by
  have hnamed : ¬ (mode = .withName ∧ Text.allBlank (splitFirst detail.toList).1) := by
    rintro ⟨rfl, hblank⟩
    exact h (parse_of_allBlank hblank)
  obtain ⟨l, hl, hline⟩ := exists_layout hnamed
  exact ⟨l, hl, hline, hl.parse_eq hline.symm⟩

-- All pieces but the description stand on the first line.
theorem newline_not_mem_parse (mode : Mode) :
    '\n' ∉ (parse detail mode).paren.toList ∧ '\n' ∉ (parse detail mode).curly.toList ∧
      '\n' ∉ (parse detail mode).name.toList := by
  by_cases hempty : parse detail mode = {}
  · rw [hempty]
    decide
  obtain ⟨l, -, hline, hparse⟩ := exists_toSection detail hempty
  have hbreak : '\n' ∉ l.line := hline ▸ Text.not_mem_takeWhile_ne '\n' detail.toList
  have hparen : l.paren ⊆ l.line := by
    intro c hc
    simp [Layout.line, Layout.fromParen, subset_enclosed '(' ')' l.paren hc]
  have hcurly : l.curly ⊆ l.line := by
    intro c hc
    simp [Layout.line, Layout.fromParen, Layout.fromCurly, subset_enclosed '{' '}' l.curly hc]
  have hname : (if mode = .nameOnly then l.text else l.name) ⊆ l.line := by
    intro c hc
    split at hc <;>
      simp [Layout.line, Layout.fromParen, Layout.fromCurly, Layout.fromName, Layout.fromDash, hc]
  rw [hparse]
  simp only [Layout.toSection, String.toList_ofList]
  exact ⟨mt (@hparen '\n') hbreak, mt (@hcurly '\n') hbreak, mt (@hname '\n') hbreak⟩

theorem trimmed_name_parse : Text.Trimmed (parse detail .withName).name.toList := by
  by_cases hempty : parse detail .withName = {}
  · rw [hempty]
    decide
  obtain ⟨l, hl, -, hparse⟩ := exists_toSection detail hempty
  rw [hparse]
  simp only [Layout.toSection, String.toList_ofList]
  exact Text.trimmed_of_solid hl.name.solid

end Pieces

theorem splitFirst_append {first : List Char} (h : '\n' ∉ first) (s : List Char) :
    splitFirst (first ++ s) = (first ++ (splitFirst s).1, (splitFirst s).2) := by
  rw [splitFirst, List.takeWhile_append_of_pos (Text.bne_of_not_mem h),
    List.dropWhile_append_of_pos (Text.bne_of_not_mem h)]
  rfl

theorem splitFirst_append_newline {first : List Char} (h : '\n' ∉ first) (rest : List Char) :
    splitFirst (first ++ '\n' :: rest) = (first, rest) := by
  rw [splitFirst_append h]
  simp [splitFirst]

-- A text without blanks at its ends is put together again from its lines.
theorem continued_splitFirst {s : List Char} (h : Text.Trimmed s) :
    continued (splitFirst s).1 (splitFirst s).2 = s := by
  by_cases hbreak : '\n' ∈ s
  · obtain ⟨first, rest, rfl, hfirst⟩ := List.eq_append_cons_of_mem hbreak
    have hne : first ≠ [] := by
      rintro rfl
      exact absurd (h.1 '\n' rfl) (by decide)
    have hrest : rest ≠ [] := by
      rintro rfl
      exact absurd (h.2 '\n' (by simp)) (by decide)
    rw [splitFirst_append_newline hfirst, continued]
    simp [hne, hrest]
  · have hsplit := splitFirst_append hbreak []
    rw [List.append_nil] at hsplit
    rw [hsplit]
    simp [splitFirst, continued]

-- The whole grammar. A first line of blanks where a name is wanted leaves nothing, whatever
-- lines follow it, and it is the only line that does. Any other first line is its proper
-- layout, with every character in its place, and the lines after it follow the description.
theorem parse_eq_iff_layout (detail : String) (mode : Mode) (s : Section) :
    let first := detail.toList.takeWhile (· != '\n')
    let rest := (detail.toList.dropWhile (· != '\n')).drop 1
    ((∀ more, parse (String.ofList (first ++ '\n' :: more)) mode = {}) ↔
      mode = .withName ∧ Text.allBlank first) ∧
    (parse detail mode = s ↔
      if mode = .withName ∧ Text.allBlank first then s = {}
      else ∃ l : Layout, l.Proper mode ∧ l.line = first ∧ l.toSection mode rest = s) := by
  intro first rest
  have hfirst : '\n' ∉ first := fun hmem => by simpa using List.mem_takeWhile_imp hmem
  refine ⟨⟨fun hdropped => ?_, ?_⟩, ?_⟩
  · by_contra hnamed
    obtain ⟨l, hl, hline⟩ := exists_layout hnamed
    have hempty := hdropped ['.']
    have hsplit : splitFirst (String.ofList (first ++ '\n' :: ['.'])).toList = (l.line, ['.']) := by
      rw [String.toList_ofList, splitFirst_append_newline hfirst, hline]
    rw [hl.parse_eq (by rw [hsplit]), hsplit] at hempty
    have hdescription := congrArg Section.description hempty
    simp [Layout.toSection] at hdescription
  · rintro ⟨rfl, hblank⟩ more
    refine parse_of_allBlank ?_
    rw [String.toList_ofList, splitFirst_append_newline hfirst]
    exact hblank
  · split
    · rename_i hblank
      rw [hblank.1, parse_of_allBlank hblank.2, eq_comm]
    · rename_i hnamed
      obtain ⟨l, hl, hline⟩ := exists_layout hnamed
      constructor
      · rintro rfl
        exact ⟨l, hl, hline, (hl.parse_eq hline.symm).symm⟩
      · rintro ⟨l', hl', hline', rfl⟩
        exact hl'.parse_eq hline'.symm

-- The last part in brackets is given up for the name.
example : parse "<200> (id)" .withName = { tag := "200", name := "(id)" } := by decide +kernel

end Section

end ApiCatalog
