import ApiCatalog.Block
import ApiCatalog.Proofs.Text
import Mathlib.Data.List.TakeWhile

namespace ApiCatalog

namespace Comment

theorem isPrefixOf?_closing_eq_none {c : Char} {interior after : List Char}
    (h : ¬ closing <:+: c :: interior) :
    closing.isPrefixOf? (c :: (interior ++ closing ++ after)) = none := by
  rw [← Option.not_isSome_iff_eq_none, Option.isSome_iff_exists]
  rintro ⟨found, hfound⟩
  have heq := List.isPrefixOf?_eq_some_iff_append_eq.1 hfound
  cases interior with
  | nil => simp [closing] at heq
  | cons d rest =>
      simp only [closing, List.cons_append, List.nil_append, List.cons.injEq] at heq
      obtain ⟨rfl, rfl, -⟩ := heq
      exact h ⟨[], rest, rfl⟩

-- The closing mark does not overlap itself, so a text that ends in front of
-- one holds no other if and only if this is the first.
theorem cut?_closing_iff {text interior after : List Char} :
    Text.cut? closing text = some (interior, after) ↔
      text = interior ++ closing ++ after ∧ ¬ closing <:+: interior := by
  constructor
  · intro h
    refine ⟨Text.eq_of_cut?_eq_some h, ?_⟩
    induction text generalizing interior with
    | nil => simp [Text.cut?_nil, closing] at h
    | cons c rest ih =>
        rw [Text.cut?_cons] at h
        cases hp : closing.isPrefixOf? (c :: rest) with
        | some found =>
            simp only [hp, Option.some.injEq, Prod.mk.injEq] at h
            rw [← h.1]
            simp [closing]
        | none =>
            simp only [hp, Option.map_eq_some_iff, Prod.mk.injEq, Prod.exists] at h
            obtain ⟨interior', after', hcut, rfl, rfl⟩ := h
            rw [List.infix_cons_iff, not_or]
            refine ⟨?_, ih hcut⟩
            rintro ⟨more, hmore⟩
            -- a mark inside would have been found at this very place
            have hrest := Text.eq_of_cut?_eq_some hcut
            have hfound : closing.isPrefixOf? (c :: rest) = some (more ++ closing ++ after') := by
              rw [List.isPrefixOf?_eq_some_iff_append_eq, hrest, ← List.append_assoc,
                ← List.append_assoc, hmore]
              simp
            rw [hp] at hfound
            exact absurd hfound (by simp)
  · rintro ⟨rfl, h⟩
    induction interior with
    | nil => simp [Text.cut?_cons, closing, List.isPrefixOf?]
    | cons c rest ih =>
        have hrest : ¬ closing <:+: rest := fun hin => h (List.infix_cons hin)
        rw [List.cons_append, List.cons_append, Text.cut?_cons, isPrefixOf?_closing_eq_none h,
          ih hrest]
        rfl

-- An opener is `/**`, a gap, and the end of its line.
theorem opener?_iff {text opener rest : List Char} :
    opener? text = some (opener, rest) ↔
      ∃ gap : List Char, (∀ c ∈ gap, Text.isGap c) ∧
        opener = '/' :: '*' :: '*' :: gap ++ ['\n'] ∧ text = opener ++ rest := by
  constructor
  · intro h
    unfold opener? at h
    split at h
    · rename_i more
      split at h
      · rename_i after hafter
        simp only [Option.some.injEq, Prod.mk.injEq] at h
        obtain ⟨rfl, rfl⟩ := h
        refine ⟨more.takeWhile Text.isGap, fun c hc => List.mem_takeWhile_imp hc, by simp, ?_⟩
        have hsplit : more.takeWhile Text.isGap ++ '\n' :: after = more := by
          rw [← hafter, List.takeWhile_append_dropWhile]
        simp [hsplit]
      · exact absurd h (by simp)
    · exact absurd h (by simp)
  · rintro ⟨gap, hgap, rfl, rfl⟩
    have hnewline : Text.isGap '\n' = false := by decide
    have hdrop : (gap ++ '\n' :: rest).dropWhile Text.isGap = '\n' :: rest := by
      rw [List.dropWhile_append_of_pos hgap]
      simp [hnewline]
    have htake : (gap ++ '\n' :: rest).takeWhile Text.isGap = gap := by
      rw [List.takeWhile_append_of_pos hgap]
      simp [hnewline]
    simp [opener?, hdrop, htake]

-- The first line's decoration: blanks, one star, and the gap behind the star.
def decoration (interior : List Char) : List Char :=
  interior.takeWhile Text.isBlank ++
    match interior.dropWhile Text.isBlank with
    | '*' :: rest => '*' :: rest.takeWhile Text.isGap
    | _ => []

def undecorated (interior : List Char) : List Char :=
  match interior.dropWhile Text.isBlank with
  | '*' :: rest => rest.dropWhile Text.isGap
  | rest => rest

theorem decoration_append_undecorated (interior : List Char) :
    decoration interior ++ undecorated interior = interior := by
  rw [decoration, undecorated]
  split
  · rename_i rest heq
    rw [List.append_assoc, List.cons_append, List.takeWhile_append_dropWhile, ← heq,
      List.takeWhile_append_dropWhile]
  · rw [List.append_nil, List.takeWhile_append_dropWhile]

theorem decoration_plain {interior : List Char}
    (h : ∀ rest, interior.dropWhile Text.isBlank ≠ '*' :: rest) :
    decoration interior = interior.takeWhile Text.isBlank ∧
      undecorated interior = interior.dropWhile Text.isBlank := by
  unfold decoration undecorated
  split
  · rename_i rest heq
    exact absurd heq (h rest)
  · exact ⟨List.append_nil _, rfl⟩

-- A comment that reaches to its first closing mark, and the text on both sides.
structure Span where
  before : List Char
  opener : List Char
  interior : List Char
  after : List Char
  deriving DecidableEq, Repr

namespace Span

def text (s : Span) : List Char := s.before ++ s.opener ++ s.interior ++ closing ++ s.after

def comment (s : Span) : Comment := ⟨s.opener ++ decoration s.interior, undecorated s.interior⟩

theorem size_comment (s : Span) :
    s.comment.size = (s.opener ++ s.interior ++ closing).length := by
  have h := congrArg List.length (decoration_append_undecorated s.interior)
  simp only [List.length_append] at h
  simp only [comment, size, List.length_append]
  omega

end Span

-- The comment whose opener stands at the first character.
def atStart? (text : List Char) : Option Span :=
  (opener? text).bind fun (opener, rest) =>
    (Text.cut? closing rest).map fun (interior, after) => ⟨[], opener, interior, after⟩

-- The first comment of a text: an opener without a closing mark behind it is passed over.
def next? : List Char → Option Span
  | [] => none
  | c :: rest =>
      match atStart? (c :: rest) with
      | some span => some span
      | none => (next? rest).map fun span => { span with before := c :: span.before }

theorem text_of_atStart? {text : List Char} {span : Span} (h : atStart? text = some span) :
    span.text = text ∧ span.before = [] := by
  simp only [atStart?, Option.bind_eq_some_iff, Option.map_eq_some_iff, Prod.exists] at h
  obtain ⟨opener, rest, hopener, interior, after, hcut, rfl⟩ := h
  obtain ⟨gap, -, -, htext⟩ := opener?_iff.1 hopener
  rw [htext, Text.eq_of_cut?_eq_some hcut]
  simp [Span.text]

theorem text_of_next? {text : List Char} {span : Span} (h : next? text = some span) :
    span.text = text := by
  induction text generalizing span with
  | nil => exact absurd h (by simp [next?])
  | cons c rest ih =>
      rw [next?] at h
      split at h
      · rename_i found hfound
        obtain rfl : found = span := by simpa using h
        exact (text_of_atStart? hfound).1
      · obtain ⟨later, hlater, rfl⟩ := Option.map_eq_some_iff.1 h
        simpa [Span.text] using ih hlater

theorem length_after_lt {text : List Char} {span : Span} (h : next? text = some span) :
    span.after.length < text.length := by
  rw [← text_of_next? h]
  simp only [Span.text, List.length_append, closing, List.length_cons]
  omega

-- Comment after comment, each beginning behind the closing mark of the one before.
def scan (loc : Location) (text : List Char) : List (Location × Span) :=
  match _h : next? text with
  | none => []
  | some span =>
      let here := loc.advanceAll span.before
      (here, span) :: scan (here.advanceAll (span.opener ++ span.interior ++ closing)) span.after
  termination_by text.length
  decreasing_by exact length_after_lt _h

-- The star of the closing mark is read as decoration when nothing but blanks
-- stands in front of it and another closing mark follows.
def Span.Swallows (s : Span) : Prop := (∀ c ∈ s.interior, Text.isBlank c) ∧ closing <:+: s.after

-- What is read as the comment.
def Span.taken (s : Span) : Comment :=
  if s.interior.all Text.isBlank then
    match Text.cut? closing s.after with
    | some (more, _) => ⟨s.opener ++ s.interior ++ ['*'], '/' :: more⟩
    | none => s.comment
  else
    s.comment

theorem afterOpener?_star_some {text rest body after : List Char}
    (h : text.dropWhile Text.isBlank = '*' :: rest)
    (hcut : Text.cut? closing (rest.dropWhile Text.isGap) = some (body, after)) :
    afterOpener? text =
      some (text.takeWhile Text.isBlank ++ '*' :: rest.takeWhile Text.isGap, body) := by
  simp only [afterOpener?, h, hcut]

theorem afterOpener?_star_none {text rest : List Char}
    (h : text.dropWhile Text.isBlank = '*' :: rest)
    (hcut : Text.cut? closing (rest.dropWhile Text.isGap) = none) :
    afterOpener? text =
      if rest.head? = some '/' then some (text.takeWhile Text.isBlank, []) else none := by
  simp only [afterOpener?, h, hcut]
  split
  · simp
  · rename_i hslash
    cases rest with
    | nil => simp
    | cons c more =>
        have hc : c ≠ '/' := fun heq => hslash more (by rw [heq])
        simp [hc]

theorem afterOpener?_plain {text : List Char}
    (h : ∀ rest, text.dropWhile Text.isBlank ≠ '*' :: rest) :
    afterOpener? text = (Text.cut? closing (text.dropWhile Text.isBlank)).map
      fun (body, _) => (text.takeWhile Text.isBlank, body) := by
  unfold afterOpener?
  split
  · rename_i rest heq
    exact absurd heq (h rest)
  · rfl

theorem afterOpener?_of_none {text : List Char} (h : Text.cut? closing text = none) :
    afterOpener? text = none := by
  have hin := (Text.cut?_eq_none_iff closing text).1 h
  have hsuffix : ∀ {part : List Char}, part <:+ text → Text.cut? closing part = none := by
    intro part hpart
    exact (Text.cut?_eq_none_iff closing part).2 fun hc => hin (hc.trans hpart.isInfix)
  have hdrop : text.dropWhile Text.isBlank <:+ text := List.dropWhile_suffix Text.isBlank
  by_cases hstar : ∃ rest, text.dropWhile Text.isBlank = '*' :: rest
  · obtain ⟨rest, heq⟩ := hstar
    rw [heq] at hdrop
    have hrest : rest <:+ text := (List.suffix_cons '*' rest).trans hdrop
    have hcut := hsuffix ((List.dropWhile_suffix Text.isGap).trans hrest)
    have hslash : rest.head? ≠ some '/' := by
      intro hhead
      obtain ⟨more, rfl⟩ := List.head?_eq_some_iff.1 hhead
      exact hin ((List.prefix_append closing more).isInfix.trans hdrop.isInfix)
    rw [afterOpener?_star_none heq hcut, if_neg hslash]
  · have hplain : ∀ rest, text.dropWhile Text.isBlank ≠ '*' :: rest :=
      fun rest heq => hstar ⟨rest, heq⟩
    rw [afterOpener?_plain hplain, hsuffix hdrop]
    rfl

theorem afterOpener?_of_blank {interior after : List Char}
    (h : ∀ c ∈ interior, Text.isBlank c) :
    afterOpener? (interior ++ closing ++ after) =
      match Text.cut? closing after with
      | some (more, _) => some (interior ++ ['*'], '/' :: more)
      | none => some (interior, []) := by
  have hstar : Text.isBlank '*' = false := by decide
  have hslash : Text.isGap '/' = false := by decide
  have htake : (interior ++ closing ++ after).takeWhile Text.isBlank = interior := by
    rw [List.append_assoc, List.takeWhile_append_of_pos h]
    simp [closing, hstar]
  have hdrop : (interior ++ closing ++ after).dropWhile Text.isBlank = '*' :: '/' :: after := by
    rw [List.append_assoc, List.dropWhile_append_of_pos h]
    simp [closing, hstar]
  -- behind the star the search goes on from the slash
  have hcut : Text.cut? closing (('/' :: after).dropWhile Text.isGap) =
      (Text.cut? closing after).map fun (more, rest) => ('/' :: more, rest) := by
    rw [List.dropWhile_cons_of_neg (by simp [hslash]), Text.cut?_cons]
    simp [closing, List.isPrefixOf?]
  cases hafter : Text.cut? closing after with
  | none =>
      rw [hafter] at hcut
      rw [afterOpener?_star_none hdrop hcut, htake]
      rfl
  | some found =>
      rw [hafter] at hcut
      rw [afterOpener?_star_some hdrop hcut, htake]
      simp [hslash]

theorem afterOpener?_of_not_blank {interior after : List Char}
    (hblank : ¬ ∀ c ∈ interior, Text.isBlank c) (hclosing : ¬ closing <:+: interior) :
    afterOpener? (interior ++ closing ++ after) =
      some (decoration interior, undecorated interior) := by
  have hstar : Text.isBlank '*' = false := by decide
  have hgap : Text.isGap '*' = false := by decide
  have hshape : interior ++ closing ++ after = interior ++ '*' :: '/' :: after := by
    simp [closing]
  have htake : (interior ++ closing ++ after).takeWhile Text.isBlank =
      interior.takeWhile Text.isBlank := by
    rw [hshape, Text.takeWhile_append_cons hstar]
  have hdrop : (interior ++ closing ++ after).dropWhile Text.isBlank =
      interior.dropWhile Text.isBlank ++ closing ++ after := by
    rw [hshape, Text.dropWhile_append_cons hstar]
    simp [closing]
  -- any part of the interior may stand in front of the closing mark
  have hcut : ∀ {part : List Char}, part <:+ interior →
      Text.cut? closing (part ++ closing ++ after) = some (part, after) := by
    intro part hpart
    exact cut?_closing_iff.2 ⟨rfl, fun hc => hclosing (hc.trans hpart.isInfix)⟩
  have hsuffix : interior.dropWhile Text.isBlank <:+ interior := List.dropWhile_suffix Text.isBlank
  by_cases hrest : ∃ rest, interior.dropWhile Text.isBlank = '*' :: rest
  · obtain ⟨rest, hrest⟩ := hrest
    rw [hrest] at hdrop hsuffix
    have hpart : rest.dropWhile Text.isGap <:+ interior :=
      (List.dropWhile_suffix Text.isGap).trans ((List.suffix_cons '*' rest).trans hsuffix)
    have hbehind : rest ++ closing ++ after = rest ++ '*' :: '/' :: after := by
      simp [closing]
    have hgaps : (rest ++ closing ++ after).takeWhile Text.isGap = rest.takeWhile Text.isGap := by
      rw [hbehind, Text.takeWhile_append_cons hgap]
    have hbody : Text.cut? closing ((rest ++ closing ++ after).dropWhile Text.isGap) =
        some (rest.dropWhile Text.isGap, after) := by
      rw [hbehind, Text.dropWhile_append_cons hgap, ← hcut hpart]
      simp [closing]
    rw [afterOpener?_star_some (by simpa using hdrop) hbody, htake, hgaps]
    simp [decoration, undecorated, hrest]
  · have hplain : ∀ rest, interior.dropWhile Text.isBlank ≠ '*' :: rest :=
      fun rest heq => hrest ⟨rest, heq⟩
    have hplain' : ∀ rest, (interior ++ closing ++ after).dropWhile Text.isBlank ≠ '*' :: rest := by
      intro rest heq
      rw [hdrop] at heq
      cases hfirst : interior.dropWhile Text.isBlank with
      | nil => exact hblank (by simpa using hfirst)
      | cons c more =>
          rw [hfirst] at heq
          exact hplain more (hfirst.trans (by simp_all))
    obtain ⟨hdecoration, hundecorated⟩ := decoration_plain hplain
    rw [afterOpener?_plain hplain', htake, hdrop, hcut hsuffix, hdecoration, hundecorated]
    rfl

theorem comment_of_blank {s : Span} (h : ∀ c ∈ s.interior, Text.isBlank c) :
    s.comment = ⟨s.opener ++ s.interior, []⟩ := by
  have hdrop : s.interior.dropWhile Text.isBlank = [] := by simpa using h
  have hplain : ∀ rest, s.interior.dropWhile Text.isBlank ≠ '*' :: rest := by simp [hdrop]
  obtain ⟨hdecoration, hundecorated⟩ := decoration_plain hplain
  rw [Span.comment, hdecoration, hundecorated, hdrop, List.takeWhile_eq_self_iff.2 h]

theorem ofText?_eq_taken (text : List Char) : ofText? text = (atStart? text).map Span.taken := by
  unfold ofText? atStart?
  cases hopener : opener? text with
  | none => rfl
  | some found =>
      obtain ⟨opener, rest⟩ := found
      simp only [Option.bind_some]
      cases hcut : Text.cut? closing rest with
      | none => rw [afterOpener?_of_none hcut]; rfl
      | some pieces =>
          obtain ⟨interior, after⟩ := pieces
          obtain ⟨rfl, hclosing⟩ := cut?_closing_iff.1 hcut
          by_cases hall : interior.all Text.isBlank
          · have hblank : ∀ c ∈ interior, Text.isBlank c := List.all_eq_true.1 hall
            simp only [afterOpener?_of_blank hblank, Option.map_some, Span.taken, if_pos hall]
            cases Text.cut? closing after with
            | none => rw [comment_of_blank hblank]; rfl
            | some more => simp
          · have hblank : ¬ ∀ c ∈ interior, Text.isBlank c := mt List.all_eq_true.2 hall
            simp only [afterOpener?_of_not_blank hblank hclosing, Option.map_some, Span.taken,
              if_neg hall, Span.comment]

theorem Span.taken_of_not_swallows {s : Span} (h : ¬ s.Swallows) : s.taken = s.comment := by
  unfold Span.taken
  split
  · rename_i hall
    have hnone : Text.cut? closing s.after = none :=
      (Text.cut?_eq_none_iff closing s.after).2 fun hin => h ⟨List.all_eq_true.1 hall, hin⟩
    rw [hnone]
  · rfl

-- A comment that reaches past its closing mark begins with the slash of that mark.
theorem Span.taken_of_swallows {s : Span} (h : s.Swallows) :
    ∃ more, s.taken.body = '/' :: more := by
  obtain ⟨hblank, hin⟩ := h
  have hsome : Text.cut? closing s.after ≠ none :=
    fun hnone => (Text.cut?_eq_none_iff closing s.after).1 hnone hin
  obtain ⟨⟨more, rest⟩, hcut⟩ := Option.ne_none_iff_exists'.1 hsome
  exact ⟨more, by simp only [Span.taken, if_pos (List.all_eq_true.2 hblank), hcut]⟩

theorem findFrom_skip (loc : Location) (n : Nat) (text : List Char) :
    findFrom loc n text = findFrom (loc.advanceAll (text.take n)) 0 (text.drop n) := by
  induction n generalizing loc text with
  | zero => rfl
  | succ n ih =>
      cases text with
      | nil => rfl
      | cons c rest =>
          rw [findFrom, ih]
          rfl

theorem findFrom_cons_of_some {loc : Location} {text : List Char} {comment : Comment}
    (h : ofText? text = some comment) :
    findFrom loc 0 text = (loc, comment) ::
      findFrom (loc.advanceAll (text.take comment.size)) 0 (text.drop comment.size) := by
  obtain ⟨n, hn⟩ : ∃ n, comment.size = n + 1 :=
    ⟨comment.lead.length + comment.body.length + 1, by simp [size, closing]⟩
  cases text with
  | nil => exact absurd h (by simp [ofText?, opener?])
  | cons c rest =>
      rw [findFrom]
      simp only [h, hn, Nat.add_sub_cancel]
      rw [findFrom_skip]
      rfl

-- The search passes over the text in front of the first comment.
theorem findFrom_eq_nil {loc : Location} {text : List Char} (h : next? text = none) :
    findFrom loc 0 text = [] := by
  induction text generalizing loc with
  | nil => rfl
  | cons c rest ih =>
      rw [next?] at h
      split at h
      · exact absurd h (by simp)
      · rename_i hstart
        have hnone : ofText? (c :: rest) = none := by rw [ofText?_eq_taken, hstart]; rfl
        rw [findFrom]
        simp only [hnone]
        exact ih (by simpa using h)

theorem findFrom_of_next? (loc : Location) {text : List Char} {span : Span}
    (h : next? text = some span) :
    findFrom loc 0 text =
      findFrom (loc.advanceAll span.before) 0 (text.drop span.before.length) ∧
    ofText? (text.drop span.before.length) = some span.taken := by
  induction text generalizing loc span with
  | nil => exact absurd h (by simp [next?])
  | cons c rest ih =>
      rw [next?] at h
      split at h
      · rename_i found hfound
        obtain rfl : found = span := by simpa using h
        rw [(text_of_atStart? hfound).2]
        refine ⟨rfl, ?_⟩
        rw [List.length_nil, List.drop_zero, ofText?_eq_taken, hfound]
        rfl
      · rename_i hstart
        obtain ⟨later, hlater, rfl⟩ := Option.map_eq_some_iff.1 h
        have hnone : ofText? (c :: rest) = none := by rw [ofText?_eq_taken, hstart]; rfl
        obtain ⟨hfind, hread⟩ := ih (loc.advance c) hlater
        refine ⟨?_, hread⟩
        rw [findFrom]
        simp only [hnone, hfind]
        rfl

-- One comment that ends at its first closing mark, and then the rest of the text.
theorem findFrom_of_not_swallows (loc : Location) {text : List Char} {span : Span}
    (h : next? text = some span) (hspan : ¬ span.Swallows) :
    findFrom loc 0 text = (loc.advanceAll span.before, span.comment) ::
      findFrom ((loc.advanceAll span.before).advanceAll
        (span.opener ++ span.interior ++ closing)) 0 span.after := by
  obtain ⟨hfind, hread⟩ := findFrom_of_next? loc h
  have hdrop : text.drop span.before.length =
      span.opener ++ span.interior ++ closing ++ span.after := by
    rw [← text_of_next? h]
    simp [Span.text]
  rw [Span.taken_of_not_swallows hspan] at hread
  rw [hfind, findFrom_cons_of_some hread, hdrop, Span.size_comment, List.take_left,
    List.drop_left]

end Comment

namespace Block

theorem summary_eq (path : String) (loc : Location) (comment : Comment) :
    (ofComment path loc comment).summary = String.ofList (Text.trim (Text.unlines
      (gather (numbered (loc.advanceAll comment.lead).line comment.body)).1)) := rfl

theorem summary_of_body_eq_nil {path : String} {loc : Location} {comment : Comment}
    (h : comment.body = []) : (ofComment path loc comment).summary = "" := by
  rw [summary_eq, h]
  rfl

-- Text that does not open a tag stays in the summary.
theorem summary_of_body_eq_slash {path : String} {loc : Location} {comment : Comment}
    {more : List Char} (h : comment.body = '/' :: more) :
    (ofComment path loc comment).summary ≠ "" := by
  obtain ⟨line, rest, hlines⟩ := Text.exists_lines_cons more
  have hfirst : Text.lines ('/' :: more) = ('/' :: line) :: rest :=
    Text.lines_append (l := ['/']) (by decide) hlines
  obtain ⟨tail, htail⟩ : ∃ tail, Text.unlines
      (gather (numbered (loc.advanceAll comment.lead).line ('/' :: more))).1 = '/' :: tail := by
    rw [numbered, hfirst]
    exact Text.exists_unlines_cons '/' line _
  rw [summary_eq, h, htail]
  simpa using Text.trim_cons_ne_nil (by decide) tail

end Block

-- The blocks of a text when every comment ends where it is closed first.
def Block.scan (path : String) (source : List Char) : List Block :=
  (Comment.scan Location.start source).map fun (location, span) =>
    ofComment path location span.comment

theorem Block.map_findFrom_eq_iff (path : String) (loc : Location) (text : List Char) :
    (Comment.findFrom loc 0 text).map (fun (place, comment) => ofComment path place comment) =
        (Comment.scan loc text).map (fun (place, span) => ofComment path place span.comment) ↔
      ∀ found ∈ Comment.scan loc text, ¬ found.2.Swallows := by
  fun_induction Comment.scan loc text with
  | case1 loc text hnone => simp [Comment.findFrom_eq_nil hnone]
  | case2 loc text span hspan here ih =>
      by_cases hswallows : span.Swallows
      · -- one side begins with an empty summary, the other with the slash it swallowed
        obtain ⟨hfind, hread⟩ := Comment.findFrom_of_next? loc hspan
        obtain ⟨more, hbody⟩ := Comment.Span.taken_of_swallows hswallows
        have hempty : span.comment.body = [] := by rw [Comment.comment_of_blank hswallows.1]
        have hne : ofComment path (loc.advanceAll span.before) span.taken ≠
            ofComment path here span.comment := by
          intro heq
          apply summary_of_body_eq_slash hbody
          rw [heq]
          exact summary_of_body_eq_nil hempty
        rw [hfind, Comment.findFrom_cons_of_some hread]
        simp [hne, hswallows]
      · rw [Comment.findFrom_of_not_swallows loc hspan hswallows]
        simpa [here, hswallows] using ih

-- Every block ends where its comment is closed first, unless a comment with
-- nothing but blanks in it is followed by another closing mark: that comment
-- runs on to the later mark, and no two readings of such a text agree.
theorem Block.find_eq_scan_iff (path : String) (source : List Char) :
    find path source = scan path source ↔
      ∀ found ∈ Comment.scan Location.start source,
        (∀ c ∈ found.2.interior, Text.isBlank c) → ¬ Comment.closing <:+: found.2.after := by
  have hscan := map_findFrom_eq_iff path Location.start source
  simp only [Comment.Span.Swallows, not_and] at hscan
  exact hscan

-- The empty comment takes in the whole of the next one.
theorem Block.find_swallows_next_comment :
    find "a.js" "/**\n */\n/**\n * @apiGroup A\n */".toList ≠
      scan "a.js" "/**\n */\n/**\n * @apiGroup A\n */".toList := by
  decide +kernel

end ApiCatalog
