import ApiCatalog.Proofs.Comment.Scan
import ApiCatalog.Proofs.Location

namespace ApiCatalog

namespace Comment

-- Blanks, and then perhaps a star with a gap behind it.
def IsDecoration (d : List Char) : Prop :=
  ∃ blanks star, d = blanks ++ star ∧ (∀ c ∈ blanks, Text.isBlank c) ∧
    (star = [] ∨ ∃ gap, star = '*' :: gap ∧ ∀ c ∈ gap, Text.isGap c)

theorem isDecoration_of_blanks {d : List Char} (h : ∀ c ∈ d, Text.isBlank c) : IsDecoration d :=
  ⟨d, [], by simp, h, .inl rfl⟩

theorem IsDecoration.of_append {front d : List Char} (h : IsDecoration (front ++ d)) :
    IsDecoration d := by
  obtain ⟨blanks, star, heq, hblanks, hstar⟩ := h
  rcases List.append_eq_append_iff.1 heq with ⟨more, rfl, rfl⟩ | ⟨more, rfl, rfl⟩
  · exact ⟨more, star, rfl, fun c hc => hblanks c (by simp [hc]), hstar⟩
  · rcases hstar with hnil | ⟨gap, hcons, hgap⟩
    · obtain ⟨-, rfl⟩ := List.append_eq_nil_iff.1 hnil
      exact isDecoration_of_blanks (by simp)
    · rcases more with _ | ⟨star, more⟩
      · exact ⟨[], d, rfl, by simp, .inr ⟨gap, hcons, hgap⟩⟩
      · obtain ⟨-, rfl⟩ := List.cons.inj hcons
        exact isDecoration_of_blanks fun c hc => Text.isBlank_of_isGap (hgap c (by simp [hc]))

-- Of a decoration over several lines the last line is one too.
theorem IsDecoration.exists_break {d : List Char} (h : IsDecoration d) :
    ∃ front d', '\n' :: d = front ++ '\n' :: d' ∧ IsDecoration d' ∧ '\n' ∉ d' := by
  obtain ⟨front, d', hlast, hbreak⟩ := Text.exists_last_break d
  refine ⟨front, d', hlast, ?_, hbreak⟩
  cases front with
  | nil => exact (List.cons.inj hlast).2 ▸ h
  | cons _ more =>
      have hsuffix : d = (more ++ ['\n']) ++ d' := by simpa using (List.cons.inj hlast).2
      exact of_append (hsuffix ▸ h)

theorem undecorated_append {d : List Char} (h : IsDecoration d) {c : Char}
    (hblank : Text.isBlank c = false) (hstar : c ≠ '*') (rest : List Char) :
    undecorated (d ++ c :: rest) = c :: rest := by
  obtain ⟨blanks, star, rfl, hblanks, rfl | ⟨gap, rfl, hgap⟩⟩ := h
  · have hdrop : (blanks ++ [] ++ c :: rest).dropWhile Text.isBlank = c :: rest := by
      rw [List.append_nil, List.dropWhile_append_of_pos hblanks]
      simp [hblank]
    rw [undecorated, hdrop]
    split
    · rename_i heq
      exact absurd (List.cons.inj heq).1 hstar
    · rfl
  · have hc : Text.isGap c = false := by
      by_contra hgap
      simp [Text.isBlank_of_isGap (by simpa using hgap)] at hblank
    have hdrop : (blanks ++ '*' :: gap ++ c :: rest).dropWhile Text.isBlank =
        '*' :: (gap ++ c :: rest) := by
      rw [List.append_assoc, List.dropWhile_append_of_pos hblanks]
      simp [show Text.isBlank '*' = false by decide]
    simp only [undecorated, hdrop]
    rw [List.dropWhile_append_of_pos hgap]
    simp [hc]

theorem afterOpener?_eq_some {text d body : List Char} (h : afterOpener? text = some (d, body)) :
    IsDecoration d ∧ ∃ after, text = d ++ body ++ closing ++ after := by
  have hsplit : text.takeWhile Text.isBlank ++ text.dropWhile Text.isBlank = text :=
    List.takeWhile_append_dropWhile
  have hindent : ∀ c ∈ text.takeWhile Text.isBlank, Text.isBlank c :=
    fun c hc => List.mem_takeWhile_imp hc
  simp only [afterOpener?] at h
  split at h
  · rename_i rest hrest
    rw [hrest] at hsplit
    split at h
    · rename_i found after hcut
      cases h
      have hgap : ∀ c ∈ rest.takeWhile Text.isGap, Text.isGap c :=
        fun c hc => List.mem_takeWhile_imp hc
      have hbehind : rest.takeWhile Text.isGap ++ rest.dropWhile Text.isGap = rest :=
        List.takeWhile_append_dropWhile
      have htext : text = text.takeWhile Text.isBlank ++
          '*' :: (rest.takeWhile Text.isGap ++ (body ++ closing ++ after)) := by
        rw [← Text.eq_of_cut?_eq_some hcut, hbehind, hsplit]
      exact ⟨⟨_, _, rfl, hindent, .inr ⟨_, rfl, hgap⟩⟩, after, htext.trans (by simp)⟩
    · split at h
      · rename_i after _
        cases h
        exact ⟨isDecoration_of_blanks hindent, after, hsplit.symm.trans (by simp [closing])⟩
      · cases h
  · obtain ⟨⟨found, after⟩, hcut, heq⟩ := Option.map_eq_some_iff.1 h
    cases heq
    rw [Text.eq_of_cut?_eq_some hcut] at hsplit
    exact ⟨isDecoration_of_blanks hindent, after, hsplit.symm.trans (by simp)⟩

-- What is read as a comment is a piece of the text, and the decoration of its
-- first line follows a line break.
theorem ofText?_eq_some {text : List Char} {c : Comment} (h : ofText? text = some c) :
    (∃ front d, c.lead = front ++ '\n' :: d ∧ IsDecoration d) ∧
      ∃ after, text = c.lead ++ c.body ++ closing ++ after := by
  simp only [ofText?, Option.bind_eq_some_iff, Option.map_eq_some_iff, Prod.exists] at h
  obtain ⟨opener, rest, hopener, d, body, hbody, rfl⟩ := h
  obtain ⟨gap, -, hshape, rfl⟩ := opener?_iff.1 hopener
  obtain ⟨hd, after, hrest⟩ := afterOpener?_eq_some hbody
  exact ⟨⟨'/' :: '*' :: '*' :: gap, d, by simp [hshape], hd⟩, after, by simp [hrest]⟩

theorem opening_prefix_lead {text : List Char} {c : Comment} (h : ofText? text = some c) :
    ['/', '*', '*'] <+: c.lead := by
  simp only [ofText?, Option.bind_eq_some_iff, Option.map_eq_some_iff, Prod.exists] at h
  obtain ⟨opener, rest, hopener, d, body, -, rfl⟩ := h
  obtain ⟨gap, -, rfl, -⟩ := opener?_iff.1 hopener
  exact ⟨gap ++ '\n' :: d, by simp⟩

-- Where the search finds a comment, there one stands.
theorem ofText?_of_mem_findFrom {loc place : Location} {skip : Nat} {text : List Char}
    {c : Comment} (h : (place, c) ∈ findFrom loc skip text) :
    ∃ before rest, text = before ++ rest ∧ place = loc.advanceAll before ∧
      ofText? rest = some c := by
  induction text generalizing loc skip with
  | nil => exact absurd h (by simp [findFrom])
  | cons a rest ih =>
      have hlater : ∀ {skip : Nat}, (place, c) ∈ findFrom (loc.advance a) skip rest →
          ∃ before more, a :: rest = before ++ more ∧ place = loc.advanceAll before ∧
            ofText? more = some c := by
        intro skip hmem
        obtain ⟨before, more, rfl, hplace, hread⟩ := ih hmem
        exact ⟨a :: before, more, rfl, hplace, hread⟩
      cases skip with
      | succ n => exact hlater (by simpa [findFrom] using h)
      | zero =>
          rw [findFrom] at h
          split at h
          · rename_i found hfound
            rcases List.mem_cons.1 h with heq | hmem
            · cases heq
              exact ⟨[], a :: rest, rfl, rfl, hfound⟩
            · exact hlater hmem
          · exact hlater h

-- Each comment begins somewhere behind the closing mark of the one before it.
theorem pairwise_findFrom (loc : Location) (skip : Nat) (text : List Char) :
    (findFrom loc skip text).Pairwise fun a b => ∃ between,
      b.1 = a.1.advanceAll (a.2.lead ++ a.2.body ++ closing ++ between) := by
  induction text generalizing loc skip with
  | nil => exact .nil
  | cons a rest ih =>
      cases skip with
      | succ n => exact ih _ n
      | zero =>
          rw [findFrom]
          split
          · rename_i found hfound
            refine List.pairwise_cons.2 ⟨?_, ih _ _⟩
            rintro ⟨place, c⟩ hmem
            obtain ⟨-, after, htext⟩ := ofText?_eq_some hfound
            have hsize : found.size - 1 + 1 = (found.lead ++ found.body ++ closing).length := by
              have hclosing : closing.length = 2 := rfl
              simp only [size, List.length_append]
              omega
            have htake : a :: rest.take (found.size - 1) =
                found.lead ++ found.body ++ closing := by
              rw [← List.take_succ_cons, hsize, htext, List.take_left]
            rw [findFrom_skip] at hmem
            obtain ⟨before, more, -, hplace, -⟩ := ofText?_of_mem_findFrom hmem
            refine ⟨before, ?_⟩
            rw [Location.advanceAll_append, ← htake]
            exact hplace
          · exact ih _ _

end Comment

namespace TagLine

-- The text begins with the mark, in letters of either case, and the whole name of the tag.
def Opens (l : TagLine) (text : List Char) : Prop :=
  ∃ mark name rest, text = mark ++ name ++ rest ∧ mark.map Char.toLower = "@api".toList ∧
    (∀ c ∈ name, isNameChar c) ∧ (∀ c ∈ rest.head?, isNameChar c = false) ∧
    l.tag = if name = [] then "api" else String.ofList (Text.lower name)

theorem afterMark?_eq_some {text rest : List Char} (h : afterMark? text = some rest) :
    ∃ mark, text = mark ++ rest ∧ mark.map Char.toLower = "@api".toList := by
  unfold afterMark? at h
  split at h
  · rename_i a p i more
    split at h
    · rename_i hletters
      cases h
      simp only [Bool.and_eq_true, Bool.or_eq_true, beq_iff_eq] at hletters
      obtain ⟨⟨ha, hp⟩, hi⟩ := hletters
      refine ⟨['@', a, p, i], rfl, ?_⟩
      rcases ha with rfl | rfl <;> rcases hp with rfl | rfl <;> rcases hi with rfl | rfl <;> decide
    · cases h
  · cases h

theorem opens_of_ofText? {n : Nat} {text : List Char} {l : TagLine}
    (h : ofText? n text = some l) : l.line = n ∧ l.Opens text := by
  obtain ⟨rest, hmark, hread⟩ := Option.bind_eq_some_iff.1 h
  obtain ⟨mark, rfl, hlower⟩ := afterMark?_eq_some hmark
  have hsplit : rest.takeWhile isNameChar ++ rest.dropWhile isNameChar = rest :=
    List.takeWhile_append_dropWhile
  have hname : ∀ c ∈ rest.takeWhile isNameChar, isNameChar c :=
    fun c hc => List.mem_takeWhile_imp hc
  have hhead : ∀ c ∈ (rest.dropWhile isNameChar).head?, isNameChar c = false := by
    intro c hc
    have hstop := List.head?_dropWhile_not isNameChar rest
    rwa [Option.mem_def.1 hc] at hstop
  have hopens : ∀ l : TagLine, l.tag = (if (rest.takeWhile isNameChar).isEmpty then "api" else
      String.ofList (Text.lower (rest.takeWhile isNameChar))) → l.Opens (mark ++ rest) := by
    intro l htag
    exact ⟨mark, _, _, by rw [List.append_assoc, hsplit], hlower, hname, hhead, by simpa using htag⟩
  simp only at hread
  split at hread
  · cases hread
    exact ⟨rfl, hopens _ rfl⟩
  · split at hread
    · cases hread
      exact ⟨rfl, hopens _ rfl⟩
    · cases hread

theorem newline_not_mem_mark {mark : List Char} (h : mark.map Char.toLower = "@api".toList) :
    '\n' ∉ mark := by
  intro hmem
  have hlower : '\n'.toLower ∈ "@api".toList := h ▸ List.mem_map_of_mem hmem
  exact absurd hlower (by decide)

theorem Opens.append {l : TagLine} {text : List Char} (h : l.Opens text) {tail : List Char}
    (htail : ∀ c ∈ tail.head?, isNameChar c = false) : l.Opens (text ++ tail) := by
  obtain ⟨mark, name, rest, rfl, hmark, hname, hrest, htag⟩ := h
  refine ⟨mark, name, rest ++ tail, by simp, hmark, hname, ?_, htag⟩
  cases rest with
  | nil => exact htail
  | cons c more => exact hrest

-- A tag is opened within one line.
theorem Opens.of_line {l : TagLine} {line tail : List Char} (h : l.Opens (line ++ tail))
    (htail : ∀ c ∈ tail.head?, c = '\n') : l.Opens line := by
  obtain ⟨mark, name, rest, heq, hmark, hname, hrest, htag⟩ := h
  have hnewline : '\n' ∉ mark ++ name := by
    intro hmem
    rcases List.mem_append.1 hmem with hmem | hmem
    · exact newline_not_mem_mark hmark hmem
    · exact absurd (hname '\n' hmem) (by decide)
  rcases List.append_eq_append_iff.1 heq with ⟨more, hopening, rfl⟩ | ⟨more, rfl, rfl⟩
  · -- the line would end inside the name
    cases more with
    | nil => exact ⟨mark, name, [], by simpa using hopening.symm, hmark, hname, by simp, htag⟩
    | cons c more =>
        have hc : c = '\n' := htail c rfl
        exact absurd (by simp [hopening, hc]) hnewline
  · refine ⟨mark, name, more, rfl, hmark, hname, ?_, htag⟩
    intro c hc
    exact hrest c (by cases more <;> simp_all)

end TagLine

namespace Block

theorem exists_isDecoration (raw : List Char) :
    ∃ d, raw = d ++ undecorate raw ∧ Comment.IsDecoration d := by
  have hsplit : raw.takeWhile Text.isBlank ++ Text.trimStart raw = raw :=
    List.takeWhile_append_dropWhile
  have hindent : ∀ c ∈ raw.takeWhile Text.isBlank, Text.isBlank c :=
    fun c hc => List.mem_takeWhile_imp hc
  unfold undecorate
  split
  · rename_i rest htrim
    exact ⟨raw.takeWhile Text.isBlank ++ ['*', ' '], by simp [← htrim, hsplit],
      _, _, rfl, hindent, .inr ⟨[' '], rfl, by simp [Text.isGap]⟩⟩
  · rename_i rest _ htrim
    exact ⟨raw.takeWhile Text.isBlank ++ ['*'], by simp [← htrim, hsplit],
      _, _, rfl, hindent, .inr ⟨[], rfl, by simp⟩⟩
  · rename_i rest htrim
    exact ⟨raw.takeWhile Text.isBlank, by rw [← htrim, hsplit],
      Comment.isDecoration_of_blanks hindent⟩
  · exact ⟨[], rfl, Comment.isDecoration_of_blanks (by simp)⟩

theorem mem_numbered {first n : Nat} {body line : List Char}
    (h : (n, line) ∈ numbered first body) :
    ∃ i raw, (Text.lines body)[i]? = some raw ∧ n = first + i ∧
      line = if i = 0 then raw else undecorate raw := by
  obtain ⟨head, rest, hlines⟩ := Text.exists_lines_cons body
  simp only [numbered, hlines, List.mem_cons, Prod.mk.injEq, List.mem_map, Prod.exists,
    Prod.swap_prod_mk, List.mk_mem_zipIdx_iff_le_and_getElem?_sub] at h
  rcases h with ⟨rfl, rfl⟩ | ⟨_, m, ⟨hle, hget⟩, rfl, rfl⟩
  · exact ⟨0, line, by simp [hlines], rfl, rfl⟩
  · obtain ⟨raw, hraw, rfl⟩ := by simpa using hget
    exact ⟨m - (first + 1) + 1, raw, by simpa [hlines] using hraw, by omega, by simp⟩

theorem map_fst_numbered (first : Nat) (body : List Char) :
    (numbered first body).map Prod.fst = List.range' first (body.count '\n' + 1) := by
  obtain ⟨head, rest, hlines⟩ := Text.exists_lines_cons body
  have hlength := Text.length_lines body
  rw [hlines, List.length_cons] at hlength
  have hrest : rest.length = body.count '\n' := by omega
  simp [numbered, hlines, List.range'_succ, ← hrest, Function.comp_def]

theorem mem_gather {n : Nat} {ls : List (List Char)} {numbered : List (Nat × List Char)}
    (h : (n, ls) ∈ (gather numbered).2) :
    ∃ line more, ls = line :: more ∧ (n, line) ∈ numbered ∧ opensTag line := by
  induction numbered with
  | nil => exact absurd h (by simp [gather])
  | cons entry rest ih =>
      simp only [gather] at h
      split at h
      · rename_i hopens
        rcases List.mem_cons.1 h with heq | hmem
        · cases heq
          exact ⟨_, _, rfl, by simp, hopens⟩
        · obtain ⟨line, more, hls, hline, hopens⟩ := ih hmem
          exact ⟨line, more, hls, List.mem_cons_of_mem _ hline, hopens⟩
      · obtain ⟨line, more, hls, hline, hopens⟩ := ih h
        exact ⟨line, more, hls, List.mem_cons_of_mem _ hline, hopens⟩

theorem sublist_gather (numbered : List (Nat × List Char)) :
    ((gather numbered).2.map Prod.fst).Sublist (numbered.map Prod.fst) := by
  induction numbered with
  | nil => simp [gather]
  | cons entry rest ih =>
      simp only [gather]
      split
      · exact ih.cons_cons _
      · exact ih.cons _

theorem pairwise_split (first : Nat) (body : List Char) :
    (split first body).2.Pairwise fun a b => a.line < b.line := by
  have hnumbers : ((gather (numbered first body)).2.map Prod.fst).Pairwise (· < ·) := by
    refine List.Pairwise.sublist (sublist_gather _) ?_
    rw [map_fst_numbered]
    exact List.pairwise_lt_range'
  rw [split, List.pairwise_filterMap]
  refine (List.pairwise_map.1 hnumbers).imp ?_
  intro a b hlt l hl m hm
  rw [(TagLine.opens_of_ofText? hl).1, (TagLine.opens_of_ofText? hm).1]
  exact hlt

-- A tag of a body stands in a line of it, behind the decoration of that line.
theorem mem_split {first : Nat} {body : List Char} {l : TagLine} (h : l ∈ (split first body).2) :
    ∃ i d rest, (Text.lines body)[i]? = some (d ++ '@' :: rest) ∧ l.line = first + i ∧
      l.Opens ('@' :: rest) ∧ Comment.IsDecoration d ∧ (i = 0 → d = []) := by
  obtain ⟨⟨n, ls⟩, hentry, hread⟩ := List.mem_filterMap.1 h
  obtain ⟨line, more, rfl, hline, hopens⟩ := mem_gather hentry
  obtain ⟨hl, hread⟩ := TagLine.opens_of_ofText? hread
  have hline_opens : l.Opens line := by
    cases more with
    | nil => simpa [Text.unlines] using hread
    | cons next more =>
        rw [Text.unlines_cons (by simp)] at hread
        exact hread.of_line (by simp)
  obtain ⟨rest, rfl⟩ := List.head?_eq_some_iff.1 (by simpa [opensTag] using hopens)
  obtain ⟨i, raw, hraw, rfl, hrest⟩ := mem_numbered hline
  by_cases hi : i = 0
  · rw [if_pos hi] at hrest
    exact ⟨i, [], rest, by simpa [hrest] using hraw, hl, hline_opens,
      Comment.isDecoration_of_blanks (by simp), fun _ => rfl⟩
  · rw [if_neg hi] at hrest
    obtain ⟨d, heq, hd⟩ := exists_isDecoration raw
    rw [← hrest] at heq
    exact ⟨i, d, rest, heq ▸ hraw, hl, hline_opens, hd, fun hzero => absurd hzero hi⟩

-- It stands in a line of every text around the comment. To the left that line
-- reaches back to the last break, at the latest the one of the opener.
theorem exists_line {before after : List Char} {first : Nat} {c : Comment} {l : TagLine}
    (hlead : ∃ front d, c.lead = front ++ '\n' :: d ∧ Comment.IsDecoration d)
    (h : l ∈ (split first c.body).2) :
    ∃ i d rest, l.line = first + i ∧
      (Text.lines (before ++ (c.lead ++ c.body ++ Comment.closing ++ after)))[
        (before ++ c.lead).count '\n' + i]? = some (d ++ '@' :: rest) ∧
      Comment.IsDecoration d ∧ l.Opens ('@' :: rest) := by
  obtain ⟨i, d, rest, hget, hl, hopens, hd, hfirst⟩ := mem_split h
  obtain ⟨above, below, hbody, rfl, hline⟩ := Text.exists_isLine hget
  have hunbroken : '\n' ∉ d ∧ '\n' ∉ '@' :: rest := by
    simpa only [List.mem_append, not_or] using hline.unbroken
  obtain ⟨front, d', hleft, hd', hbreak⟩ : ∃ front d', before ++ c.lead ++ above ++ d =
      front ++ '\n' :: d' ∧ Comment.IsDecoration d' ∧ '\n' ∉ d' := by
    rcases hline.opened with rfl | ⟨front, rfl⟩
    · obtain ⟨front, lead, hlead, hdecoration⟩ := hlead
      obtain ⟨more, d', hlast, hd'⟩ := hdecoration.exists_break
      exact ⟨before ++ front ++ more, d', by simp [hlead, hlast, hfirst rfl], hd'⟩
    · exact ⟨before ++ c.lead ++ front, d, by simp, hd, hunbroken.1⟩
  obtain ⟨tail, back, hright, htail, hclosed⟩ :=
    Text.exists_next_break (below ++ Comment.closing ++ after)
  have hname : ∀ c ∈ tail.head?, TagLine.isNameChar c = false := by
    intro c hc
    obtain ⟨tail, rfl⟩ := List.head?_eq_some_iff.1 hc
    rcases hline.closed with rfl | ⟨more, rfl⟩
    · obtain rfl : '*' = c := (List.cons.inj hright).1
      decide
    · obtain rfl : '\n' = c := (List.cons.inj hright).1
      decide
  have hwhole : Text.IsLine (front ++ ['\n']) (d' ++ '@' :: (rest ++ tail)) back := by
    refine ⟨?_, .inr ⟨front, rfl⟩, hclosed⟩
    simp only [← List.cons_append, List.mem_append, not_or]
    exact ⟨hbreak, hunbroken.2, htail⟩
  have htext : before ++ (c.lead ++ c.body ++ Comment.closing ++ after) =
      front ++ ['\n'] ++ (d' ++ '@' :: (rest ++ tail)) ++ back := by
    calc before ++ (c.lead ++ c.body ++ Comment.closing ++ after)
        = (before ++ c.lead ++ above ++ d) ++ '@' :: rest ++
            (below ++ Comment.closing ++ after) := by simp [hbody]
      _ = front ++ '\n' :: d' ++ '@' :: rest ++ (tail ++ back) := by rw [hleft, hright]
      _ = _ := by simp
  have hlines : (before ++ c.lead).count '\n' + above.count '\n' =
      (front ++ ['\n']).count '\n' := by
    have hsame := congrArg (List.count '\n') hleft
    have hzero := List.count_eq_zero_of_not_mem hunbroken.1
    have hzero' := List.count_eq_zero_of_not_mem hbreak
    simp only [List.count_append, List.count_cons_self, List.count_nil] at hsame ⊢
    omega
  refine ⟨_, d', rest ++ tail, hl, ?_, hd', hopens.append hname⟩
  rw [htext, hlines, hwhole.getElem?_lines]

theorem path_of_mem_find {path : String} {source : List Char} {block : Block}
    (h : block ∈ find path source) : block.path = path := by
  obtain ⟨⟨location, comment⟩, -, rfl⟩ := List.mem_map.1 h
  rfl

-- A tag is reported on the line of the file in which it stands.
theorem line_of_mem_find {path : String} {text : List Char} {block : Block} {l : TagLine}
    (hblock : block ∈ find path text) (hl : l ∈ block.lines) :
    ∃ i d rest, l.line = i + 1 ∧ (Text.lines text)[i]? = some (d ++ '@' :: rest) ∧
      Comment.IsDecoration d ∧ l.Opens ('@' :: rest) := by
  obtain ⟨⟨place, c⟩, hmem, rfl⟩ := List.mem_map.1 hblock
  obtain ⟨before, more, rfl, rfl, hread⟩ := Comment.ofText?_of_mem_findFrom hmem
  obtain ⟨hlead, after, rfl⟩ := Comment.ofText?_eq_some hread
  obtain ⟨i, d, rest, hline, hget, hd, hopens⟩ := exists_line hlead hl
  refine ⟨(before ++ c.lead).count '\n' + i, d, rest, ?_, hget, hd, hopens⟩
  rw [hline, Location.line_advanceAll, Location.line_advanceAll, List.count_append]
  simp only [Location.start]
  omega

-- The number holds in the text as it was before its line breaks were unified.
theorem line_of_mem_find_unifyBreaks {path : String} {source : List Char} {block : Block}
    {l : TagLine} (hblock : block ∈ find path (Text.unifyBreaks source)) (hl : l ∈ block.lines) :
    ∃ i raw, l.line = i + 1 ∧ (Text.lines source)[i]? = some raw ∧
      l.Opens (Comment.undecorated raw) := by
  obtain ⟨i, d, rest, hline, hget, hd, hopens⟩ := line_of_mem_find hblock hl
  obtain ⟨raw, hraw, rfl | rfl⟩ := Text.getElem?_lines_of_unifyBreaks hget
  · refine ⟨i, _, hline, hraw, ?_⟩
    rw [Comment.undecorated_append hd (by decide) (by decide)]
    exact hopens
  · refine ⟨i, _, hline, hraw, ?_⟩
    rw [List.append_assoc, List.cons_append,
      Comment.undecorated_append hd (by decide) (by decide)]
    exact hopens.append (by simp [TagLine.isNameChar])

theorem line_bounds_of_mem_ofComment {path : String} {loc : Location} {c : Comment} {l : TagLine}
    (h : l ∈ (ofComment path loc c).lines) :
    loc.line + c.lead.count '\n' ≤ l.line ∧ l.line ≤ loc.line + (c.lead ++ c.body).count '\n' := by
  obtain ⟨i, d, rest, hget, hline, -⟩ := mem_split h
  have hi := (List.getElem?_eq_some_iff.1 hget).1
  rw [Text.length_lines] at hi
  rw [Location.line_advanceAll] at hline
  rw [List.count_append]
  omega

-- A block stands behind the one before it, on or below the last line of that one.
theorem pairwise_places (path : String) (text : List Char) :
    (find path text).Pairwise fun a b =>
      a.location.offset < b.location.offset ∧ ∀ l ∈ a.lines, l.line ≤ b.location.line := by
  refine List.pairwise_map.2 ((Comment.pairwise_findFrom Location.start 0 text).imp ?_)
  rintro ⟨loc, c⟩ ⟨place, later⟩ ⟨between, hplace⟩
  change place = loc.advanceAll (c.lead ++ c.body ++ Comment.closing ++ between) at hplace
  refine ⟨?_, ?_⟩
  · have hne : c.lead ++ c.body ++ Comment.closing ++ between ≠ [] := by simp [Comment.closing]
    exact (loc.offset_lt_advanceAll hne).trans_eq (congrArg Location.offset hplace).symm
  · intro l hl
    have hlast := (line_bounds_of_mem_ofComment hl).2
    have hline := congrArg Location.line hplace
    rw [Location.line_advanceAll, List.append_assoc, List.count_append] at hline
    change l.line ≤ place.line
    omega

theorem location_line_lt {path : String} {text : List Char} {block : Block} {l : TagLine}
    (hblock : block ∈ find path text) (hl : l ∈ block.lines) : block.location.line < l.line := by
  obtain ⟨⟨place, c⟩, hmem, rfl⟩ := List.mem_map.1 hblock
  obtain ⟨_, _, -, -, hread⟩ := Comment.ofText?_of_mem_findFrom hmem
  obtain ⟨⟨front, d, hlead, -⟩, -⟩ := Comment.ofText?_eq_some hread
  have hbreak : 0 < c.lead.count '\n' := List.count_pos_iff.2 (by simp [hlead])
  have hfirst := (line_bounds_of_mem_ofComment hl).1
  change place.line < l.line
  omega

-- From block to block and from tag to tag the lines go up.
theorem pairwise_find (path : String) (text : List Char) :
    ((find path text).flatMap (·.lines)).Pairwise fun a b => a.line < b.line := by
  refine List.pairwise_flatMap.2 ⟨?_, (pairwise_places path text).imp_of_mem ?_⟩
  · intro block hblock
    obtain ⟨entry, -, rfl⟩ := List.mem_map.1 hblock
    exact pairwise_split _ _
  · rintro a b - hb ⟨-, hle⟩ l hl m hm
    exact (hle l hl).trans_lt (location_line_lt hb hm)

-- The place of a block is where the opener of its comment begins.
theorem exists_comment_of_mem_find {path : String} {text : List Char} {block : Block}
    (h : block ∈ find path text) :
    ∃ before comment after,
      text = before ++ comment.lead ++ comment.body ++ Comment.closing ++ after ∧
      ['/', '*', '*'] <+: comment.lead ∧ block = ofComment path (.behind before) comment := by
  obtain ⟨⟨place, comment⟩, hmem, rfl⟩ := List.mem_map.1 h
  obtain ⟨before, rest, rfl, rfl, hread⟩ := Comment.ofText?_of_mem_findFrom hmem
  obtain ⟨-, after, rfl⟩ := Comment.ofText?_eq_some hread
  refine ⟨before, comment, after, by simp, Comment.opening_prefix_lead hread, ?_⟩
  exact congrArg (ofComment path · comment) (Location.advanceAll_behind [] before)

-- Every tag is reported on the line on which it stands. From the place of a
-- block over its tags to the place of the next block the numbers go up, and no
-- number is above that of the last line.
theorem find_reports_lines (path : String) (source : List Char) :
    (∀ block ∈ find path source,
      (∃ before comment after,
        source = before ++ comment.lead ++ comment.body ++ Comment.closing ++ after ∧
        ['/', '*', '*'] <+: comment.lead ∧ block = ofComment path (.behind before) comment) ∧
      ∀ l ∈ block.lines,
        block.location.line < l.line ∧ l.line ≤ (Text.lines source).length ∧
        ∃ raw, (Text.lines source)[l.line - 1]? = some raw ∧
          l.Opens (Comment.undecorated raw)) ∧
    ((find path source).flatMap (·.lines)).Pairwise (fun l m => l.line < m.line) ∧
    (find path source).Pairwise fun a b =>
      a.location.offset < b.location.offset ∧ ∀ l ∈ a.lines, l.line ≤ b.location.line := by
  refine ⟨?_, pairwise_find path source, pairwise_places path source⟩
  intro block hblock
  refine ⟨exists_comment_of_mem_find hblock, ?_⟩
  intro l hl
  obtain ⟨i, d, rest, hline, hget, hd, hopens⟩ := line_of_mem_find hblock hl
  have hi : i < (Text.lines source).length := (List.getElem?_eq_some_iff.1 hget).1
  refine ⟨location_line_lt hblock hl, by omega, d ++ '@' :: rest, ?_, ?_⟩
  · rw [hline, Nat.add_sub_cancel, hget]
  · rw [Comment.undecorated_append hd (by decide) (by decide)]
    exact hopens

-- Blank lines behind the opener belong to it, and still they count.
def spacedSource : List Char :=
  "/**\n\n \t\n * @apiGroup A\n *\n * @API \x7bget\x7d /a A\n *   b\n */".toList

def spacedBlock : Block where
  path := "a.js"
  location := .start
  summary := ""
  lines := [⟨"group", "A", 4⟩, ⟨"api", "\x7bget\x7d /a A\n  b", 6⟩]

theorem find_reports_lines_below_blanks :
    find "a.js" spacedSource = [spacedBlock] ∧
    (∀ l ∈ spacedBlock.lines, 1 < l.line ∧ l.line ≤ 8 ∧
      ∃ raw, (Text.lines spacedSource)[l.line - 1]? = some raw ∧
        l.Opens (Comment.undecorated raw)) ∧
    spacedBlock.lines.Pairwise fun l m => l.line < m.line := by
  have hfind : find "a.js" spacedSource = [spacedBlock] := by decide +kernel
  have hlength : (Text.lines spacedSource).length = 8 := by decide +kernel
  obtain ⟨hblocks, hlines, -⟩ := find_reports_lines "a.js" spacedSource
  rw [hfind] at hblocks hlines
  rw [hlength] at hblocks
  rw [List.flatMap_singleton] at hlines
  exact ⟨hfind, (hblocks spacedBlock (List.mem_singleton_self _)).2, hlines⟩

end Block

end ApiCatalog
