import ApiCatalog.Proofs.Block.Draft
import ApiCatalog.Proofs.Block.Place
import Mathlib.Data.List.Chain

namespace ApiCatalog

namespace Comment

-- A break that follows neither a star nor a gap cannot end an opener.
def Seals (a b : Char) : Prop := b = '\n' → a ≠ '*' ∧ Text.isGap a = false

theorem opener?_eq_none_of_isChain {text : List Char} (h : text.IsChain Seals) :
    opener? text = none := by
  by_contra hsome
  obtain ⟨⟨opener, rest⟩, hfound⟩ := Option.ne_none_iff_exists'.1 hsome
  obtain ⟨gap, hgap, rfl, rfl⟩ := opener?_iff.1 hfound
  have hpair := List.isChain_iff_forall_rel_of_append_cons_cons.1 h
  rcases List.eq_nil_or_concat gap with rfl | ⟨front, last, rfl⟩
  · have hstar : Seals '*' '\n' := hpair (show _ = ['/', '*'] ++ '*' :: '\n' :: rest by simp)
    exact (hstar rfl).1 rfl
  · have hlast : Seals last '\n' :=
      hpair (show _ = '/' :: '*' :: '*' :: front ++ last :: '\n' :: rest by simp)
    have hblank := hgap last (by simp)
    rw [(hlast rfl).2] at hblank
    exact absurd hblank (by decide)

-- Where no break can end an opener, no comment begins.
theorem next?_eq_none_of_isChain {text : List Char} (h : text.IsChain Seals) :
    next? text = none := by
  induction text with
  | nil => rfl
  | cons c rest ih =>
      have hstart : atStart? (c :: rest) = none := by
        rw [atStart?, opener?_eq_none_of_isChain h]
        rfl
      rw [next?, hstart, ih h.tail]
      rfl

-- Somewhere stands an opener whose line ends in a carriage return and a line feed.
def HasReturnedOpener (text : List Char) : Prop :=
  ∃ gap rest, (∀ c ∈ gap, Text.isGap c) ∧
    '/' :: '*' :: '*' :: gap ++ '\r' :: '\n' :: rest <:+ text

theorem HasReturnedOpener.of_suffix {tail text : List Char} (h : HasReturnedOpener tail)
    (htail : tail <:+ text) : HasReturnedOpener text := by
  obtain ⟨gap, rest, hgap, hopener⟩ := h
  exact ⟨gap, rest, hgap, hopener.trans htail⟩

theorem not_hasReturnedOpener_of_not_mem {text : List Char} (h : '\r' ∉ text) :
    ¬ HasReturnedOpener text := by
  rintro ⟨gap, rest, -, hopener⟩
  exact h (hopener.subset (by simp))

-- The comment as it stands in the text with unified breaks.
def unified (c : Comment) : Comment := ⟨Text.unifyBreaks c.lead, Text.unifyBreaks c.body⟩

theorem closing_infix_of_unifyBreaks {text : List Char} (h : closing <:+: Text.unifyBreaks text) :
    closing <:+: text := by
  induction text with
  | nil => exact h
  | cons c rest ih =>
      rw [Text.unifyBreaks_cons] at h
      split at h
      · exact List.infix_cons (ih h)
      · rcases List.infix_cons_iff.1 h with hhere | hlater
        · obtain ⟨more, hmore⟩ := hhere
          obtain ⟨rfl, hslash⟩ := List.cons.inj hmore
          obtain ⟨tail, rfl, -⟩ := Text.unifyBreaks_eq_append ['/'] (by decide) hslash.symm
          exact ⟨[], tail, rfl⟩
        · exact List.infix_cons (ih hlater)

theorem unifyBreaks_append_closing (interior after : List Char) :
    Text.unifyBreaks (interior ++ closing ++ after) =
      Text.unifyBreaks interior ++ closing ++ Text.unifyBreaks after := by
  rw [List.append_assoc, Text.unifyBreaks_append (.inr (by simp [closing])), List.append_assoc,
    Text.unifyBreaks_append (s := closing) (.inl (by decide))]
  rfl

-- No closing mark comes or goes.
theorem cut?_closing_unifyBreaks (text : List Char) :
    Text.cut? closing (Text.unifyBreaks text) = (Text.cut? closing text).map
      fun (interior, after) => (Text.unifyBreaks interior, Text.unifyBreaks after) := by
  cases hcut : Text.cut? closing text with
  | none =>
      have hin := (Text.cut?_eq_none_iff closing text).1 hcut
      exact (Text.cut?_eq_none_iff closing _).2 fun h => hin (closing_infix_of_unifyBreaks h)
  | some pieces =>
      obtain ⟨interior, after⟩ := pieces
      obtain ⟨rfl, hin⟩ := cut?_closing_iff.1 hcut
      exact cut?_closing_iff.2 ⟨unifyBreaks_append_closing interior after,
        fun h => hin (closing_infix_of_unifyBreaks h)⟩

theorem return_not_mem_opener {gap : List Char} (h : ∀ c ∈ gap, Text.isGap c) :
    '\r' ∉ '/' :: '*' :: '*' :: gap ++ ['\n'] := by
  intro hmem
  have hgap : '\r' ∈ gap := by simpa using hmem
  exact absurd (h _ hgap) (by decide)

theorem opener?_unifyBreaks {text : List Char} (h : ¬ HasReturnedOpener text) :
    opener? (Text.unifyBreaks text) = (opener? text).map
      fun (opener, rest) => (opener, Text.unifyBreaks rest) := by
  cases hopener : opener? text with
  | some found =>
      obtain ⟨opener, rest⟩ := found
      obtain ⟨gap, hgap, rfl, rfl⟩ := opener?_iff.1 hopener
      exact opener?_iff.2 ⟨gap, hgap, rfl,
        Text.unifyBreaks_append_of_not_mem (return_not_mem_opener hgap) rest⟩
  | none =>
      by_contra hsome
      obtain ⟨⟨opener, rest⟩, hfound⟩ := Option.ne_none_iff_exists'.1 hsome
      obtain ⟨gap, hgap, rfl, htext⟩ := opener?_iff.1 hfound
      have hbreak : '\n' ∉ '/' :: '*' :: '*' :: gap := by
        intro hmem
        have hmem : '\n' ∈ gap := by simpa using hmem
        exact absurd (hgap _ hmem) (by decide)
      rw [List.append_assoc] at htext
      obtain ⟨behind, rfl, hbehind⟩ := Text.unifyBreaks_eq_append _ hbreak htext
      -- the break behind the opener is a line feed, or a carriage return and one
      cases behind with
      | nil => cases hbehind
      | cons c behind =>
          rw [Text.unifyBreaks_cons] at hbehind
          split at hbehind
          · rename_i hdrop
            obtain ⟨rfl, hnext⟩ := hdrop
            obtain ⟨tail, rfl⟩ := List.head?_eq_some_iff.1 hnext
            exact h ⟨gap, tail, hgap, List.suffix_refl _⟩
          · obtain ⟨rfl, -⟩ := List.cons.inj hbehind
            have hthere := opener?_iff.2 ⟨gap, hgap, rfl,
              (by simp : '/' :: '*' :: '*' :: gap ++ '\n' :: behind = _ ++ behind)⟩
            rw [hthere] at hopener
            cases hopener

theorem afterOpener?_unifyBreaks (text : List Char) :
    afterOpener? (Text.unifyBreaks text) = (afterOpener? text).map
      fun (decoration, body) => (Text.unifyBreaks decoration, Text.unifyBreaks body) := by
  have htake := Text.takeWhile_unifyBreaks (p := Text.isBlank) rfl text
  have hdrop := Text.dropWhile_unifyBreaks (p := Text.isBlank) rfl text
  by_cases hstar : ∃ rest, text.dropWhile Text.isBlank = '*' :: rest
  · obtain ⟨rest, hrest⟩ := hstar
    have hgaps := Text.takeWhile_unifyBreaks (p := Text.isGap) rfl rest
    have hcut := cut?_closing_unifyBreaks (rest.dropWhile Text.isGap)
    rw [← Text.dropWhile_unifyBreaks (p := Text.isGap) rfl rest] at hcut
    rw [hrest, Text.unifyBreaks_cons_of_ne (by decide)] at hdrop
    cases hbody : Text.cut? closing (rest.dropWhile Text.isGap) with
    | some pieces =>
        obtain ⟨body, after⟩ := pieces
        rw [hbody] at hcut
        have hlead : Text.unifyBreaks
            (text.takeWhile Text.isBlank ++ '*' :: rest.takeWhile Text.isGap) =
            Text.unifyBreaks (text.takeWhile Text.isBlank) ++
              '*' :: Text.unifyBreaks (rest.takeWhile Text.isGap) := by
          rw [Text.unifyBreaks_append (.inr (by simp)), Text.unifyBreaks_cons_of_ne (by decide)]
        rw [afterOpener?_star_some hdrop hcut, afterOpener?_star_some hrest hbody, htake, hgaps,
          ← hlead]
        rfl
    | none =>
        rw [hbody] at hcut
        rw [afterOpener?_star_none hdrop hcut, afterOpener?_star_none hrest hbody, htake]
        have hslash := Text.head?_unifyBreaks_iff (c := '/') (by decide) (by decide) rest
        by_cases hhead : rest.head? = some '/'
        · rw [if_pos hhead, if_pos (hslash.2 hhead)]
          rfl
        · rw [if_neg hhead, if_neg (mt hslash.1 hhead)]
          rfl
  · have hplain : ∀ rest, text.dropWhile Text.isBlank ≠ '*' :: rest :=
      fun rest heq => hstar ⟨rest, heq⟩
    have hplain' : ∀ rest, (Text.unifyBreaks text).dropWhile Text.isBlank ≠ '*' :: rest := by
      intro rest heq
      obtain ⟨tail, htail, -⟩ := Text.unifyBreaks_eq_append ['*'] (by decide)
        (hdrop.symm.trans heq)
      exact hplain tail htail
    rw [afterOpener?_plain hplain, afterOpener?_plain hplain', hdrop, htake,
      cut?_closing_unifyBreaks, Option.map_map, Option.map_map]
    rfl

theorem ofText?_unifyBreaks {text : List Char} (h : ¬ HasReturnedOpener text) :
    ofText? (Text.unifyBreaks text) = (ofText? text).map unified := by
  rw [ofText?, ofText?, opener?_unifyBreaks h]
  cases hopener : opener? text with
  | none => rfl
  | some found =>
      obtain ⟨opener, rest⟩ := found
      obtain ⟨gap, hgap, rfl, -⟩ := opener?_iff.1 hopener
      simp only [Option.map_some, Option.bind_some, afterOpener?_unifyBreaks, Option.map_map]
      congr 1
      funext piece
      simp only [Function.comp_apply, unified, Comment.mk.injEq, and_true]
      rw [Text.unifyBreaks_append_of_not_mem (return_not_mem_opener hgap)]

-- The decoration does not end between a return and its feed: the search would
-- find another body in the unified text.
theorem unifyBreaks_lead_append_body {text : List Char} {c : Comment}
    (hopener : ¬ HasReturnedOpener text) (h : ofText? text = some c) :
    Text.unifyBreaks (c.lead ++ c.body) = c.unified.lead ++ c.unified.body := by
  by_cases hmeet : c.lead.getLast? = some '\r' ∧ c.body.head? = some '\n'
  · obtain ⟨hlast, hfirst⟩ := hmeet
    obtain ⟨front, hlead⟩ := List.getLast?_eq_some_iff.1 hlast
    obtain ⟨more, hbody⟩ := List.head?_eq_some_iff.1 hfirst
    obtain ⟨-, after, htext⟩ := ofText?_eq_some h
    have hread := ofText?_unifyBreaks hopener
    rw [h] at hread
    obtain ⟨-, after', htext'⟩ := ofText?_eq_some hread
    have hfront : ∀ rest : List Char, rest.head? ≠ some '\n' →
        Text.unifyBreaks (front ++ rest) = Text.unifyBreaks front ++ Text.unifyBreaks rest :=
      fun rest hrest => Text.unifyBreaks_append (.inr hrest)
    have hunified : c.unified.lead = Text.unifyBreaks front ++ ['\r'] := by
      rw [unified, hlead, hfront ['\r'] (by decide)]
      rfl
    rw [hunified, htext, hlead, hbody, List.append_assoc, List.append_assoc, List.append_assoc,
      hfront _ (by simp), List.append_assoc, List.append_assoc, List.append_assoc,
      List.append_cancel_left_eq] at htext'
    simp [Text.unifyBreaks_return_newline] at htext'
  · rw [not_and_or] at hmeet
    exact Text.unifyBreaks_append hmeet

theorem findFrom_append {c : Comment} {after : List Char} (loc : Location)
    (h : ofText? (c.lead ++ c.body ++ closing ++ after) = some c) :
    findFrom loc 0 (c.lead ++ c.body ++ closing ++ after) =
      (loc, c) :: findFrom (loc.advanceAll (c.lead ++ c.body ++ closing)) 0 after := by
  have hsize : c.size = (c.lead ++ c.body ++ closing).length := by
    simp only [size, List.length_append]
  rw [findFrom_cons_of_some h, hsize, List.take_left, List.drop_left]

theorem findFrom_cons_of_none {loc : Location} {a : Char} {rest : List Char}
    (h : ofText? (a :: rest) = none) :
    findFrom loc 0 (a :: rest) = findFrom (loc.advance a) 0 rest := by
  rw [findFrom]
  simp only [h]

-- The same comments are found on the same lines. The induction is on the length
-- of the text, which each step shortens by a comment or by a character.
theorem forall₂_findFrom {text : List Char} (h : ¬ HasReturnedOpener text) (loc loc' : Location)
    (hline : loc'.line = loc.line) :
    List.Forall₂ (fun found given => found.1.line = given.1.line ∧ found.2 = given.2.unified)
      (findFrom loc' 0 (Text.unifyBreaks text)) (findFrom loc 0 text) := by
  induction hlength : text.length using Nat.strong_induction_on generalizing text loc loc' with
  | _ n ih =>
      have hshorter : ∀ {tail : List Char} {here here' : Location}, tail <:+ text →
          tail.length < n → here'.line = here.line →
          List.Forall₂ (fun found given => found.1.line = given.1.line ∧ found.2 = given.2.unified)
            (findFrom here' 0 (Text.unifyBreaks tail)) (findFrom here 0 tail) :=
        fun htail hlt hhere => ih _ hlt (fun hopener => h (hopener.of_suffix htail)) _ _ hhere rfl
      have hread := ofText?_unifyBreaks h
      cases hfound : ofText? text with
      | some c =>
          have hpieces := unifyBreaks_lead_append_body h hfound
          rw [hfound] at hread
          obtain ⟨-, after, rfl⟩ := ofText?_eq_some hfound
          rw [unifyBreaks_append_closing, hpieces] at hread ⊢
          rw [findFrom_append loc hfound, findFrom_append loc' hread]
          refine .cons ⟨hline, rfl⟩ (hshorter (List.suffix_append _ after) ?_ ?_)
          · simp only [closing, List.length_append, List.length_cons] at hlength
            omega
          · rw [Location.line_advanceAll, Location.line_advanceAll, hline, ← hpieces,
              List.count_append, List.count_append, Text.count_newline_unifyBreaks]
      | none =>
          rw [hfound] at hread
          cases text with
          | nil => exact .nil
          | cons a rest =>
              have hlt : rest.length < n := by
                rw [← hlength]
                exact Nat.lt_succ_self _
              have hsuffix : rest <:+ a :: rest := List.suffix_cons a rest
              have hstep := Location.line_advanceAll loc [a]
              have hstep' := Location.line_advanceAll loc' [a]
              change (loc.advance a).line = _ at hstep
              change (loc'.advance a).line = _ at hstep'
              rw [findFrom_cons_of_none hfound]
              rw [Text.unifyBreaks_cons] at hread ⊢
              split
              · rename_i hdrop
                refine hshorter hsuffix hlt ?_
                rw [hstep, hdrop.1, hline]
                rfl
              · rename_i hkeep
                rw [if_neg hkeep] at hread
                rw [findFrom_cons_of_none hread]
                refine hshorter hsuffix hlt ?_
                rw [hstep, hstep', hline]

end Comment

namespace TagLine

-- A tag and the line it stands on, without its payload.
def heading (l : TagLine) : String × Nat := (l.tag, l.line)

theorem afterMark?_append (text : List Char) {tail : List Char}
    (h : ∀ c ∈ tail.head?, Text.isBlank c) :
    afterMark? (text ++ tail) = (afterMark? text).map (· ++ tail) := by
  cases tail with
  | nil => simp
  | cons b tail =>
      have hmark : b ∉ ['@', 'a', 'A', 'p', 'P', 'i', 'I'] := by
        intro hmem
        have hblank : (['@', 'a', 'A', 'p', 'P', 'i', 'I'].all (!Text.isBlank ·)) := by decide
        have hb := List.all_eq_true.1 hblank b hmem
        rw [h b rfl] at hb
        cases hb
      simp only [List.mem_cons, List.not_mem_nil, or_false, not_or] at hmark
      -- the mark ends within the text, or the blank stands where a letter is wanted
      rcases text with _ | ⟨x, _ | ⟨y, _ | ⟨z, _ | ⟨w, rest⟩⟩⟩⟩
      · unfold afterMark?
        split <;> simp_all
      · unfold afterMark?
        split <;> simp_all
      · unfold afterMark?
        split <;> simp_all
      · unfold afterMark?
        split <;> simp_all
      · by_cases hx : x = '@'
        · subst hx
          simp only [List.cons_append, afterMark?]
          split <;> rfl
        · unfold afterMark?
          split <;> simp_all

theorem map_heading_ofText? (n : Nat) (text : List Char) {tail : List Char}
    (h : ∀ c ∈ tail.head?, Text.isBlank c) :
    (ofText? n (text ++ tail)).map heading = (ofText? n text).map heading := by
  rw [ofText?, ofText?, afterMark?_append text h]
  cases afterMark? text with
  | none => rfl
  | some rest =>
      cases tail with
      | nil => simp
      | cons b tail =>
          have hb : Text.isBlank b := h b rfl
          have hname := isNameChar_of_isBlank hb
          simp only [Option.map_some, Option.bind_some, Text.takeWhile_append_cons hname,
            Text.dropWhile_append_cons hname]
          cases rest.dropWhile isNameChar with
          | nil => simp [hb, heading]
          | cons c more =>
              simp only [List.cons_append]
              split <;> rfl

end TagLine

namespace Block

theorem find_eq_nil_of_isChain {text : List Char} (h : text.IsChain Comment.Seals)
    (path : String) : find path text = [] := by
  rw [find, Comment.find, Comment.findFrom_eq_nil (Comment.next?_eq_none_of_isChain h)]
  rfl

def headings (block : Block) : List (String × Nat) := block.lines.map TagLine.heading

-- The continuation lines of a tag have no part in its heading.
theorem map_heading_split (first : Nat) (body : List Char) :
    (split first body).2.map TagLine.heading = (numbered first body).filterMap
      fun (n, line) => (TagLine.ofText? n line).map TagLine.heading := by
  simp only [split, List.map_filterMap]
  induction numbered first body with
  | nil => rfl
  | cons entry rest ih =>
      obtain ⟨n, line⟩ := entry
      rw [List.filterMap_cons, ← ih]
      simp only [gather]
      split
      · have htail : ∃ tail, Text.unlines (line :: (gather rest).1) = line ++ tail ∧
            ∀ c ∈ tail.head?, Text.isBlank c := by
          cases (gather rest).1 with
          | nil => exact ⟨[], by simp [Text.unlines], by simp⟩
          | cons next more => exact ⟨_, Text.unlines_cons (by simp), by simp; decide⟩
        obtain ⟨tail, hunlines, hblank⟩ := htail
        rw [List.filterMap_cons, hunlines, TagLine.map_heading_ofText? n line hblank]
      · rename_i hopens
        have hmark : TagLine.afterMark? line = none := by
          unfold TagLine.afterMark?
          split
          · exact absurd rfl hopens
          · rfl
        rw [TagLine.ofText?, hmark]
        rfl

theorem undecorate_append_return (line : List Char) :
    undecorate (line ++ ['\r']) = undecorate line ++ ['\r'] := by
  have hstart : Text.trimStart (line ++ ['\r']) =
      if (Text.trimStart line).isEmpty then [] else Text.trimStart line ++ ['\r'] :=
    List.dropWhile_append
  unfold undecorate
  rw [hstart]
  rcases Text.trimStart line with _ | ⟨c, rest⟩
  · rfl
  · rw [if_neg (by simp)]
    by_cases hstar : c = '*'
    · subst hstar
      rcases rest with _ | ⟨d, rest⟩
      · rfl
      · by_cases hspace : d = ' '
        · subst hspace
          rfl
        · simp [hspace]
    · by_cases hat : c = '@'
      · subst hat
        rfl
      · simp [hstar, hat]

-- Nor does a carriage return at the end of the line.
theorem heading_of_return {line raw : List Char} (h : raw = line ∨ raw = line ++ ['\r'])
    (n : Nat) :
    (TagLine.ofText? n raw).map TagLine.heading = (TagLine.ofText? n line).map TagLine.heading := by
  rcases h with rfl | rfl
  · rfl
  · exact TagLine.map_heading_ofText? n line (by simp; decide)

theorem filterMap_heading_zipIdx {lines raws : List (List Char)}
    (h : List.Forall₂ (fun line raw => raw = line ∨ raw = line ++ ['\r']) lines raws) (n : Nat) :
    (((lines.map undecorate).zipIdx n).map Prod.swap).filterMap
        (fun (n, line) => (TagLine.ofText? n line).map TagLine.heading) =
      (((raws.map undecorate).zipIdx n).map Prod.swap).filterMap
        (fun (n, line) => (TagLine.ofText? n line).map TagLine.heading) := by
  induction h generalizing n with
  | nil => rfl
  | @cons line raw lines raws hraw _ ih =>
      have hundecorate : undecorate raw = undecorate line ∨
          undecorate raw = undecorate line ++ ['\r'] := by
        rcases hraw with rfl | rfl
        · exact .inl rfl
        · exact .inr (undecorate_append_return line)
      simp only [List.map_cons, List.zipIdx_cons, Prod.swap_prod_mk, List.filterMap_cons,
        heading_of_return hundecorate, ih (n + 1)]

theorem map_heading_split_unifyBreaks (first : Nat) (body : List Char) :
    (split first (Text.unifyBreaks body)).2.map TagLine.heading =
      (split first body).2.map TagLine.heading := by
  rw [map_heading_split, map_heading_split]
  have hlines := Text.lines_unifyBreaks body
  unfold numbered
  generalize Text.lines (Text.unifyBreaks body) = lines at hlines
  generalize Text.lines body = raws at hlines
  cases hlines with
  | nil => rfl
  | cons hfirst hrest =>
      simp only [List.filterMap_cons, heading_of_return hfirst,
        filterMap_heading_zipIdx hrest (first + 1)]

-- Carriage returns change neither the tags nor the lines they are reported on.
theorem headings_find_unifyBreaks {text : List Char} (h : ¬ Comment.HasReturnedOpener text)
    (path path' : String) :
    (find path (Text.unifyBreaks text)).map headings = (find path' text).map headings := by
  have hfound := Comment.forall₂_findFrom h .start .start rfl
  simp only [find, Comment.find, List.map_map]
  generalize Comment.findFrom .start 0 (Text.unifyBreaks text) = founds at hfound
  generalize Comment.findFrom .start 0 text = givens at hfound
  induction hfound with
  | nil => rfl
  | @cons found given _ _ hhead _ ih =>
      obtain ⟨place, c⟩ := found
      obtain ⟨place', c'⟩ := given
      obtain ⟨hline, hcomment⟩ := hhead
      change c = c'.unified at hcomment
      change place.line = place'.line at hline
      have hfirst : (place.advanceAll c.lead).line = (place'.advanceAll c'.lead).line := by
        rw [hcomment, Location.line_advanceAll, Location.line_advanceAll, hline, Comment.unified,
          Text.count_newline_unifyBreaks]
      have hheadings : (ofComment path place c).headings = (ofComment path' place' c').headings := by
        change (split _ c.body).2.map TagLine.heading = (split _ c'.body).2.map TagLine.heading
        rw [hfirst, hcomment]
        exact map_heading_split_unifyBreaks _ c'.body
      simp only [List.map_cons, Function.comp_apply, hheadings, ih]

end Block

end ApiCatalog
