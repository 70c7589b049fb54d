import ApiCatalog.Proofs.Location
import ApiCatalog.Proofs.Text
import Mathlib.Data.Prod.Lex
import Mathlib.Order.Bounds.Basic

namespace ApiCatalog

namespace Text

theorem flatMap_lines (s : List Char) : (lines s).flatMap (· ++ ['\n']) = s ++ ['\n'] := by
  have hjoin : ∀ {ls : List (List Char)}, ls ≠ [] →
      ls.flatMap (· ++ ['\n']) = unlines ls ++ ['\n'] := by
    intro ls hne
    induction ls with
    | nil => exact absurd rfl hne
    | cons l ls ih =>
        by_cases hls : ls = []
        · subst hls
          simp [unlines]
        · rw [List.flatMap_cons, ih hls, unlines_cons hls]
          simp
  have hne : lines s ≠ [] := splitAt_ne_nil '\n' s
  rw [hjoin hne, unlines_lines]

-- Whole lines in front of a text are its first lines.
theorem flatMap_take_lines {before : List Char} (h : before = [] ∨ ∃ front, before = front ++ ['\n'])
    (rest : List Char) :
    ((lines (before ++ rest)).take (before.count '\n')).flatMap (· ++ ['\n']) = before := by
  rcases h with rfl | ⟨front, rfl⟩
  · rfl
  · have hcount : (front ++ ['\n']).count '\n' = (lines front).length := by
      rw [length_lines, List.count_append, List.count_singleton_self]
    rw [List.append_assoc, List.singleton_append, lines_append_newline, hcount, List.take_left,
      flatMap_lines]

-- A text is whole lines, and what there is of the next one.
theorem exists_begun_line (s : List Char) :
    ∃ front begun, s = front ++ begun ∧ '\n' ∉ begun ∧
      (front = [] ∨ ∃ rest, front = rest ++ ['\n']) := by
  obtain ⟨front, begun, hbreak, hbegun⟩ := exists_last_break s
  cases front with
  | nil => exact ⟨[], begun, (List.cons.inj hbreak).2, hbegun, .inl rfl⟩
  | cons c front =>
      obtain ⟨-, rfl⟩ := List.cons.inj (hbreak.trans (List.cons_append ..))
      exact ⟨front ++ ['\n'], begun, by simp, hbegun, .inr ⟨front, rfl⟩⟩

end Text

namespace Location

section Prefixes

variable {source s t : List Char}

theorem offset_behind_append (s : List Char) {t : List Char} (h : t ≠ []) :
    (behind s).offset < (behind (s ++ t)).offset := by
  rw [← advanceAll_behind]
  exact offset_lt_advanceAll (behind s) h

theorem offset_behind_mono (h : s <+: t) : (behind s).offset ≤ (behind t).offset := by
  obtain ⟨rest, rfl⟩ := h
  rw [← advanceAll_behind]
  exact offset_le_advanceAll (behind s) rest

-- Of two beginnings of a text the shorter one takes fewer bytes.
theorem exists_append_of_offset_lt (hs : s <+: source) (ht : t <+: source)
    (h : (behind s).offset < (behind t).offset) : ∃ rest, rest ≠ [] ∧ t = s ++ rest := by
  rcases List.prefix_or_prefix_of_prefix hs ht with ⟨rest, rfl⟩ | hlonger
  · refine ⟨rest, ?_, rfl⟩
    rintro rfl
    simp at h
  · exact absurd h (Nat.not_lt.2 (offset_behind_mono hlonger))

theorem eq_of_offset_eq (hs : s <+: source) (ht : t <+: source)
    (h : (behind s).offset = (behind t).offset) : s = t := by
  have heq : ∀ {s t : List Char}, s <+: t → (behind s).offset = (behind t).offset → s = t := by
    rintro s _ ⟨rest, rfl⟩ hoffset
    by_cases hrest : rest = []
    · rw [hrest, List.append_nil]
    · exact absurd hoffset (offset_behind_append s hrest).ne
  rcases List.prefix_or_prefix_of_prefix hs ht with hst | hts
  · exact heq hst h
  · exact (heq hts h.symm).symm

end Prefixes

section Boundaries

-- In front of a character of the text, or at its end: the bytes before it are whole characters.
def IsBoundary (source : String) (n : Nat) : Prop := String.Pos.Raw.IsValid source ⟨n⟩

theorem isBoundary_iff (source : String) (n : Nat) :
    IsBoundary source n ↔
      ∃ before after, source.toList = before ++ after ∧ (behind before).offset = n := by
  rw [IsBoundary, String.Pos.Raw.isValid_iff_exists_append]
  constructor
  · rintro ⟨before, after, rfl, hn⟩
    refine ⟨before.toList, after.toList, String.toList_append, ?_⟩
    rw [behind, String.ofList_toList]
    exact (congrArg String.Pos.Raw.byteIdx hn).symm
  · rintro ⟨before, after, hsource, rfl⟩
    refine ⟨String.ofList before, String.ofList after, ?_, rfl⟩
    rw [← String.ofList_append, ← hsource, String.ofList_toList]

-- A walk stops at the end, or in front of the first character that does not fit.
theorem exists_walk {limit : Nat} {passed : List Char} (rest : List Char)
    (h : (behind passed).offset ≤ limit) :
    ∃ reached ahead, rest = reached ++ ahead ∧
      walk limit (behind passed) rest = behind (passed ++ reached) ∧
      (behind (passed ++ reached)).offset ≤ limit ∧
      ∀ c ∈ ahead.head?, limit < (behind (passed ++ reached ++ [c])).offset := by
  induction rest generalizing passed with
  | nil => exact ⟨[], [], rfl, by rw [List.append_nil]; rfl, by rwa [List.append_nil], by simp⟩
  | cons c rest ih =>
      have hnext : (behind passed).offset + c.utf8Size = (behind (passed ++ [c])).offset := by
        rw [← advance_behind]
        unfold advance
        split <;> rfl
      rw [walk, hnext, advance_behind]
      split
      · rename_i hfits
        obtain ⟨reached, ahead, hrest, hwalk, hreached, hahead⟩ := ih hfits
        refine ⟨c :: reached, ahead, by rw [hrest, List.cons_append], ?_⟩
        rw [List.append_cons passed c reached]
        exact ⟨hwalk, hreached, hahead⟩
      · rename_i hcut
        refine ⟨[], c :: rest, rfl, by rw [List.append_nil], by rwa [List.append_nil], ?_⟩
        simpa using hcut

theorem exists_ofOffset (source : String) (offset : Nat) :
    ∃ before after, source.toList = before ++ after ∧ ofOffset source offset = behind before ∧
      (behind before).offset ≤ offset ∧
      ∀ c ∈ after.head?, offset < (behind (before ++ [c])).offset :=
  @exists_walk offset [] source.toList (Nat.zero_le offset)

theorem isGreatest_ofOffset (source : String) (offset : Nat) :
    IsGreatest {n | IsBoundary source n ∧ n ≤ min offset source.utf8ByteSize}
      (ofOffset source offset).offset := by
  obtain ⟨before, after, hsource, hloc, hbefore, hafter⟩ := exists_ofOffset source offset
  rw [hloc]
  constructor
  · have hend : source.utf8ByteSize = (behind source.toList).offset := by
      rw [behind, String.ofList_toList]
    refine ⟨(isBoundary_iff source _).2 ⟨before, after, hsource, rfl⟩, le_min hbefore ?_⟩
    rw [hend, hsource]
    exact offset_behind_mono (List.prefix_append before after)
  · rintro n ⟨hn, hle⟩
    obtain ⟨front, back, hfront, rfl⟩ := (isBoundary_iff source n).1 hn
    by_contra hlt
    obtain ⟨rest, hrest, rfl⟩ := exists_append_of_offset_lt ⟨after, hsource.symm⟩
      ⟨back, hfront.symm⟩ (Nat.lt_of_not_le hlt)
    obtain ⟨c, more, rfl⟩ := List.exists_cons_of_ne_nil hrest
    -- the next character was not taken, so no boundary behind it is within the offset
    have hahead : after = c :: more ++ back := by
      rw [hsource, List.append_assoc] at hfront
      exact List.append_cancel_left hfront
    have hcut := hafter c (by rw [hahead]; rfl)
    have hmore : (behind (before ++ [c])).offset ≤ (behind (before ++ c :: more)).offset :=
      offset_behind_mono ⟨more, by simp⟩
    exact absurd (hmore.trans (hle.trans (min_le_left _ _))) (Nat.not_le.2 hcut)

theorem ofOffset_behind {source : String} {before after : List Char}
    (h : source.toList = before ++ after) :
    ofOffset source (behind before).offset = behind before := by
  obtain ⟨front, back, hfront, hloc, hoffset, -⟩ :=
    exists_ofOffset source (behind before).offset
  have hboundary : IsBoundary source (behind before).offset :=
    (isBoundary_iff source _).2 ⟨before, after, h, rfl⟩
  have hsize : (behind before).offset ≤ source.utf8ByteSize := hboundary.le_rawEndPos
  have hgreatest := (isGreatest_ofOffset source (behind before).offset).2
    ⟨hboundary, le_min le_rfl hsize⟩
  rw [hloc] at hgreatest
  rw [hloc, eq_of_offset_eq ⟨back, hfront.symm⟩ ⟨after, h.symm⟩ (le_antisymm hoffset hgreatest)]

end Boundaries

section Lines

-- Line and column lead back to the text that was passed: so many whole lines, and so many
-- characters of the next.
theorem exists_line_behind (before after : List Char) :
    ∃ line, (Text.lines (before ++ after))[(behind before).line - 1]? = some line ∧
      (behind before).column - 1 ≤ line.length ∧
      ((Text.lines (before ++ after)).take ((behind before).line - 1)).flatMap (· ++ ['\n']) ++
        line.take ((behind before).column - 1) = before := by
  obtain ⟨front, begun, hbefore, hbegun, hopened⟩ := Text.exists_begun_line before
  obtain ⟨more, back, rfl, hmore, hclosed⟩ := Text.exists_next_break after
  have hline : (behind before).line - 1 = front.count '\n' := by
    simp [behind, hbefore, List.count_eq_zero_of_not_mem hbegun]
  have hcolumn : (behind before).column - 1 = begun.length := by
    have hall : ∀ c ∈ begun.reverse, decide (c ≠ '\n') = true := by
      intro c hc
      simpa using fun heq : c = '\n' => hbegun (heq ▸ List.mem_reverse.1 hc)
    have hstop : (front.reverse).takeWhile (fun c => decide (c ≠ '\n')) = [] := by
      rcases hopened with rfl | ⟨rest, rfl⟩ <;> simp
    rw [behind, hbefore, List.reverse_append, List.takeWhile_append_of_pos hall, hstop]
    simp
  have hisLine : Text.IsLine front (begun ++ more) back :=
    ⟨by simp [hbegun, hmore], hopened, hclosed⟩
  have htext : before ++ (more ++ back) = front ++ (begun ++ more) ++ back := by
    simp [hbefore]
  refine ⟨begun ++ more, ?_, ?_, ?_⟩
  · rw [htext, hline]
    exact hisLine.getElem?_lines
  · rw [hcolumn, List.length_append]
    exact Nat.le_add_right _ _
  · rw [htext, hline, hcolumn, List.take_left, List.append_assoc front,
      Text.flatMap_take_lines hopened, hbefore]

theorem line_behind_le (s : List Char) : (behind s).line ≤ s.length + 1 :=
  Nat.succ_le_succ List.count_le_length

theorem column_behind_le (s : List Char) : (behind s).column ≤ s.length + 1 := by
  have hrun := (List.takeWhile_sublist (l := s.reverse) fun c => decide (c ≠ '\n')).length_le
  rw [List.length_reverse] at hrun
  exact Nat.succ_le_succ hrun

end Lines

section Order

-- Where a location stands on the page: by line, then by column.
def place (loc : Location) : Nat ×ₗ Nat := toLex (loc.line, loc.column)

theorem place_lt_advance (loc : Location) (c : Char) : loc.place < (loc.advance c).place := by
  unfold place advance
  rw [Prod.Lex.toLex_lt_toLex]
  split
  · exact .inl (Nat.lt_succ_self _)
  · exact .inr ⟨rfl, Nat.lt_succ_self _⟩

theorem place_lt_advanceAll (loc : Location) {s : List Char} (h : s ≠ []) :
    loc.place < (loc.advanceAll s).place := by
  induction s generalizing loc with
  | nil => exact absurd rfl h
  | cons c rest ih =>
      have hstep := place_lt_advance loc c
      by_cases hrest : rest = []
      · rw [hrest]
        exact hstep
      · exact hstep.trans (ih (loc.advance c) hrest)

theorem place_ofOffset_lt {source : String} {a b : Nat} (ha : IsBoundary source a)
    (hb : IsBoundary source b) (h : a < b) :
    (ofOffset source a).place < (ofOffset source b).place := by
  obtain ⟨s, restₐ, hs, rfl⟩ := (isBoundary_iff source a).1 ha
  obtain ⟨t, restᵦ, ht, rfl⟩ := (isBoundary_iff source b).1 hb
  obtain ⟨between, hne, rfl⟩ := exists_append_of_offset_lt ⟨restₐ, hs.symm⟩ ⟨restᵦ, ht.symm⟩ h
  rw [ofOffset_behind hs, ofOffset_behind ht, ← advanceAll_behind]
  exact place_lt_advanceAll (behind s) hne

end Order

-- An offset is moved back to the nearest boundary; line and column say how much text stands
-- in front of it, and they order the boundaries as their offsets do.
theorem ofOffset_embeds_boundaries (source : String) :
    (∀ offset,
      IsGreatest {n | IsBoundary source n ∧ n ≤ min offset source.utf8ByteSize}
        (ofOffset source offset).offset ∧
      1 ≤ (ofOffset source offset).line ∧ 1 ≤ (ofOffset source offset).column ∧
      (source.length < UInt32.size - 1 →
        (ofOffset source offset).line < UInt32.size ∧
          (ofOffset source offset).column < UInt32.size) ∧
      ∃ line, (Text.lines source.toList)[(ofOffset source offset).line - 1]? = some line ∧
        (ofOffset source offset).column - 1 ≤ line.length ∧
        (String.ofList (((Text.lines source.toList).take
            ((ofOffset source offset).line - 1)).flatMap (· ++ ['\n']) ++
          line.take ((ofOffset source offset).column - 1))).utf8ByteSize =
            (ofOffset source offset).offset) ∧
    ∀ a b, IsBoundary source a → IsBoundary source b →
      (a < b ↔ (ofOffset source a).place < (ofOffset source b).place) := by
  refine ⟨fun offset => ⟨isGreatest_ofOffset source offset, ?_⟩, fun a b ha hb => ?_⟩
  · obtain ⟨before, after, hsource, hloc, -, -⟩ := exists_ofOffset source offset
    obtain ⟨line, hline, hcolumn, hbefore⟩ := exists_line_behind before after
    rw [hloc, hsource]
    refine ⟨Nat.succ_pos _, Nat.succ_pos _, fun hshort => ?_, line, hline, hcolumn, ?_⟩
    · have hlength : before.length ≤ source.length := by
        rw [← String.length_toList, hsource, List.length_append]
        exact Nat.le_add_right _ _
      have hlines := line_behind_le before
      have hcolumns := column_behind_le before
      omega
    · rw [hbefore]
      rfl
  · refine ⟨place_ofOffset_lt ha hb, fun hplace => ?_⟩
    rcases Nat.lt_trichotomy a b with hlt | rfl | hgt
    · exact hlt
    · exact absurd hplace (lt_irrefl _)
    · exact absurd hplace (place_ofOffset_lt hb ha hgt).asymm

-- The offset falls into the last character; the three before it take four bytes.
example : ofOffset "é\nxé" 5 = ⟨4, 2, 2⟩ := by decide

end Location

end ApiCatalog
