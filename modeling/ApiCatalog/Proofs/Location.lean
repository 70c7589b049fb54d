import ApiCatalog.Location

namespace ApiCatalog.Location

-- The place behind a text, counted from the text alone.
def behind (s : List Char) : Location where
  offset := (String.ofList s).utf8ByteSize
  line := s.count '\n' + 1
  column := (s.reverse.takeWhile (· ≠ '\n')).length + 1

theorem advance_behind (s : List Char) (c : Char) : (behind s).advance c = behind (s ++ [c]) := by
  have hoffset : (String.ofList (s ++ [c])).utf8ByteSize =
      (String.ofList s).utf8ByteSize + c.utf8Size := by
    rw [String.ofList_append, String.utf8ByteSize_append]
    exact congrArg _ String.utf8ByteSize_singleton
  by_cases hc : c = '\n'
  · subst hc
    simp only [advance, behind, hoffset]
    simp
  · simp only [advance, behind, hoffset]
    simp [hc]

theorem advanceAll_behind (s t : List Char) : (behind s).advanceAll t = behind (s ++ t) := by
  induction t generalizing s with
  | nil => rw [List.append_nil]; rfl
  | cons c rest ih =>
      rw [advanceAll, List.foldl_cons, ← advanceAll, advance_behind, ih, List.append_assoc,
        List.singleton_append]

theorem advanceAll_append (loc : Location) (s t : List Char) :
    loc.advanceAll (s ++ t) = (loc.advanceAll s).advanceAll t :=
  List.foldl_append

theorem offset_le_advanceAll (loc : Location) (s : List Char) :
    loc.offset ≤ (loc.advanceAll s).offset := by
  induction s generalizing loc with
  | nil => exact Nat.le_refl _
  | cons c rest ih =>
      have hstep : loc.offset ≤ (loc.advance c).offset := by
        unfold advance
        split <;> exact Nat.le_add_right _ _
      exact Nat.le_trans hstep (ih (loc.advance c))

-- Every character takes at least one byte.
theorem offset_lt_advanceAll (loc : Location) {s : List Char} (h : s ≠ []) :
    loc.offset < (loc.advanceAll s).offset := by
  cases s with
  | nil => exact absurd rfl h
  | cons c rest =>
      have hstep : loc.offset < (loc.advance c).offset := by
        have hsize := c.utf8Size_pos
        unfold advance
        split <;> simpa using hsize
      exact Nat.lt_of_lt_of_le hstep (offset_le_advanceAll (loc.advance c) rest)

theorem line_advanceAll (loc : Location) (s : List Char) :
    (loc.advanceAll s).line = loc.line + s.count '\n' := by
  induction s generalizing loc with
  | nil => rfl
  | cons c rest ih =>
      have hstep : (loc.advance c).line = loc.line + if c = '\n' then 1 else 0 := by
        unfold advance
        split <;> rfl
      rw [advanceAll, List.foldl_cons, ← advanceAll, ih, hstep, List.count_cons]
      simp only [beq_iff_eq]
      omega

end ApiCatalog.Location
