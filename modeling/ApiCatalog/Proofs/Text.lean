import ApiCatalog.Text.Blank
import ApiCatalog.Text.Case
import ApiCatalog.Text.Cut
import Mathlib.Data.List.Basic
import Mathlib.Data.List.Forall2
import Mathlib.Data.List.Infix
import Mathlib.Data.List.TakeWhile

namespace ApiCatalog.Text

section Runs

variable {p : Char → Bool} {c : Char}

-- A character outside the class stops a run wherever it is put.
theorem takeWhile_append_cons (hc : p c = false) (l r : List Char) :
    (l ++ c :: r).takeWhile p = l.takeWhile p := by
  induction l with
  | nil => simp [hc]
  | cons a rest ih => by_cases ha : p a <;> simp [ha, ih]

theorem dropWhile_append_cons (hc : p c = false) (l r : List Char) :
    (l ++ c :: r).dropWhile p = l.dropWhile p ++ c :: r := by
  induction l with
  | nil => simp [hc]
  | cons a rest ih => by_cases ha : p a <;> simp [ha, ih]

section Marks

variable {mark : Char} {s : List Char}

theorem bne_of_not_mem (h : mark ∉ s) : ∀ c ∈ s, (c != mark) = true := by
  intro c hc
  simpa using fun heq : c = mark => h (heq ▸ hc)

theorem not_mem_takeWhile_ne (mark : Char) (s : List Char) : mark ∉ s.takeWhile (· != mark) := by
  intro hmem
  simpa using List.mem_takeWhile_imp hmem

theorem takeWhile_ne_append_cons (h : mark ∉ s) (t : List Char) :
    (s ++ mark :: t).takeWhile (· != mark) = s := by
  rw [takeWhile_append_cons (p := (· != mark)) (by simp),
    List.takeWhile_eq_self_iff.2 (bne_of_not_mem h)]

theorem dropWhile_ne_append_cons (h : mark ∉ s) (t : List Char) :
    (s ++ mark :: t).dropWhile (· != mark) = mark :: t := by
  rw [dropWhile_append_cons (p := (· != mark)) (by simp),
    List.dropWhile_eq_nil_iff.2 (bne_of_not_mem h), List.nil_append]

end Marks

end Runs

section Pieces

theorem splitAt_eq_splitOn (sep : Char) (s : List Char) : splitAt sep s = s.splitOn sep := by
  induction s with
  | nil => simp [splitAt_nil]
  | cons c rest ih =>
      have hsplit : (c :: rest).splitOn sep =
          if c = sep then [] :: rest.splitOn sep else (rest.splitOn sep).modifyHead (c :: ·) := by
        simp [List.splitOn, List.splitOnP_cons_eq_if_modifyHead]
      rw [splitAt_cons, ih, hsplit]
      cases hp : rest.splitOn sep with
      | nil => exact absurd (ih.trans hp) (splitAt_ne_nil sep rest)
      | cons piece more => rfl

theorem splitAt_append_cons (sep : Char) (s t : List Char) :
    splitAt sep (s ++ sep :: t) = splitAt sep s ++ splitAt sep t := by
  induction s with
  | nil => simp [splitAt_nil, splitAt_cons]
  | cons c rest ih =>
      rw [List.cons_append, splitAt_cons, splitAt_cons, ih]
      split
      · rfl
      · cases hpieces : splitAt sep rest with
        | nil => exact absurd hpieces (splitAt_ne_nil sep rest)
        | cons piece more => rfl

theorem splitAt_of_not_mem {sep : Char} {s : List Char} (h : sep ∉ s) : splitAt sep s = [s] := by
  induction s with
  | nil => rfl
  | cons c rest ih =>
      have hc : c ≠ sep := fun heq => h (by simp [heq])
      rw [splitAt_cons, if_neg hc, ih fun hmem => h (List.mem_cons_of_mem c hmem)]

theorem splitAt_intercalate {sep : Char} {pieces : List (List Char)} (hne : pieces ≠ [])
    (h : ∀ piece ∈ pieces, sep ∉ piece) : splitAt sep ([sep].intercalate pieces) = pieces := by
  rw [splitAt_eq_splitOn, List.splitOn_intercalate sep h hne]

theorem lines_unlines {ls : List (List Char)} (hne : ls ≠ []) (h : ∀ l ∈ ls, '\n' ∉ l) :
    lines (unlines ls) = ls :=
  splitAt_intercalate hne h

theorem not_mem_of_mem_splitAt {sep : Char} {s piece : List Char} (h : piece ∈ splitAt sep s) :
    sep ∉ piece := by
  induction s generalizing piece with
  | nil => simp_all [splitAt_nil]
  | cons c rest ih =>
      rw [splitAt_cons] at h
      split at h
      · rcases List.mem_cons.1 h with rfl | h
        · simp
        · exact ih h
      · rename_i hc
        cases hpieces : splitAt sep rest with
        | nil => exact absurd hpieces (splitAt_ne_nil sep rest)
        | cons first more =>
            rw [hpieces] at h
            rcases List.mem_cons.1 h with rfl | h
            · have hfirst : sep ∉ first := ih (by simp [hpieces])
              simp [hfirst, Ne.symm hc]
            · exact ih (by simp [hpieces, h])

theorem splitAt_inj (sep : Char) {s t : List Char} : splitAt sep s = splitAt sep t ↔ s = t := by
  constructor
  · intro h
    rw [← intercalate_splitAt sep s, h, intercalate_splitAt]
  · rintro rfl
    rfl

theorem mem_of_mem_intercalate {sep c : Char} {pieces : List (List Char)}
    (h : c ∈ [sep].intercalate pieces) : c = sep ∨ ∃ piece ∈ pieces, c ∈ piece := by
  induction pieces with
  | nil => cases h
  | cons piece rest ih =>
      cases rest with
      | nil => exact .inr ⟨piece, by simp, by simpa using h⟩
      | cons next more =>
          rw [List.intercalate_cons_cons, List.append_assoc, List.mem_append, List.mem_append,
            List.mem_singleton] at h
          rcases h with hpiece | hsep | hrest
          · exact .inr ⟨piece, by simp, hpiece⟩
          · exact .inl hsep
          · exact (ih hrest).imp_right fun ⟨other, hother, hc⟩ =>
              ⟨other, List.mem_cons_of_mem piece hother, hc⟩

theorem subset_intercalate (sep : Char) {pieces : List (List Char)} {piece : List Char}
    (h : piece ∈ pieces) : piece ⊆ [sep].intercalate pieces := by
  intro c hc
  induction pieces with
  | nil => cases h
  | cons first rest ih =>
      cases rest with
      | nil =>
          obtain rfl := List.mem_singleton.1 h
          simpa using hc
      | cons next more =>
          rw [List.intercalate_cons_cons, List.append_assoc, List.mem_append, List.mem_append]
          rcases List.mem_cons.1 h with rfl | hrest
          · exact .inl hc
          · exact .inr (.inr (ih hrest))

theorem subset_of_mem_splitAt {sep : Char} {s piece : List Char} (h : piece ∈ splitAt sep s) :
    piece ⊆ s := by
  have hsubset := subset_intercalate sep h
  rwa [intercalate_splitAt] at hsubset

-- Pieces with nothing between them belong to two texts with a separator between them.
theorem exists_append_of_splitAt_eq {sep : Char} {s : List Char} {l r : List (List Char)}
    (h : splitAt sep s = l ++ r) (hl : l ≠ []) (hr : r ≠ []) :
    ∃ before after, s = before ++ sep :: after ∧ splitAt sep before = l ∧
      splitAt sep after = r := by
  have hpieces : ∀ piece ∈ l ++ r, sep ∉ piece :=
    fun piece hpiece => not_mem_of_mem_splitAt (h ▸ hpiece)
  have hbefore : splitAt sep ([sep].intercalate l) = l :=
    splitAt_intercalate hl fun piece hpiece => hpieces piece (List.mem_append_left r hpiece)
  have hafter : splitAt sep ([sep].intercalate r) = r :=
    splitAt_intercalate hr fun piece hpiece => hpieces piece (List.mem_append_right l hpiece)
  refine ⟨[sep].intercalate l, [sep].intercalate r, (splitAt_inj sep).1 ?_, hbefore, hafter⟩
  rw [splitAt_append_cons, hbefore, hafter, h]

theorem newline_not_mem_of_mem_lines {s l : List Char} (h : l ∈ lines s) : '\n' ∉ l :=
  not_mem_of_mem_splitAt h

theorem exists_lines_cons (s : List Char) : ∃ first rest, lines s = first :: rest :=
  List.exists_cons_of_ne_nil (splitAt_ne_nil '\n' s)

theorem lines_append {l s first : List Char} {rest : List (List Char)} (hl : '\n' ∉ l)
    (hs : lines s = first :: rest) : lines (l ++ s) = (l ++ first) :: rest := by
  induction l with
  | nil => exact hs
  | cons c l ih =>
      have hc : c ≠ '\n' := fun heq => hl (by simp [heq])
      have htail : splitAt '\n' (l ++ s) = (l ++ first) :: rest :=
        ih fun hmem => hl (List.mem_cons_of_mem c hmem)
      rw [lines, List.cons_append, splitAt_cons, if_neg hc, htail]
      rfl

theorem unlines_cons {l : List Char} {ls : List (List Char)} (hne : ls ≠ []) :
    unlines (l :: ls) = l ++ '\n' :: unlines ls := by
  cases ls with
  | nil => exact absurd rfl hne
  | cons next more => simp [unlines, List.intercalate_cons_cons]

theorem unlines_append {ls rs : List (List Char)} (hl : ls ≠ []) (hr : rs ≠ []) :
    unlines (ls ++ rs) = unlines ls ++ '\n' :: unlines rs := by
  induction ls with
  | nil => exact absurd rfl hl
  | cons l ls ih =>
      cases ls with
      | nil =>
          rw [List.singleton_append, unlines_cons hr]
          simp [unlines]
      | cons next more =>
          have hne : next :: more ≠ [] := by simp
          rw [List.cons_append, unlines_cons (by simp), ih hne, unlines_cons hne]
          simp

theorem unlines_append_cons (l r : List Char) (ls : List (List Char)) :
    unlines ((l ++ r) :: ls) = l ++ unlines (r :: ls) := by
  by_cases hne : ls = []
  · subst hne
    simp [unlines]
  · rw [unlines_cons hne, unlines_cons hne, List.append_assoc]

theorem unlines_append_singleton (ls : List (List Char)) (l r : List Char) :
    unlines (ls ++ [l ++ r]) = unlines (ls ++ [l]) ++ r := by
  induction ls with
  | nil => simp [unlines]
  | cons next more ih =>
      rw [List.cons_append, unlines_cons (by simp), ih, List.cons_append, unlines_cons (by simp)]
      simp

theorem unlines_lines_append (s last : List Char) :
    unlines (lines s ++ [last]) = s ++ '\n' :: last := by
  have hne : lines s ≠ [] := splitAt_ne_nil '\n' s
  rw [unlines_append hne (by simp), unlines_lines]
  simp [unlines]

theorem exists_unlines_cons (c : Char) (l : List Char) (ls : List (List Char)) :
    ∃ tail, unlines ((c :: l) :: ls) = c :: tail := by
  cases ls with
  | nil => exact ⟨l, by simp [unlines]⟩
  | cons next more => exact ⟨_, unlines_cons (by simp)⟩

theorem lines_cons {c : Char} {s first : List Char} {rest : List (List Char)} (hc : c ≠ '\n')
    (hs : lines s = first :: rest) : lines (c :: s) = (c :: first) :: rest :=
  lines_append (l := [c]) (by simpa using hc.symm) hs

theorem lines_of_not_mem {l : List Char} (h : '\n' ∉ l) : lines l = [l] := splitAt_of_not_mem h

theorem lines_append_newline (s t : List Char) :
    lines (s ++ '\n' :: t) = lines s ++ lines t :=
  splitAt_append_cons '\n' s t

theorem length_lines (s : List Char) : (lines s).length = s.count '\n' + 1 := by
  by_cases h : '\n' ∈ s
  · obtain ⟨l, t, rfl, hl⟩ := List.eq_append_cons_of_mem h
    have ht := length_lines t
    rw [lines_append_newline, lines_of_not_mem hl, List.length_append, ht, List.count_append,
      List.count_eq_zero_of_not_mem hl, List.count_cons_self]
    simp only [List.length_singleton]
    omega
  · rw [lines_of_not_mem h, List.count_eq_zero_of_not_mem h]
    rfl
  termination_by s.length

theorem exists_last_break (s : List Char) :
    ∃ front line, '\n' :: s = front ++ '\n' :: line ∧ '\n' ∉ line := by
  have hmem : '\n' ∈ ('\n' :: s).reverse := by simp
  obtain ⟨line, front, heq, hline⟩ := List.eq_append_cons_of_mem hmem
  exact ⟨front.reverse, line.reverse, List.reverse_inj.1 (by simp [heq]), by simpa using hline⟩

theorem exists_next_break (s : List Char) :
    ∃ line back, s = line ++ back ∧ '\n' ∉ line ∧ (back = [] ∨ ∃ more, back = '\n' :: more) := by
  by_cases h : '\n' ∈ s
  · obtain ⟨line, more, heq, hline⟩ := List.eq_append_cons_of_mem h
    exact ⟨line, '\n' :: more, heq, hline, .inr ⟨more, rfl⟩⟩
  · exact ⟨s, [], by simp, h, .inl rfl⟩

-- A line as it stands in a text: a break or an end on either side.
structure IsLine (before line after : List Char) : Prop where
  unbroken : '\n' ∉ line
  opened : before = [] ∨ ∃ front, before = front ++ ['\n']
  closed : after = [] ∨ ∃ back, after = '\n' :: back

theorem exists_isLine {s line : List Char} {i : Nat} (h : (lines s)[i]? = some line) :
    ∃ before after, s = before ++ line ++ after ∧ before.count '\n' = i ∧
      IsLine before line after := by
  by_cases hs : '\n' ∈ s
  · obtain ⟨l, t, rfl, hl⟩ := List.eq_append_cons_of_mem hs
    rw [lines_append_newline, lines_of_not_mem hl] at h
    cases i with
    | zero =>
        obtain rfl : l = line := by simpa using h
        exact ⟨[], '\n' :: t, rfl, rfl, hl, .inl rfl, .inr ⟨t, rfl⟩⟩
    | succ i =>
        obtain ⟨before, after, rfl, hcount, hline⟩ := exists_isLine (s := t) (by simpa using h)
        refine ⟨l ++ '\n' :: before, after, by simp, ?_, hline.unbroken, .inr ?_, hline.closed⟩
        · rw [List.count_append, List.count_eq_zero_of_not_mem hl, List.count_cons_self, hcount,
            Nat.zero_add]
        · rcases hline.opened with rfl | ⟨front, rfl⟩
          · exact ⟨l, rfl⟩
          · exact ⟨l ++ '\n' :: front, by simp⟩
  · rw [lines_of_not_mem hs] at h
    obtain ⟨rfl, rfl⟩ : i = 0 ∧ s = line := by
      cases i with
      | zero => exact ⟨rfl, by simpa using h⟩
      | succ i => exact absurd h (by simp)
    exact ⟨[], [], by simp, rfl, hs, .inl rfl, .inl rfl⟩
  termination_by s.length

theorem subset_of_mem_lines {s l : List Char} (h : l ∈ lines s) : l ⊆ s := by
  obtain ⟨i, hi⟩ := List.mem_iff_getElem?.1 h
  obtain ⟨before, after, rfl, -, -⟩ := exists_isLine hi
  intro c hc
  simp [hc]

theorem IsLine.getElem?_lines {before line after : List Char} (h : IsLine before line after) :
    (lines (before ++ line ++ after))[before.count '\n']? = some line := by
  have hfirst : (lines (line ++ after))[0]? = some line := by
    rcases h.closed with rfl | ⟨back, rfl⟩
    · rw [List.append_nil, lines_of_not_mem h.unbroken]
      rfl
    · rw [lines_append_newline, lines_of_not_mem h.unbroken]
      rfl
  rcases h.opened with rfl | ⟨front, rfl⟩
  · exact hfirst
  · rw [List.append_assoc, List.append_assoc, List.singleton_append, lines_append_newline,
      List.count_append, List.count_singleton_self, ← length_lines, List.getElem?_append_right,
      Nat.sub_self, hfirst]
    exact Nat.le_refl _

end Pieces

section Breaks

theorem unifyBreaks_cons (c : Char) (rest : List Char) :
    unifyBreaks (c :: rest) =
      if c = '\r' ∧ rest.head? = some '\n' then unifyBreaks rest else c :: unifyBreaks rest := by
  cases rest with
  | nil => simp [unifyBreaks]
  | cons next tail =>
      simp only [unifyBreaks, List.tail_cons, List.map_cons, List.cons_append, List.zip_cons_cons,
        List.filterMap_cons, List.head?_cons]
      by_cases h : c = '\r' ∧ some next = some '\n'
      · rw [if_pos h, if_pos h]
      · rw [if_neg h, if_neg h]

theorem unifyBreaks_cons_of_ne {c : Char} (hc : c ≠ '\r') (rest : List Char) :
    unifyBreaks (c :: rest) = c :: unifyBreaks rest := by
  rw [unifyBreaks_cons, if_neg fun h => hc h.1]

theorem unifyBreaks_return_newline (rest : List Char) :
    unifyBreaks ('\r' :: '\n' :: rest) = '\n' :: unifyBreaks rest := by
  rw [unifyBreaks_cons, if_pos ⟨rfl, rfl⟩, unifyBreaks_cons_of_ne (by decide)]

theorem unifyBreaks_append_of_not_mem {s : List Char} (h : '\r' ∉ s) (t : List Char) :
    unifyBreaks (s ++ t) = s ++ unifyBreaks t := by
  induction s with
  | nil => rfl
  | cons c rest ih =>
      have hc : c ≠ '\r' := fun heq => h (by simp [heq])
      rw [List.cons_append, unifyBreaks_cons_of_ne hc,
        ih fun hmem => h (List.mem_cons_of_mem c hmem), List.cons_append]

theorem unifyBreaks_of_not_mem {s : List Char} (h : '\r' ∉ s) : unifyBreaks s = s := by
  have hnil := unifyBreaks_append_of_not_mem h []
  rw [List.append_nil] at hnil
  rw [hnil]
  exact List.append_nil s

-- Two texts are unified apart unless they meet between a return and its feed.
theorem unifyBreaks_append {s t : List Char} (h : s.getLast? ≠ some '\r' ∨ t.head? ≠ some '\n') :
    unifyBreaks (s ++ t) = unifyBreaks s ++ unifyBreaks t := by
  induction s with
  | nil => rfl
  | cons c rest ih =>
      cases rest with
      | nil =>
          have hkeep : ¬ (c = '\r' ∧ t.head? = some '\n') := by
            rintro ⟨rfl, ht⟩
            exact h.elim (· rfl) (· ht)
          rw [List.singleton_append, unifyBreaks_cons, if_neg hkeep]
          simp [unifyBreaks]
      | cons next tail =>
          have hrest := ih (by simpa using h)
          rw [List.cons_append, unifyBreaks_cons, unifyBreaks_cons c (next :: tail), hrest]
          split
          · rename_i hdrop
            rw [if_pos (by simpa using hdrop)]
          · rename_i hkeep
            rw [if_neg (by simpa using hkeep)]
            rfl

-- What stands in front of a break is left as it is.
theorem unifyBreaks_eq_append (front : List Char) {s text : List Char} (hfront : '\n' ∉ front)
    (h : unifyBreaks text = front ++ s) : ∃ t, text = front ++ t ∧ unifyBreaks t = s := by
  induction front generalizing text with
  | nil => exact ⟨text, rfl, h⟩
  | cons c front ih =>
      cases text with
      | nil => cases h
      | cons d rest =>
          rw [unifyBreaks_cons] at h
          split at h
          · rename_i hdrop
            obtain ⟨tail, rfl⟩ := List.head?_eq_some_iff.1 hdrop.2
            rw [unifyBreaks_cons_of_ne (by decide)] at h
            obtain ⟨rfl, -⟩ := List.cons.inj h
            exact absurd List.mem_cons_self hfront
          · obtain ⟨rfl, hrest⟩ := List.cons.inj h
            obtain ⟨t, rfl, ht⟩ := ih (fun hmem => hfront (List.mem_cons_of_mem d hmem)) hrest
            exact ⟨t, rfl, ht⟩

theorem head?_unifyBreaks_iff {c : Char} (hbreak : c ≠ '\n') (hreturn : c ≠ '\r')
    (text : List Char) : (unifyBreaks text).head? = some c ↔ text.head? = some c := by
  constructor
  · intro hhead
    obtain ⟨more, hmore⟩ := List.head?_eq_some_iff.1 hhead
    obtain ⟨tail, rfl, -⟩ := unifyBreaks_eq_append [c] (by simpa using hbreak.symm) hmore
    rfl
  · intro hhead
    obtain ⟨more, rfl⟩ := List.head?_eq_some_iff.1 hhead
    rw [unifyBreaks_cons_of_ne hreturn]
    rfl

theorem count_newline_unifyBreaks (s : List Char) :
    (unifyBreaks s).count '\n' = s.count '\n' := by
  induction s with
  | nil => rfl
  | cons c rest ih =>
      rw [unifyBreaks_cons]
      split
      · rename_i hdrop
        rw [hdrop.1, ih]
        simp
      · rw [List.count_cons, List.count_cons, ih]

section Classes

variable {p : Char → Bool}

-- A class with both characters of a break in it, or neither, does not see the difference.
theorem takeWhile_unifyBreaks (hp : p '\r' = p '\n') (s : List Char) :
    (unifyBreaks s).takeWhile p = unifyBreaks (s.takeWhile p) := by
  induction s with
  | nil => rfl
  | cons c rest ih =>
      rw [unifyBreaks_cons]
      split
      · rename_i hdrop
        obtain ⟨rfl, hnext⟩ := hdrop
        obtain ⟨tail, rfl⟩ := List.head?_eq_some_iff.1 hnext
        rw [ih]
        by_cases hbreak : p '\n'
        · rw [List.takeWhile_cons_of_pos hbreak, List.takeWhile_cons_of_pos (hp.trans hbreak),
            List.takeWhile_cons_of_pos hbreak, unifyBreaks_return_newline,
            unifyBreaks_cons_of_ne (by decide)]
        · rw [List.takeWhile_cons_of_neg hbreak, List.takeWhile_cons_of_neg (hp ▸ hbreak)]
      · rename_i hkeep
        by_cases hc : p c
        · have hkeep' : ¬ (c = '\r' ∧ (rest.takeWhile p).head? = some '\n') := by
            rintro ⟨rfl, hnext⟩
            refine hkeep ⟨rfl, ?_⟩
            cases rest with
            | nil => cases hnext
            | cons d tail =>
                by_cases hd : p d
                · simpa [hd] using hnext
                · simp [hd] at hnext
          rw [List.takeWhile_cons_of_pos hc, List.takeWhile_cons_of_pos hc, ih, unifyBreaks_cons,
            if_neg hkeep']
        · rw [List.takeWhile_cons_of_neg hc, List.takeWhile_cons_of_neg hc]
          rfl

theorem dropWhile_unifyBreaks (hp : p '\r' = p '\n') (s : List Char) :
    (unifyBreaks s).dropWhile p = unifyBreaks (s.dropWhile p) := by
  induction s with
  | nil => rfl
  | cons c rest ih =>
      by_cases hc : p c
      · rw [List.dropWhile_cons_of_pos hc, ← ih, unifyBreaks_cons]
        split
        · rfl
        · rw [List.dropWhile_cons_of_pos hc]
      · rw [List.dropWhile_cons_of_neg hc, unifyBreaks_cons]
        split
        · rename_i hdrop
          obtain ⟨rfl, hnext⟩ := hdrop
          obtain ⟨tail, rfl⟩ := List.head?_eq_some_iff.1 hnext
          rw [unifyBreaks_cons_of_ne (by decide), List.dropWhile_cons_of_neg (hp ▸ hc)]
        · rw [List.dropWhile_cons_of_neg hc]

end Classes

-- Every line keeps its number, and at most loses a carriage return.
theorem lines_unifyBreaks (s : List Char) :
    List.Forall₂ (fun line raw => raw = line ∨ raw = line ++ ['\r'])
      (lines (unifyBreaks s)) (lines s) := by
  induction s with
  | nil => exact .cons (.inl rfl) .nil
  | cons c rest ih =>
      rw [unifyBreaks_cons]
      split
      · rename_i h
        obtain ⟨rfl, hnext⟩ := h
        obtain ⟨tail, rfl⟩ := List.head?_eq_some_iff.1 hnext
        rw [unifyBreaks_cons_of_ne (by decide)] at ih ⊢
        cases ih with
        | cons _ htail => exact .cons (.inr rfl) htail
      · by_cases hc : c = '\n'
        · subst hc
          exact .cons (.inl rfl) ih
        · obtain ⟨line, more, hlines⟩ := exists_lines_cons (unifyBreaks rest)
          obtain ⟨raw, more', hlines'⟩ := exists_lines_cons rest
          rw [hlines, hlines'] at ih
          rw [lines_cons hc hlines, lines_cons hc hlines']
          cases ih with
          | cons hhead htail => exact .cons (hhead.imp (congrArg _) (congrArg _)) htail

theorem getElem?_lines_of_unifyBreaks {s line : List Char} {i : Nat}
    (h : (lines (unifyBreaks s))[i]? = some line) :
    ∃ raw, (lines s)[i]? = some raw ∧ (raw = line ∨ raw = line ++ ['\r']) := by
  have hlines := lines_unifyBreaks s
  obtain ⟨hi, rfl⟩ := List.getElem?_eq_some_iff.1 h
  have hi' : i < (lines s).length := hlines.length_eq ▸ hi
  exact ⟨(lines s)[i], List.getElem?_eq_getElem hi', hlines.get hi hi'⟩

end Breaks

section Cuts

-- A mark is found if and only if it is there.
theorem cut?_eq_none_iff (mark s : List Char) : cut? mark s = none ↔ ¬ mark <:+: s := by
  induction s with
  | nil => cases mark <;> simp [cut?_nil]
  | cons c rest ih =>
      rw [cut?_cons, List.infix_cons_iff, not_or, ← ih]
      cases hp : mark.isPrefixOf? (c :: rest) with
      | some after =>
          have hhere : mark <+: c :: rest :=
            ⟨after, List.isPrefixOf?_eq_some_iff_append_eq.1 hp⟩
          simp [hhere]
      | none =>
          have hhere : ¬ mark <+: c :: rest := by
            rintro ⟨after, hafter⟩
            rw [List.isPrefixOf?_eq_some_iff_append_eq.2 hafter] at hp
            exact Option.some_ne_none after hp
          simp [hhere]

theorem contains_iff (s mark : List Char) : contains s mark ↔ mark <:+: s := by
  rw [contains, ← Option.ne_none_iff_isSome, ne_eq, cut?_eq_none_iff, not_not]

theorem eq_of_cut?_eq_some {mark s before after : List Char}
    (h : cut? mark s = some (before, after)) : s = before ++ mark ++ after := by
  induction s generalizing before with
  | nil =>
      rw [cut?_nil] at h
      split at h
      · simp_all
      · exact absurd h (by simp)
  | cons c rest ih =>
      rw [cut?_cons] at h
      cases hp : mark.isPrefixOf? (c :: rest) with
      | some found =>
          have hfound := List.isPrefixOf?_eq_some_iff_append_eq.1 hp
          simp only [hp, Option.some.injEq, Prod.mk.injEq] at h
          obtain ⟨rfl, rfl⟩ := h
          simpa using hfound.symm
      | none =>
          simp only [hp, Option.map_eq_some_iff, Prod.mk.injEq, Prod.exists] at h
          obtain ⟨before', after', hcut, rfl, rfl⟩ := h
          simp [ih hcut]

theorem cut?_singleton_cons (c d : Char) (rest : List Char) :
    cut? [c] (d :: rest) =
      if c = d then some ([], rest)
      else (cut? [c] rest).map fun (before, after) => (d :: before, after) := by
  rw [cut?_cons]
  by_cases h : c = d <;> simp [List.isPrefixOf?, h]

theorem cut?_append_cons {c : Char} {before : List Char} (h : c ∉ before) (after : List Char) :
    cut? [c] (before ++ c :: after) = some (before, after) := by
  induction before with
  | nil => rw [List.nil_append, cut?_singleton_cons, if_pos rfl]
  | cons d rest ih =>
      obtain ⟨hd, hrest⟩ : c ≠ d ∧ c ∉ rest := by simpa using h
      rw [List.cons_append, cut?_singleton_cons, if_neg hd, ih hrest]
      rfl

theorem not_mem_of_cut?_eq_some {c : Char} {s before after : List Char}
    (h : cut? [c] s = some (before, after)) : c ∉ before := by
  induction s generalizing before with
  | nil => cases h
  | cons d rest ih =>
      rw [cut?_singleton_cons] at h
      split at h
      · cases h
        simp
      · rename_i hd
        obtain ⟨⟨front, back⟩, hfront, heq⟩ := Option.map_eq_some_iff.1 h
        cases heq
        simpa [hd] using ih hfront

theorem dropSuffix?_eq_some_iff {s mark front : List Char} :
    dropSuffix? s mark = some front ↔ s = front ++ mark := by
  simp only [dropSuffix?, Option.map_eq_some_iff, List.isPrefixOf?_eq_some_iff_append_eq]
  constructor
  · rintro ⟨back, hback, rfl⟩
    rw [← List.reverse_inj, ← hback]
    simp
  · rintro rfl
    exact ⟨front.reverse, by simp⟩

end Cuts

section Slashes

theorem not_mem_unifySlashes (s : List Char) : '\\' ∉ unifySlashes s := by
  intro hmem
  obtain ⟨c, -, hc⟩ := List.mem_map.1 hmem
  split at hc
  · cases hc
  · rename_i hne
    exact hne hc

theorem unifySlashes_of_not_mem {s : List Char} (h : '\\' ∉ s) : unifySlashes s = s := by
  have hsame : ∀ c ∈ s, (if c = '\\' then '/' else c) = c := by
    intro c hc
    rw [if_neg fun heq : c = '\\' => h (heq ▸ hc)]
  rw [unifySlashes, List.map_congr_left hsame, List.map_id']

-- Where only backslashes separate, they separate the same pieces as the slashes they become.
theorem splitAt_unifySlashes {s : List Char} (h : '/' ∉ s) :
    splitAt '/' (unifySlashes s) = splitAt '\\' s := by
  induction s with
  | nil => rfl
  | cons c rest ih =>
      have hc : c ≠ '/' := fun heq => h (by simp [heq])
      have hmap : unifySlashes (c :: rest) =
          (if c = '\\' then '/' else c) :: unifySlashes rest := rfl
      rw [hmap, splitAt_cons, splitAt_cons, ih fun hmem => h (List.mem_cons_of_mem c hmem)]
      by_cases hback : c = '\\'
      · rw [if_pos hback, if_pos rfl, if_pos hback]
      · rw [if_neg hback, if_neg hc, if_neg hback]

theorem splitAt_unifySlashes_intercalate {texts : List (List Char)} (hne : texts ≠ [])
    (h : ∀ text ∈ texts, '/' ∉ text) :
    splitAt '/' (unifySlashes (['/'].intercalate texts)) = texts.flatMap (splitAt '\\') := by
  induction texts with
  | nil => exact absurd rfl hne
  | cons text rest ih =>
      have htext := splitAt_unifySlashes (h text List.mem_cons_self)
      cases rest with
      | nil => simpa using htext
      | cons next more =>
          have hrest := ih (List.cons_ne_nil next more) fun t ht => h t (List.mem_cons_of_mem _ ht)
          have hunify : unifySlashes (['/'].intercalate (text :: next :: more)) =
              unifySlashes text ++ '/' :: unifySlashes (['/'].intercalate (next :: more)) := by
            simp [unifySlashes, List.intercalate_cons_cons]
          rw [hunify, splitAt_append_cons, htext, hrest]
          rfl

end Slashes

section Trimming

-- No blank at either end.
def Trimmed (s : List Char) : Prop :=
  (∀ c ∈ s.head?, isBlank c = false) ∧ ∀ c ∈ s.getLast?, isBlank c = false

instance (s : List Char) : Decidable (Trimmed s) :=
  decidable_of_iff (s.head?.all (!isBlank ·) ∧ s.getLast?.all (!isBlank ·))
    (by simp [Trimmed, Option.all_eq_true])

theorem forall_isBlank {s : List Char} (h : allBlank s) : ∀ c ∈ s, isBlank c :=
  List.all_eq_true.1 h

theorem not_allBlank_of_mem {s : List Char} {c : Char} (hmem : c ∈ s) (hc : isBlank c = false) :
    ¬ allBlank s := by
  intro h
  rw [forall_isBlank h c hmem] at hc
  cases hc

theorem allBlank_takeWhile (s : List Char) : allBlank (s.takeWhile isBlank) :=
  List.all_takeWhile

theorem blanks_append_trimStart (s : List Char) : s.takeWhile isBlank ++ trimStart s = s :=
  List.takeWhile_append_dropWhile

theorem isBlank_head?_trimStart {s : List Char} {c : Char} (h : c ∈ (trimStart s).head?) :
    isBlank c = false := by
  have hstop := List.head?_dropWhile_not isBlank s
  rw [← trimStart, Option.mem_def.1 h] at hstop
  exact hstop

theorem trimStart_of_head? {s : List Char} (h : ∀ c ∈ s.head?, isBlank c = false) :
    trimStart s = s := by
  cases s with
  | nil => rfl
  | cons c rest => exact List.dropWhile_cons_of_neg (by simp [h c rfl])

theorem trimStart_eq_nil_iff (s : List Char) : trimStart s = [] ↔ allBlank s := by
  simp [trimStart, allBlank]

theorem trimEnd_append {s blanks : List Char} (h : ∀ c ∈ blanks, isBlank c) :
    trimEnd (s ++ blanks) = trimEnd s := by
  have hrev : ∀ c ∈ blanks.reverse, isBlank c := by simpa using h
  rw [trimEnd, List.reverse_append, List.dropWhile_append_of_pos hrev, trimEnd]

-- Nothing in front of a character that is no blank goes.
theorem trimEnd_append_of_getLast? {s : List Char} {c : Char} (hs : s.getLast? = some c)
    (hc : isBlank c = false) (t : List Char) : trimEnd (s ++ t) = s ++ trimEnd t := by
  obtain ⟨front, rfl⟩ := List.getLast?_eq_some_iff.1 hs
  rw [trimEnd, List.reverse_append, List.reverse_append, List.reverse_singleton,
    List.singleton_append, dropWhile_append_cons hc, List.reverse_append, ← trimEnd]
  simp

theorem trimStart_append {s blanks : List Char} (h : ∀ c ∈ blanks, isBlank c) :
    trimStart (blanks ++ s) = trimStart s :=
  List.dropWhile_append_of_pos h

theorem exists_trimEnd_append (s : List Char) :
    ∃ blanks, s = trimEnd s ++ blanks ∧ ∀ c ∈ blanks, isBlank c := by
  refine ⟨(s.reverse.takeWhile isBlank).reverse, ?_, fun c hc => ?_⟩
  · rw [trimEnd, ← List.reverse_append, List.takeWhile_append_dropWhile, List.reverse_reverse]
  · exact List.mem_takeWhile_imp (List.mem_reverse.1 hc)

theorem isBlank_getLast?_trimEnd {s : List Char} {c : Char} (h : c ∈ (trimEnd s).getLast?) :
    isBlank c = false := by
  have hstop := List.head?_dropWhile_not isBlank s.reverse
  rw [trimEnd, List.getLast?_reverse] at h
  rw [Option.mem_def.1 h] at hstop
  exact hstop

theorem Trimmed.trimStart_append {s : List Char} (h : Trimmed s) (r : List Char) (hne : s ≠ []) :
    trimStart (s ++ r) = s ++ r := by
  cases s with
  | nil => exact absurd rfl hne
  | cons c rest =>
      have hc : isBlank c = false := h.1 c (by simp)
      simp [trimStart, hc]

theorem Trimmed.trimEnd_eq {s : List Char} (h : Trimmed s) : trimEnd s = s := by
  rcases List.eq_nil_or_concat' s with rfl | ⟨front, c, rfl⟩
  · rfl
  · have hc : isBlank c = false := h.2 c (by simp)
    simp [trimEnd, hc]

theorem trim_cons_ne_nil {c : Char} (hc : isBlank c = false) (rest : List Char) :
    trim (c :: rest) ≠ [] := by
  have hstart : trimStart (c :: rest) = c :: rest := trimStart_of_head? (by simpa using hc)
  rw [trim, hstart, trimEnd, List.reverse_cons, dropWhile_append_cons hc]
  simp

theorem trim_eq_nil_iff (s : List Char) : trim s = [] ↔ allBlank s := by
  rw [← trimStart_eq_nil_iff]
  constructor
  · intro h
    cases hstart : trimStart s with
    | nil => rfl
    | cons c rest =>
        have hc : isBlank c = false := isBlank_head?_trimStart (by rw [hstart]; rfl)
        have hagain : trimStart (c :: rest) = c :: rest := trimStart_of_head? (by simpa using hc)
        rw [trim, hstart, ← hagain] at h
        exact absurd h (trim_cons_ne_nil hc rest)
  · intro h
    rw [trim, h]
    rfl

theorem mem_of_mem_trim {s : List Char} {c : Char} (h : c ∈ trim s) : c ∈ s := by
  have hstart : c ∈ trimStart s := by
    simpa using (List.dropWhile_suffix isBlank).subset (List.mem_reverse.1 h)
  exact (List.dropWhile_suffix isBlank).subset hstart

-- Blanks around a text without blanks at its ends go, and nothing else does.
theorem trim_append_append {s : List Char} (h : Trimmed s) (before after : List Char)
    (hbefore : ∀ c ∈ before, isBlank c) (hafter : ∀ c ∈ after, isBlank c) :
    trim (before ++ s ++ after) = s := by
  rw [trim, List.append_assoc, Text.trimStart_append hbefore]
  by_cases hs : s = []
  · subst hs
    have hblank := Text.trimStart_append (s := []) hafter
    rw [List.append_nil] at hblank
    rw [List.nil_append, hblank]
    rfl
  · rw [h.trimStart_append after hs, trimEnd_append hafter, h.trimEnd_eq]

theorem Trimmed.trim_eq {s : List Char} (h : Trimmed s) : trim s = s := by
  simpa using trim_append_append h [] [] (by simp) (by simp)

theorem trimmed_trim (s : List Char) : Trimmed (trim s) := by
  obtain ⟨blanks, hstart, -⟩ := exists_trimEnd_append (trimStart s)
  refine ⟨fun c hc => isBlank_head?_trimStart (s := s) ?_, fun c hc => isBlank_getLast?_trimEnd hc⟩
  rw [hstart, List.head?_append, ← trim, Option.mem_def.1 hc]
  rfl

theorem exists_trim_append (s : List Char) :
    ∃ before after, s = before ++ trim s ++ after ∧ (∀ c ∈ before, isBlank c) ∧
      ∀ c ∈ after, isBlank c := by
  obtain ⟨after, hstart, hafter⟩ := exists_trimEnd_append (trimStart s)
  refine ⟨s.takeWhile isBlank, after, ?_, forall_isBlank (allBlank_takeWhile s), hafter⟩
  rw [List.append_assoc, trim, ← hstart, blanks_append_trimStart]

theorem trimmed_of_solid {s : List Char} (h : ∀ c ∈ s, isBlank c = false) : Trimmed s :=
  ⟨fun c hc => h c (List.mem_of_mem_head? hc), fun c hc => h c (List.mem_of_getLast? hc)⟩

end Trimming

section Letters

theorem toNat_of_isAlpha {c : Char} (h : c.isAlpha) :
    (65 ≤ c.toNat ∧ c.toNat ≤ 90) ∨ (97 ≤ c.toNat ∧ c.toNat ≤ 122) := by
  change (decide ('A'.val ≤ c.val ∧ c.val ≤ 'Z'.val) ||
    (decide ('a'.val ≤ c.val) && decide (c.val ≤ 'z'.val))) = true at h
  simp only [Bool.or_eq_true, Bool.and_eq_true, decide_eq_true_eq, UInt32.le_iff_toNat_le] at h
  exact h

theorem lowerChar_of_isAlpha {c : Char} (h : c.isAlpha) : lowerChar c = [c.toLower] := by
  have hascii : ∀ n < 128, (Char.ofNat n).isAlpha →
      lowerChar (Char.ofNat n) = [(Char.ofNat n).toLower] := by
    decide +kernel
  have hn : c.toNat < 128 := by
    have hrange := toNat_of_isAlpha h
    omega
  have hc := hascii c.toNat hn
  rw [Char.ofNat_toNat] at hc
  exact hc h

theorem lowerFrom_of_isAlpha {s : List Char} (h : ∀ c ∈ s, c.isAlpha) (before : List Char) :
    lowerFrom before s = s.map Char.toLower := by
  induction s generalizing before with
  | nil => rfl
  | cons c rest ih =>
      have hc : c.isAlpha := h c (by simp)
      have hrest : ∀ d ∈ rest, d.isAlpha := fun d hd => h d (List.mem_cons_of_mem c hd)
      have hsigma : c ≠ 'Σ' := by
        rintro rfl
        exact absurd hc (by decide)
      simp [lowerFrom, hsigma, lowerChar_of_isAlpha hc, ih hrest]

end Letters

end ApiCatalog.Text
