import ApiCatalog.Manifest
import ApiCatalog.Proofs.Text

namespace ApiCatalog

namespace Text

-- Pieces stand in front of the last one exactly where the text they make up is closed off: a
-- separator follows it, and the text begins with it or a separator comes before.
theorem splitAt_infix_dropLast_iff {sep : Char} (part whole : List Char) :
    splitAt sep part <:+: (splitAt sep whole).dropLast ↔
      part ++ [sep] <+: whole ∨ sep :: part ++ [sep] <:+: whole := by
  constructor
  · rintro ⟨before, after, hrun⟩
    have hne : splitAt sep part ≠ [] := splitAt_ne_nil sep part
    have hwhole : splitAt sep whole = before ++ (splitAt sep part ++
        (after ++ [(splitAt sep whole).getLast (splitAt_ne_nil sep whole)])) := by
      rw [← List.append_assoc, ← List.append_assoc, hrun, List.dropLast_append_getLast]
    by_cases hbefore : before = []
    · rw [hbefore, List.nil_append] at hwhole
      obtain ⟨front, rest, heq, hfront, -⟩ :=
        exists_append_of_splitAt_eq hwhole hne (by simp)
      obtain rfl : front = part := (splitAt_inj sep).1 hfront
      exact .inl ⟨rest, by simp [heq]⟩
    · obtain ⟨front, tail, heq, -, htail⟩ :=
        exists_append_of_splitAt_eq hwhole hbefore (by simp [hne])
      obtain ⟨middle, rest, hmiddle, hpart, -⟩ := exists_append_of_splitAt_eq htail hne (by simp)
      obtain rfl : middle = part := (splitAt_inj sep).1 hpart
      exact .inr ⟨front, rest, by simp [heq, hmiddle]⟩
  · rintro (⟨rest, rfl⟩ | ⟨front, rest, rfl⟩)
    · have hsplit : splitAt sep (part ++ [sep] ++ rest) = splitAt sep part ++ splitAt sep rest := by
        rw [List.append_assoc, List.singleton_append, splitAt_append_cons]
      rw [hsplit, List.dropLast_append_of_ne_nil (splitAt_ne_nil sep rest)]
      exact (List.prefix_append _ _).isInfix
    · have hsplit : splitAt sep (front ++ (sep :: part ++ [sep]) ++ rest) =
          splitAt sep front ++ (splitAt sep part ++ splitAt sep rest) := by
        rw [← splitAt_append_cons, ← splitAt_append_cons]
        simp
      rw [hsplit, ← List.append_assoc,
        List.dropLast_append_of_ne_nil (splitAt_ne_nil sep rest)]
      exact ⟨splitAt sep front, (splitAt sep rest).dropLast, rfl⟩

end Text

namespace Path

-- The names between the separators of a path, empty ones included.
def names (p : Path) : List (List Char) := Text.splitAt '/' (Text.unifySlashes p.text.toList)

-- The path leads through a directory of that name, or through a chain of directories if the
-- name has separators in it. What the path ends in is no directory that it leads through.
def LeadsThrough (p : Path) (dir : String) : Prop :=
  Text.splitAt '/' dir.toList <:+: p.names.dropLast

theorem leadsThrough_iff_mem {dir : String} (h : '/' ∉ dir.toList) (p : Path) :
    p.LeadsThrough dir ↔ dir.toList ∈ p.names.dropLast := by
  rw [LeadsThrough, Text.splitAt_of_not_mem h, List.singleton_infix_iff]

end Path

namespace Manifest

theorem patternMatches_of_bare {path pattern dir : List Char}
    (h : (['*', '*', '/'].isPrefixOf? pattern).getD pattern = dir ++ ['/', '*']) :
    patternMatches path pattern ↔
      dir ++ ['/'] <+: path ∨ '/' :: dir ++ ['/'] <:+: path := by
  have hdir : Text.dropSuffix? (dir ++ ['/', '*']) ['/', '*'] = some dir :=
    Text.dropSuffix?_eq_some_iff.2 rfl
  simp only [patternMatches, h, hdir, Bool.or_eq_true, List.isPrefixOf_iff_prefix,
    Text.contains_iff]

-- A pattern loses two stars and a separator only if they stand in front of its directory.
theorem isPrefixOf?_directory {dir : List Char} (hstars : dir ≠ ['*', '*'])
    (hdir : ¬ ['*', '*', '/'] <+: dir) :
    ['*', '*', '/'].isPrefixOf? (dir ++ ['/', '*']) = none := by
  rw [← Option.not_isSome_iff_eq_none, Option.isSome_iff_exists]
  rintro ⟨rest, hrest⟩
  have heq := List.isPrefixOf?_eq_some_iff_append_eq.1 hrest
  rcases dir with _ | ⟨a, _ | ⟨b, _ | ⟨c, tail⟩⟩⟩
  · simp at heq
  · simp at heq
  · simp only [List.cons_append, List.nil_append, List.cons.injEq] at heq
    exact hstars (by rw [← heq.1, ← heq.2.1])
  · simp only [List.cons_append, List.nil_append, List.cons.injEq] at heq
    exact hdir ⟨tail, by simpa using ⟨heq.1, heq.2.1, heq.2.2.1⟩⟩

theorem excludes?_singleton (m : Manifest) {pattern dir : String}
    (h : (['*', '*', '/'].isPrefixOf? pattern.toList).getD pattern.toList =
      dir.toList ++ ['/', '*']) (p : Path) :
    { m with excludes := [pattern] }.excludes? p ↔ p.LeadsThrough dir := by
  simp only [excludes?, List.any_cons, List.any_nil, Bool.or_false, patternMatches_of_bare h]
  rw [Path.LeadsThrough, Path.names, Text.splitAt_infix_dropLast_iff]

-- A directory pattern excludes the paths that lead through its directory, name by name: a name
-- that only begins or ends like it does not count, nor does a file that bears it.
theorem excludes?_directory_iff (m : Manifest) (dir : String) (p : Path) :
    ({ m with excludes := ["**/" ++ dir ++ "/*"] }.excludes? p ↔ p.LeadsThrough dir) ∧
    (dir ≠ "**" → ¬ "**/".toList <+: dir.toList →
      ({ m with excludes := [dir ++ "/*"] }.excludes? p ↔ p.LeadsThrough dir)) ∧
    ('/' ∉ dir.toList → (p.LeadsThrough dir ↔ dir.toList ∈ p.names.dropLast)) := by
  refine ⟨m.excludes?_singleton ?_ p, fun hstars hdir => m.excludes?_singleton ?_ p,
    fun hslash => p.leadsThrough_iff_mem hslash⟩
  · simp [List.isPrefixOf?]
  · have hne : dir.toList ≠ ['*', '*'] := fun heq => hstars (String.toList_inj.1 heq)
    have hnone := isPrefixOf?_directory hne hdir
    rw [String.toList_append, show "/*".toList = ['/', '*'] from rfl, hnone]
    rfl

theorem excludes?_directory_fixtures :
    let m : Manifest := { excludes := ["fixtures" ++ "/*"] }
    ("fixtures" ≠ "**" ∧ ¬ "**/".toList <+: "fixtures".toList ∧ '/' ∉ "fixtures".toList) ∧
    m.excludes? ⟨"src//api\\fixtures/a.js"⟩ ∧
    ¬ m.excludes? ⟨"oldfixtures/fixtures2/fixtures"⟩ := by
  intro m
  have hstars : "fixtures" ≠ "**" := by decide
  have hdir : ¬ "**/".toList <+: "fixtures".toList := by decide
  have hslash : '/' ∉ "fixtures".toList := by decide
  have hiff : ∀ p, m.excludes? p ↔ "fixtures".toList ∈ p.names.dropLast := by
    intro p
    obtain ⟨-, hpattern, hmem⟩ := excludes?_directory_iff {} "fixtures" p
    exact (hpattern hstars hdir).trans (hmem hslash)
  refine ⟨⟨hstars, hdir, hslash⟩, (hiff _).2 ?_, fun hexcluded => ?_⟩
  · decide +kernel
  · exact absurd ((hiff _).1 hexcluded) (by decide +kernel)

end Manifest

end ApiCatalog
