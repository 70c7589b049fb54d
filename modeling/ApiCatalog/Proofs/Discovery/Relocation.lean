import ApiCatalog.Proofs.Discovery.Scan
import Mathlib.Data.List.Forall2

namespace ApiCatalog

section Patterns

namespace Text

-- Whether `mark` stands in the text `front ++ rest` from some place in `front` on.
def beginsIn (mark rest : List Char) : List Char → Bool
  | [] => false
  | c :: front => mark.isPrefixOf (c :: front ++ rest) || beginsIn mark rest front

theorem contains_append (mark front rest : List Char) :
    contains (front ++ rest) mark = (beginsIn mark rest front || contains rest mark) := by
  induction front with
  | nil => rfl
  | cons c front ih =>
      rw [beginsIn, Bool.or_assoc, ← ih, Bool.eq_iff_iff, Bool.or_eq_true, contains_iff,
        contains_iff, List.cons_append, List.infix_cons_iff, List.isPrefixOf_iff_prefix]

theorem endsWith_append_cons {c : Char} {mark : List Char} (h : c ∉ mark) (front rest : List Char) :
    endsWith (front ++ c :: rest) mark = endsWith rest mark := by
  rw [Bool.eq_iff_iff, endsWith, endsWith, List.isPrefixOf_iff_prefix, List.isPrefixOf_iff_prefix,
    List.reverse_prefix, List.reverse_prefix]
  constructor
  · intro hsuffix
    have hlong : mark.length ≤ rest.length := by
      by_contra hlt
      have htail : c :: rest <:+ mark :=
        List.suffix_of_suffix_length_le (List.suffix_append front _) hsuffix
          (by rw [List.length_cons]; omega)
      exact h (htail.subset List.mem_cons_self)
    exact List.suffix_of_suffix_length_le hsuffix
      ((List.suffix_cons c rest).trans (List.suffix_append front _)) hlong
  · intro hsuffix
    exact hsuffix.trans ((List.suffix_cons c rest).trans (List.suffix_append front _))

end Text

namespace Manifest

-- Whether a pattern matches the text `front ++ rest` from some place in `front`
-- on. The beginning of the text counts as such a place.
def patternReaches (front rest pattern : List Char) : Bool :=
  let pattern := (['*', '*', '/'].isPrefixOf? pattern).getD pattern
  match Text.dropSuffix? pattern ['/', '*'] with
  | some dir =>
      (dir ++ ['/']).isPrefixOf (front ++ rest) || Text.beginsIn ('/' :: dir ++ ['/']) rest front
  | none =>
      match pattern with
      | '*' :: suffix => suffix.contains '/' && Text.beginsIn pattern rest front
      | _ => Text.beginsIn pattern rest front

-- Whether a pattern matches what stands behind a separator, with it or without.
def patternMatchesBehind (rest pattern : List Char) : Bool :=
  let pattern := (['*', '*', '/'].isPrefixOf? pattern).getD pattern
  match Text.dropSuffix? pattern ['/', '*'] with
  | some dir => Text.contains ('/' :: rest) ('/' :: dir ++ ['/'])
  | none =>
      match pattern with
      | '*' :: suffix =>
          if suffix.contains '/' then Text.contains ('/' :: rest) pattern
          else Text.endsWith rest suffix
      | _ => Text.contains ('/' :: rest) pattern

theorem patternMatches_append (front rest pattern : List Char) :
    patternMatches (front ++ '/' :: rest) pattern =
      (patternReaches front ('/' :: rest) pattern || patternMatchesBehind rest pattern) := by
  unfold patternMatches patternReaches patternMatchesBehind
  generalize (['*', '*', '/'].isPrefixOf? pattern).getD pattern = bare
  simp only
  cases hdir : Text.dropSuffix? bare ['/', '*'] with
  | some dir =>
      simp only
      rw [Text.contains_append, Bool.or_assoc]
  | none =>
      by_cases hstar : ∃ suffix, bare = '*' :: suffix
      · obtain ⟨suffix, rfl⟩ := hstar
        by_cases hslash : suffix.contains '/'
        · simp only [hslash, if_true, Bool.true_and, Text.contains_append]
        · have hmem : '/' ∉ suffix := by simpa using hslash
          simp only [hslash, Bool.false_eq_true, if_false, Bool.false_and, Bool.false_or,
            Text.endsWith_append_cons hmem]
      · have hother : ∀ suffix, bare = '*' :: suffix → False := fun suffix h => hstar ⟨suffix, h⟩
        simp only [Text.contains_append]

-- Whether an exclude pattern matches a path from some place in the text of
-- `root` on, the path being one below it.
def reachesInto (m : Manifest) (root path : Path) : Bool :=
  m.excludes.any fun pattern =>
    patternReaches (Text.unifySlashes root.stem)
      (Text.unifySlashes (path.text.toList.drop root.stem.length)) pattern.toList

-- A file that some pattern excludes from inside the text of one root is
-- excluded below both.
def Impartial (m : Manifest) (r₁ r₂ f₁ f₂ : Path) : Prop :=
  m.reachesInto r₁ f₁ ∨ m.reachesInto r₂ f₂ → m.excludes? f₁ ∧ m.excludes? f₂

-- Patterns that reach into neither root's text are impartial.
theorem impartial_of_not_reachesInto {m : Manifest} {r₁ r₂ f₁ f₂ : Path}
    (h₁ : m.reachesInto r₁ f₁ = false) (h₂ : m.reachesInto r₂ f₂ = false) :
    m.Impartial r₁ r₂ f₁ f₂ := by
  rintro (hreach | hreach)
  · rw [h₁] at hreach
    cases hreach
  · rw [h₂] at hreach
    cases hreach

theorem excludes?_of_text {m : Manifest} {root path : Path} {rest : List Char}
    (h : path.text.toList = root.stem ++ '/' :: rest) :
    m.excludes? path = (m.reachesInto root path ||
      m.excludes.any fun pattern =>
        patternMatchesBehind (Text.unifySlashes rest) pattern.toList) := by
  have hslashes : Text.unifySlashes (root.stem ++ '/' :: rest) =
      Text.unifySlashes root.stem ++ '/' :: Text.unifySlashes rest := by
    simp [Text.unifySlashes]
  have hdrop : Text.unifySlashes ((root.stem ++ '/' :: rest).drop root.stem.length) =
      '/' :: Text.unifySlashes rest := by
    rw [List.drop_left]
    rfl
  rw [excludes?, reachesInto, h, hdrop]
  simp only [hslashes, patternMatches_append]
  rw [Bool.eq_iff_iff]
  simp only [Bool.or_eq_true, List.any_eq_true, and_or_left, exists_or]

theorem excludes?_of_reachesInto {m : Manifest} {root path : Path} {rest : List Char}
    (h : path.text.toList = root.stem ++ '/' :: rest) (hreach : m.reachesInto root path) :
    m.excludes? path := by
  rw [excludes?_of_text h, hreach, Bool.true_or]

end Manifest

end Patterns

section Alike

variable {r₁ r₂ f₁ f₂ g₁ g₂ : Path}

-- Two paths that name the same below two roots.
def Path.Alike (r₁ r₂ f₁ f₂ : Path) : Prop :=
  ∃ rest, (Text.splitAt '/' rest).filterMap Path.step? ≠ [] ∧
    f₁.text.toList = r₁.stem ++ '/' :: rest ∧ f₂.text.toList = r₂.stem ++ '/' :: rest

namespace Path

theorem text_ne_of_text {f r : Path} {rest : List Char}
    (h : f.text.toList = r.stem ++ '/' :: rest) : f.text ≠ "" := by
  intro hempty
  rw [hempty] at h
  exact absurd h (by simp)

theorem Alike.steps (h : Alike r₁ r₂ f₁ f₂) (h₁ : r₁.text ≠ "") (h₂ : r₂.text ≠ "") :
    ∃ moves, moves ≠ [] ∧ f₁.steps = r₁.steps ++ moves ∧ f₂.steps = r₂.steps ++ moves := by
  obtain ⟨rest, hmoves, hf₁, hf₂⟩ := h
  exact ⟨_, hmoves, steps_of_segments (text_ne_of_text hf₁) h₁ (segments_of_text hf₁),
    steps_of_segments (text_ne_of_text hf₂) h₂ (segments_of_text hf₂)⟩

theorem Alike.same (hf : Alike r₁ r₂ f₁ f₂) (hg : Alike r₁ r₂ g₁ g₂) (h₁ : r₁.text ≠ "")
    (h₂ : r₂.text ≠ "") : f₁.same g₁ = f₂.same g₂ := by
  obtain ⟨moves, -, hf₁, hf₂⟩ := hf.steps h₁ h₂
  obtain ⟨moves', -, hg₁, hg₂⟩ := hg.steps h₁ h₂
  rw [Path.same, Path.same, Bool.eq_iff_iff, beq_iff_eq, beq_iff_eq, hf₁, hf₂, hg₁, hg₂,
    List.append_cancel_left_eq, List.append_cancel_left_eq]

theorem Alike.fileName? (h : Alike r₁ r₂ f₁ f₂) (h₁ : r₁.text ≠ "") (h₂ : r₂.text ≠ "") :
    f₁.fileName? = f₂.fileName? := by
  obtain ⟨moves, hmoves, hf₁, hf₂⟩ := h.steps h₁ h₂
  rw [Path.fileName?, Path.fileName?, hf₁, hf₂, List.getLast?_append_of_ne_nil _ hmoves,
    List.getLast?_append_of_ne_nil _ hmoves]

theorem Alike.accepts (h : Alike r₁ r₂ f₁ f₂) (h₁ : r₁.text ≠ "") (h₂ : r₂.text ≠ "")
    (m : Manifest) : m.accepts f₁ = m.accepts f₂ := by
  rw [Manifest.accepts, Manifest.accepts, extension?, extension?, h.fileName? h₁ h₂]

theorem Alike.relativeTo? (h : Alike r₁ r₂ f₁ f₂) (h₁ : r₁.text ≠ "") (h₂ : r₂.text ≠ "") :
    ∃ rel, f₁.relativeTo? r₁ = some rel ∧ f₂.relativeTo? r₂ = some rel := by
  obtain ⟨rest, -, hf₁, hf₂⟩ := h
  exact ⟨_, relativeTo?_of_segments (text_ne_of_text hf₁) h₁ (segments_of_text hf₁),
    relativeTo?_of_segments (text_ne_of_text hf₂) h₂ (segments_of_text hf₂)⟩

-- The text of a root decides about a file only through patterns that reach
-- back into it, so that they are impartial where both files are excluded or none is.
theorem Alike.impartial_iff (h : Alike r₁ r₂ f₁ f₂) (m : Manifest) :
    m.Impartial r₁ r₂ f₁ f₂ ↔ m.excludes? f₁ = m.excludes? f₂ := by
  obtain ⟨rest, -, hf₁, hf₂⟩ := h
  constructor
  · intro himpartial
    by_cases hany : m.reachesInto r₁ f₁ ∨ m.reachesInto r₂ f₂
    · rw [(himpartial hany).1, (himpartial hany).2]
    · obtain ⟨hno₁, hno₂⟩ := not_or.1 hany
      rw [Manifest.excludes?_of_text hf₁, Manifest.excludes?_of_text hf₂,
        Bool.eq_false_iff.2 hno₁, Bool.eq_false_iff.2 hno₂]
  · rintro hsame (hreach | hreach)
    · have hexcluded := Manifest.excludes?_of_reachesInto hf₁ hreach
      exact ⟨hexcluded, hsame ▸ hexcluded⟩
    · have hexcluded := Manifest.excludes?_of_reachesInto hf₂ hreach
      exact ⟨hsame ▸ hexcluded, hexcluded⟩

theorem Alike.covers (h : Alike r₁ r₂ f₁ f₂) (h₁ : r₁.text ≠ "") (h₂ : r₂.text ≠ "")
    {m : Manifest} (hreach : m.Impartial r₁ r₂ f₁ f₂) :
    m.covers f₁ = m.covers f₂ := by
  rw [Manifest.covers, Manifest.covers, (h.impartial_iff m).1 hreach, h.accepts h₁ h₂]

theorem forall₂_addNew (h₁ : r₁.text ≠ "") (h₂ : r₂.text ≠ "") {files₁ files₂ new₁ new₂ : List Path}
    (hfiles : List.Forall₂ (Alike r₁ r₂) files₁ files₂)
    (hnew : List.Forall₂ (Alike r₁ r₂) new₁ new₂) :
    List.Forall₂ (Alike r₁ r₂) (addNew files₁ new₁) (addNew files₂ new₂) := by
  unfold addNew
  refine List.rel_foldl (fun known₁ known₂ hknown f₁ f₂ hf => ?_) hfiles hnew
  have hany : known₁.any (f₁.same ·) = known₂.any (f₂.same ·) := by
    induction hknown with
    | nil => rfl
    | cons hg _ ih => rw [List.any_cons, List.any_cons, ih, hf.same hg h₁ h₂]
  rw [hany]
  split
  · exact hknown
  · exact List.rel_append hknown (.cons hf .nil)

theorem exists_map_relativeTo? (h₁ : r₁.text ≠ "") (h₂ : r₂.text ≠ "") {files₁ files₂ : List Path}
    (h : List.Forall₂ (Alike r₁ r₂) files₁ files₂) :
    ∃ rel : List Path, files₁.map (·.relativeTo? r₁) = rel.map some ∧
      files₂.map (·.relativeTo? r₂) = rel.map some := by
  induction h with
  | nil => exact ⟨[], rfl, rfl⟩
  | cons hf _ ih =>
      obtain ⟨first, hfirst₁, hfirst₂⟩ := hf.relativeTo? h₁ h₂
      obtain ⟨rest, hrest₁, hrest₂⟩ := ih
      exact ⟨first :: rest, by rw [List.map_cons, hfirst₁, hrest₁, List.map_cons],
        by rw [List.map_cons, hfirst₂, hrest₂, List.map_cons]⟩

end Path

end Alike

namespace FileTree

variable {t t₁ t₂ : FileTree} {r r₁ r₂ : Path} {place place₁ place₂ : List String}

-- What stands where some segments lead from a place.
def arrive (t : FileTree) (place : List String) (segments : List (List Char)) :
    Except Fault (List String × FileNode) :=
  match t.follow place segments with
  | .error fault => .error fault
  | .ok next =>
      match t.node? next with
      | some node => .ok (next, node)
      | none => .error .notFound

-- A relative path is followed from where the one before it ends.
theorem resolve_join {q : Path} (h : t.resolve r = .ok (place, .directory))
    (hq : q.isAbsolute = false) : t.resolve (r.join q) = t.arrive place q.segments := by
  obtain ⟨hr, -, -⟩ := resolve_eq_ok_iff.1 h
  have hstart : t.start (r.join q) = t.start r := by
    rcases r.segments_eq_trunk with heq | heq
    · exact start_of_segments (Path.text_join_ne hr hq) hr r.trunk_ne_nil
        (Path.segments_join hr hq) (by rw [heq, List.append_nil])
    · exact start_of_segments (Path.text_join_ne hr hq) hr r.trunk_ne_nil
        (Path.segments_join hr hq) heq
  have hfollow : t.follow (t.start (r.join q)) (r.join q).segments = t.follow place q.segments := by
    rw [hstart, Path.segments_join hr hq, follow_append, follow_trunk h]
    rfl
  rw [resolve, if_neg (Path.text_join_ne hr hq), ← Path.segments, hfollow]
  rfl

theorem SameBelow.arrive (h : SameBelow t₁ t₂ place₁ place₂) {segments : List (List Char)}
    (hstays : staysBelow 0 segments) :
    (∃ fault, t₁.arrive place₁ segments = .error fault ∧
      t₂.arrive place₂ segments = .error fault) ∨
    ∃ names node, t₁.arrive place₁ segments = .ok (place₁ ++ names, node) ∧
      t₂.arrive place₂ segments = .ok (place₂ ++ names, node) := by
  have hfollow := @SameBelow.follow t₁ t₂ place₁ place₂ h [] segments hstays
  rw [List.append_nil, List.append_nil] at hfollow
  unfold FileTree.arrive
  rcases hfollow with ⟨fault, hf₁, hf₂⟩ | ⟨names, hf₁, hf₂⟩
  · rw [hf₁, hf₂]
    exact .inl ⟨fault, rfl, rfl⟩
  · simp only [hf₁, hf₂, h names]
    cases t₂.node? (place₂ ++ names) with
    | some node => exact .inr ⟨names, node, rfl, rfl⟩
    | none => exact .inl ⟨.notFound, rfl, rfl⟩

-- A path below a directory that is itself a file moves somewhere.
theorem filterMap_step?_ne_nil_of_nil_mem_found {q : Path}
    (h : t.resolve r = .ok (place, .directory)) (hq : q.isAbsolute = false)
    (hfile : [] ∈ t.found (r.join q)) : q.segments.filterMap Path.step? ≠ [] := by
  intro hidle
  have hnode : t.node? place = some .directory := (resolve_eq_ok_iff.1 h).2.2
  have hstay : t.follow place q.segments = .ok place := by
    refine follow_of_isIdle (fun segment hsegment => ?_) hnode
    have hstep := List.filterMap_eq_nil_iff.1 hidle segment hsegment
    rw [Path.step?] at hstep
    split at hstep
    · assumption
    · split at hstep <;> cases hstep
  have hresolve : t.resolve (r.join q) = .ok (place, .directory) := by
    rw [resolve_join h hq, FileTree.arrive, hstay]
    simp only [hnode]
  rw [found, hresolve] at hfile
  exact nil_not_mem_filesBelow t place hfile

-- Two roots with the same below them, of two trees or of one.
structure Twins (t₁ t₂ : FileTree) (r₁ r₂ : Path) where
  sound₁ : t₁.Sound
  sound₂ : t₂.Sound
  place₁ : List String
  place₂ : List String
  resolve₁ : t₁.resolve r₁ = .ok (place₁, .directory)
  resolve₂ : t₂.resolve r₂ = .ok (place₂, .directory)
  sameBelow : SameBelow t₁ t₂ place₁ place₂

namespace Twins

variable (h : Twins t₁ t₂ r₁ r₂)

include h

theorem text_ne₁ : r₁.text ≠ "" := (resolve_eq_ok_iff.1 h.resolve₁).1

theorem text_ne₂ : r₂.text ≠ "" := (resolve_eq_ok_iff.1 h.resolve₂).1

theorem read_join {q : Path} (hq : q.isAbsolute = false) (hstays : staysBelow 0 q.segments) :
    t₁.exists? (r₁.join q) = t₂.exists? (r₂.join q) ∧ t₁.read (r₁.join q) = t₂.read (r₂.join q) := by
  unfold exists? read
  rw [resolve_join h.resolve₁ hq, resolve_join h.resolve₂ hq]
  rcases h.sameBelow.arrive hstays with ⟨fault, h₁, h₂⟩ | ⟨names, node, h₁, h₂⟩
  · rw [h₁, h₂]
    exact ⟨rfl, rfl⟩
  · rw [h₁, h₂]
    refine ⟨rfl, ?_⟩
    cases node <;> rfl

theorem found_join {q : Path} (hq : q.isAbsolute = false) (hstays : staysBelow 0 q.segments) :
    t₁.found (r₁.join q) = t₂.found (r₂.join q) := by
  unfold found
  rw [resolve_join h.resolve₁ hq, resolve_join h.resolve₂ hq]
  rcases h.sameBelow.arrive hstays with ⟨fault, h₁, h₂⟩ | ⟨names, node, h₁, h₂⟩
  · rw [h₁, h₂]
  · rw [h₁, h₂]
    cases node with
    | directory => exact (h.sameBelow.append names).filesBelow h.sound₁ h.sound₂
    | text content => rfl
    | bytes content => rfl

theorem alike_below {q : Path} (hq : q.isAbsolute = false) {names : List String}
    (hnames : names ∈ t₁.found (r₁.join q)) :
    Path.Alike r₁ r₂ ((r₁.join q).below names) ((r₂.join q).below names) := by
  by_cases hnil : names = []
  · subst hnil
    refine ⟨q.text.toList, ?_, Path.text_join h.text_ne₁ hq, Path.text_join h.text_ne₂ hq⟩
    exact filterMap_step?_ne_nil_of_nil_mem_found h.resolve₁ hq hnames
  · have hnames := isName_of_mem_found h.sound₁ hnames
    have hmoves := Path.filterMap_step?_names hnames
    have hsplit := Path.splitAt_intercalate_names hnames hnil
    have htext₁ := Path.text_below (Path.text_join_ne h.text_ne₁ hq) hnames hnil
    have htext₂ := Path.text_below (Path.text_join_ne h.text_ne₂ hq) hnames hnil
    rw [Path.stem_join h.text_ne₁ hq] at htext₁
    rw [Path.stem_join h.text_ne₂ hq] at htext₂
    by_cases hempty : q.text = ""
    · rw [if_pos hempty, List.append_nil] at htext₁ htext₂
      refine ⟨_, ?_, htext₁, htext₂⟩
      rw [hsplit, hmoves]
      simpa using hnil
    · rw [if_neg hempty, List.append_assoc, List.cons_append] at htext₁ htext₂
      refine ⟨_, ?_, htext₁, htext₂⟩
      rw [Text.splitAt_append_cons, List.filterMap_append, hsplit, hmoves]
      simp [hnil]

-- The files of one source, and those of all sources, name the same below both
-- roots unless a pattern tells the roots apart.
theorem forall₂_scan {q : Path} (hq : q.isAbsolute = false) (hstays : staysBelow 0 q.segments)
    {m : Manifest}
    (hreach : ∀ names ∈ t₁.found (r₁.join q),
      m.Impartial r₁ r₂ ((r₁.join q).below names) ((r₂.join q).below names)) :
    List.Forall₂ (Path.Alike r₁ r₂) (t₁.scan (r₁.join q) m) (t₂.scan (r₂.join q) m) := by
  rw [scan_eq, scan_eq, ← h.found_join hq hstays]
  have hfound : ∀ names ∈ t₁.found (r₁.join q),
      Path.Alike r₁ r₂ ((r₁.join q).below names) ((r₂.join q).below names) ∧
      m.covers ((r₁.join q).below names) = m.covers ((r₂.join q).below names) := by
    intro names hnames
    have halike := h.alike_below hq hnames
    exact ⟨halike, halike.covers h.text_ne₁ h.text_ne₂ (hreach names hnames)⟩
  generalize t₁.found (r₁.join q) = found at hfound
  induction found with
  | nil => exact .nil
  | cons names rest ih =>
      obtain ⟨halike, hcovers⟩ := hfound names List.mem_cons_self
      have hrest := ih fun other hother => hfound other (List.mem_cons_of_mem names hother)
      rw [List.map_cons, List.map_cons, List.filter_cons, List.filter_cons, hcovers]
      split
      · exact .cons halike hrest
      · exact hrest

theorem forall₂_scanAll {m : Manifest} {sources : List String}
    (hinside : ∀ source ∈ sources, Path.isAbsolute ⟨source⟩ = false ∧
      staysBelow 0 (Path.segments ⟨source⟩))
    (hreach : ∀ source ∈ sources, ∀ names ∈ t₁.found (r₁.joinText source),
      m.Impartial r₁ r₂ ((r₁.joinText source).below names) ((r₂.joinText source).below names)) :
    List.Forall₂ (Path.Alike r₁ r₂) (t₁.scanAll sources r₁ m) (t₂.scanAll sources r₂ m) := by
  unfold scanAll
  induction sources using List.reverseRecOn with
  | nil => exact .nil
  | append_singleton sources source ih =>
      rw [List.foldl_append, List.foldl_append, List.foldl_cons, List.foldl_cons, List.foldl_nil,
        List.foldl_nil]
      have hsource : source ∈ sources ++ [source] := by simp
      refine Path.forall₂_addNew h.text_ne₁ h.text_ne₂ (ih ?_ ?_)
        (h.forall₂_scan (hinside source hsource).1 (hinside source hsource).2
          (hreach source hsource))
      · exact fun other hother => hinside other (List.mem_append_left _ hother)
      · exact fun other hother => hreach other (List.mem_append_left _ hother)

-- Both roots have the same manifest, or none that can be read.
theorem load :
    (∃ reason₁ reason₂, Manifest.load t₁ r₁ = .error reason₁ ∧
      Manifest.load t₂ r₂ = .error reason₂) ∨
    ∃ loaded, Manifest.load t₁ r₁ = .ok loaded ∧ Manifest.load t₂ r₂ = .ok loaded := by
  obtain ⟨hexists, hread⟩ := h.read_join (q := ⟨Manifest.fileName⟩) rfl rfl
  unfold Manifest.load Path.joinText
  simp only [hexists, hread]
  by_cases hfound : t₂.exists? (r₂.join ⟨Manifest.fileName⟩)
  · simp only [hfound, if_true]
    cases t₂.read (r₂.join ⟨Manifest.fileName⟩) with
    | error fault => exact .inl ⟨_, _, rfl, rfl⟩
    | ok content =>
        simp only
        cases Manifest.parse content with
        | error reason => exact .inl ⟨_, _, rfl, rfl⟩
        | ok m => exact .inr ⟨_, rfl, rfl⟩
  · simp only [hfound, Bool.false_eq_true, if_false]
    exact .inr ⟨_, rfl, rfl⟩

end Twins

end FileTree

-- Every source is relative and never leads above the root.
def Manifest.sourcesInside (m : Manifest) : Bool :=
  m.effectiveSources.all fun source =>
    !Path.isAbsolute ⟨source⟩ && FileTree.staysBelow 0 (Path.segments ⟨source⟩)

namespace Discovery

section Relocated

variable {t₁ t₂ : FileTree} {r₁ r₂ : Path}

theorem exists_files_of_impartial (h : FileTree.Twins t₁ t₂ r₁ r₂) {d₁ d₂ : Discovery}
    (h₁ : ofProject t₁ r₁ = .ok d₁) (h₂ : ofProject t₂ r₂ = .ok d₂)
    (hinside : d₁.manifest.sourcesInside)
    (hreach : ∀ source ∈ d₁.manifest.effectiveSources, ∀ names ∈ t₁.found (r₁.joinText source),
      d₁.manifest.Impartial r₁ r₂ ((r₁.joinText source).below names)
        ((r₂.joinText source).below names)) :
    ∃ files : List Path, d₁.files.map (·.relativeTo? r₁) = files.map some ∧
      d₂.files.map (·.relativeTo? r₂) = files.map some := by
  unfold ofProject at h₁ h₂
  rcases h.load with ⟨reason₁, reason₂, hload₁, -⟩ | ⟨loaded, hload₁, hload₂⟩
  · rw [hload₁] at h₁
    cases h₁
  · rw [hload₁] at h₁
    rw [hload₂] at h₂
    cases h₁
    cases h₂
    refine Path.exists_map_relativeTo? h.text_ne₁ h.text_ne₂ (h.forall₂_scanAll ?_ hreach)
    intro source hsource
    simpa using List.all_eq_true.1 hinside source hsource

-- Patterns that match nothing from inside the text of either root leave the files
-- where they are.
theorem exists_files_of_not_reachesInto (h : FileTree.Twins t₁ t₂ r₁ r₂) {d₁ d₂ : Discovery}
    (h₁ : ofProject t₁ r₁ = .ok d₁) (h₂ : ofProject t₂ r₂ = .ok d₂)
    (hinside : d₁.manifest.sourcesInside)
    (hreach : ∀ source ∈ d₁.manifest.effectiveSources, ∀ names ∈ t₁.found (r₁.joinText source),
      d₁.manifest.reachesInto r₁ ((r₁.joinText source).below names) = false ∧
        d₁.manifest.reachesInto r₂ ((r₂.joinText source).below names) = false) :
    ∃ files : List Path, d₁.files.map (·.relativeTo? r₁) = files.map some ∧
      d₂.files.map (·.relativeTo? r₂) = files.map some := by
  refine exists_files_of_impartial h h₁ h₂ hinside fun source hsource names hnames => ?_
  obtain ⟨hno₁, hno₂⟩ := hreach source hsource names hnames
  exact Manifest.impartial_of_not_reachesInto hno₁ hno₂

end Relocated

end Discovery

namespace FileTree

end FileTree

namespace Discovery

end Discovery

end ApiCatalog
