import ApiCatalog.Proofs.Path

namespace ApiCatalog

namespace Path

section Moves

-- The steps of a path that its name shows.
def moves (p : Path) : List Step := p.steps.dropWhile (· == .here)

theorem text_of_step? {segment : List Char} {step : Step} (h : step? segment = some step) :
    step.text.toList = segment ∧ step ≠ .root ∧ step ≠ .here := by
  unfold step? at h
  split at h
  · cases h
  · split at h
    · rename_i hup
      cases h
      exact ⟨hup.symm, by simp, by simp⟩
    · cases h
      exact ⟨String.toList_ofList, by simp, by simp⟩

theorem ne_of_mem_filterMap_step? {segments : List (List Char)} {step : Step}
    (h : step ∈ segments.filterMap step?) : step ≠ .root ∧ step ≠ .here := by
  obtain ⟨segment, -, hstep⟩ := List.mem_filterMap.1 h
  exact (text_of_step? hstep).2

theorem map_text_filterMap_step? (segments : List (List Char)) :
    (segments.filterMap step?).map (·.text.toList) = segments.filter (!isIdle ·) := by
  induction segments with
  | nil => rfl
  | cons segment rest ih =>
      by_cases hidle : isIdle segment
      · have hstep : step? segment = none := by rw [step?, if_pos hidle]
        rw [List.filterMap_cons_none hstep, ih, List.filter_cons_of_neg (by simp [hidle])]
      · have hstep : ∃ step, step? segment = some step := by
          rw [step?, if_neg hidle]
          split <;> exact ⟨_, rfl⟩
        obtain ⟨step, hstep⟩ := hstep
        rw [List.filterMap_cons_some hstep, List.map_cons, (text_of_step? hstep).1, ih,
          List.filter_cons_of_pos (by simp [hidle])]

-- Nothing but a `.` in front is dropped.
theorem moves_eq (p : Path) :
    p.moves = (if p.isAbsolute then [.root] else []) ++ p.segments.filterMap step? := by
  have hkept : ∀ segments : List (List Char),
      (segments.filterMap step?).dropWhile (· == .here) = segments.filterMap step? := by
    intro segments
    cases hsteps : segments.filterMap step? with
    | nil => rfl
    | cons step rest =>
        have hne := (ne_of_mem_filterMap_step? (hsteps ▸ List.mem_cons_self)).2
        exact List.dropWhile_cons_of_neg (by simpa using hne)
  by_cases hp : p.text = ""
  · obtain ⟨text⟩ := p
    obtain rfl : text = "" := hp
    rfl
  · have hsegments := lead_append_anchorOf p.segments
    rw [moves, steps, anchored_eq hp, isAbsolute_eq hp]
    generalize anchorOf p.segments = anchored at hsegments ⊢
    obtain ⟨anchor, rest⟩ := anchored
    rw [← hsegments]
    cases anchor with
    | root => rfl
    | here => exact hkept rest
    | none => exact hkept rest

-- The segments that a name shows, with a separator in front of them if the path starts at
-- the root.
theorem toList_sourceName (p : Path) :
    p.sourceName.toList = Text.unifySlashes ((if p.isAbsolute then ['/'] else []) ++
      ['/'].intercalate (p.segments.filter (!isIdle ·))) := by
  have htexts : ∀ steps : List Step, ("/".intercalate (steps.map Step.text)).toList =
      ['/'].intercalate (steps.map (·.text.toList)) := by
    intro steps
    rw [String.toList_intercalate, List.map_map]
    rfl
  have hmoves := p.moves_eq
  rw [moves] at hmoves
  rw [sourceName, hmoves, String.toList_ofList, ← map_text_filterMap_step?]
  by_cases habsolute : p.isAbsolute
  · simp [habsolute, htexts]
  · simp only [habsolute, Bool.false_eq_true, if_false, List.nil_append]
    split
    · rename_i rest hroot
      exact absurd rfl (ne_of_mem_filterMap_step? (hroot ▸ List.mem_cons_self)).1
    · rw [htexts]

end Moves

section Pieces

-- What a step shows between separators, its backslashes being shown as such. In front of the
-- root there is nothing.
def Step.pieces : Step → List (List Char)
  | root => [[]]
  | step => Text.splitAt '\\' step.text.toList

def pieces (p : Path) : List (List Char) := p.moves.flatMap Step.pieces

theorem pieces_eq (p : Path) :
    p.pieces = (if p.isAbsolute then [[]] else []) ++
      (p.segments.filter (!isIdle ·)).flatMap (Text.splitAt '\\') := by
  have hsteps : (p.segments.filterMap step?).flatMap Step.pieces =
      (p.segments.filter (!isIdle ·)).flatMap (Text.splitAt '\\') := by
    rw [← map_text_filterMap_step?, List.flatMap_map]
    refine List.flatMap_congr fun step hstep => ?_
    have hroot := (ne_of_mem_filterMap_step? hstep).1
    cases step with
    | root => exact absurd rfl hroot
    | _ => rfl
  rw [pieces, moves_eq, List.flatMap_append, hsteps]
  split <;> rfl

theorem not_mem_of_mem_kept {p : Path} {segment : List Char}
    (h : segment ∈ p.segments.filter (!isIdle ·)) : '/' ∉ segment ∧ isIdle segment = false := by
  obtain ⟨hsegment, hmoves⟩ := List.mem_filter.1 h
  exact ⟨not_mem_of_mem_segments hsegment, by simpa using hmoves⟩

theorem sourceName_of_idle {p : Path} (h : p.segments.filter (!isIdle ·) = []) :
    p.sourceName = if p.isAbsolute then "/" else "" := by
  rw [← String.toList_inj, toList_sourceName, h]
  split <;> rfl

-- A name with something to show is cut into the pieces of its steps.
theorem segments_sourceName {p : Path} (h : p.segments.filter (!isIdle ·) ≠ []) :
    segments ⟨p.sourceName⟩ = p.pieces := by
  have hkept := Text.splitAt_unifySlashes_intercalate h fun s hs => (not_mem_of_mem_kept hs).1
  rw [segments, toList_sourceName, pieces_eq]
  split
  · have hroot : Text.unifySlashes (['/'] ++ ['/'].intercalate (p.segments.filter (!isIdle ·))) =
        '/' :: Text.unifySlashes (['/'].intercalate (p.segments.filter (!isIdle ·))) := rfl
    rw [hroot, Text.splitAt_cons, if_pos rfl, hkept]
    rfl
  · exact hkept

end Pieces

section Canonical

-- The segments of a path without the empty one in front of the root.
def behindRoot : List (List Char) → List (List Char)
  | [] :: rest => rest
  | segments => segments

theorem intercalate_filter_eq_iff {segments : List (List Char)} (hne : segments ≠ [])
    (h : ∀ segment ∈ segments, '/' ∉ segment) :
    ['/'].intercalate (segments.filter (!isIdle ·)) = ['/'].intercalate segments ↔
      segments = [[]] ∨ ∀ segment ∈ segments, isIdle segment = false := by
  have hwhole := Text.splitAt_intercalate hne h
  constructor
  · intro heq
    by_cases hkept : segments.filter (!isIdle ·) = []
    · rw [hkept] at heq
      rw [← heq] at hwhole
      exact .inl hwhole.symm
    · have hpart := Text.splitAt_intercalate hkept fun s hs => h s (List.mem_filter.1 hs).1
      rw [heq, hwhole] at hpart
      rw [eq_comm, List.filter_eq_self] at hpart
      exact .inr fun segment hsegment => by simpa using hpart segment hsegment
  · rintro (rfl | hmoves)
    · rfl
    · rw [List.filter_eq_self.2 fun segment hsegment => by simpa using hmoves segment hsegment]

theorem behindRoot_segments {p : Path} (h : p.isAbsolute = false) (hne : p.text ≠ "") :
    behindRoot p.segments = p.segments := by
  rw [isAbsolute_eq hne] at h
  unfold behindRoot
  split
  · rename_i hroot
    rw [hroot] at h
    cases h
  · rfl

theorem toList_sourceName_of_not_mem {p : Path} (h : '\\' ∉ p.text.toList) :
    p.sourceName.toList = (if p.isAbsolute then ['/'] else []) ++
      ['/'].intercalate (p.segments.filter (!isIdle ·)) := by
  rw [toList_sourceName]
  refine Text.unifySlashes_of_not_mem fun hmem => ?_
  rcases List.mem_append.1 hmem with hroot | hkept
  · split at hroot
    · simp at hroot
    · cases hroot
  · rcases Text.mem_of_mem_intercalate hkept with heq | ⟨segment, hsegment, hback⟩
    · cases heq
    · exact h (Text.subset_of_mem_splitAt (List.mem_filter.1 hsegment).1 hback)

-- A text without backslashes is its own name if and only if no segment of it is idle.
theorem sourceName_eq_text_iff {p : Path} (h : '\\' ∉ p.text.toList) :
    p.sourceName = p.text ↔
      p.text = "/" ∨ ∀ segment ∈ behindRoot p.segments, isIdle segment = false := by
  rw [← String.toList_inj, toList_sourceName_of_not_mem h]
  by_cases habsolute : p.isAbsolute
  · obtain ⟨rest, hrest⟩ := (isAbsolute_iff p).1 habsolute
    have hsegments : p.segments = [] :: Text.splitAt '/' rest := by
      rw [segments, hrest, Text.splitAt_cons, if_pos rfl]
    have hroot : p.text = "/" ↔ Text.splitAt '/' rest = [[]] := by
      rw [← Text.splitAt_nil '/', Text.splitAt_inj, ← String.toList_inj, hrest]
      exact List.cons_inj_right '/'
    have hiff := intercalate_filter_eq_iff (Text.splitAt_ne_nil '/' rest)
      fun segment hsegment => Text.not_mem_of_mem_splitAt hsegment
    rw [Text.intercalate_splitAt] at hiff
    rw [hroot, hsegments, behindRoot, ← hiff, if_pos habsolute, hrest,
      List.filter_cons_of_neg (by simp [isIdle]), List.singleton_append, List.cons_inj_right]
  · rw [if_neg habsolute, List.nil_append]
    by_cases hne : p.text = ""
    · simp [segments, hne, Text.splitAt_nil, behindRoot, isIdle]
    · have hiff := intercalate_filter_eq_iff (Text.splitAt_ne_nil '/' p.text.toList)
        fun segment hsegment => Text.not_mem_of_mem_splitAt hsegment
      have hempty : ¬ Text.splitAt '/' p.text.toList = [[]] := by
        rw [← Text.splitAt_nil '/', Text.splitAt_inj]
        exact toList_ne_nil hne
      have hroot : p.text ≠ "/" := by
        intro heq
        exact habsolute ((isAbsolute_iff p).2 ⟨[], by rw [heq]; rfl⟩)
      rw [Text.intercalate_splitAt] at hiff
      rw [behindRoot_segments (by simpa using habsolute) hne, or_iff_right hroot, segments, hiff,
        or_iff_right hempty]

theorem not_mem_sourceName (p : Path) : '\\' ∉ p.sourceName.toList := by
  rw [toList_sourceName]
  exact Text.not_mem_unifySlashes _

theorem sourceName_sourceName_iff (p : Path) :
    sourceName ⟨p.sourceName⟩ = p.sourceName ↔
      p.sourceName = "/" ∨ ∀ piece ∈ behindRoot p.pieces, isIdle piece = false := by
  have hiff := sourceName_eq_text_iff (p := ⟨p.sourceName⟩) p.not_mem_sourceName
  by_cases hkept : p.segments.filter (!isIdle ·) = []
  · -- nothing to show but the root, if that
    rw [sourceName_of_idle hkept] at hiff ⊢
    rw [hiff, pieces_eq, hkept]
    split
    · simp
    · simp [segments, Text.splitAt_nil, behindRoot]
  · rw [hiff, segments_sourceName hkept]

-- One piece is all of one step, and `.` is no step that shows.
theorem pieces_ne_dot (p : Path) : p.pieces ≠ [['.']] := by
  intro hpieces
  rw [pieces_eq] at hpieces
  split at hpieces
  · simp at hpieces
  · rw [List.nil_append] at hpieces
    cases hkept : p.segments.filter (!isIdle ·) with
    | nil => simp [hkept] at hpieces
    | cons segment rest =>
        have hsolid := (not_mem_of_mem_kept (hkept ▸ List.mem_cons_self)).2
        rw [hkept, List.flatMap_cons] at hpieces
        rcases List.append_eq_singleton_iff.1 hpieces with ⟨hnil, -⟩ | ⟨hsplit, -⟩
        · exact Text.splitAt_ne_nil '\\' segment hnil
        · have hdot : segment = ['.'] := (Text.splitAt_inj '\\').1 hsplit
          rw [hdot] at hsolid
          cases hsolid

theorem leads_here_iff (p : Path) :
    ['.', '/'] <+: p.sourceName.toList ↔ p.pieces.head? = some ['.'] := by
  by_cases hkept : p.segments.filter (!isIdle ·) = []
  · rw [sourceName_of_idle hkept, pieces_eq, hkept]
    split
    · simp
    · simp
  · have hpieces : Text.splitAt '/' p.sourceName.toList = p.pieces := segments_sourceName hkept
    constructor
    · rintro ⟨rest, hrest⟩
      rw [← hpieces, ← hrest]
      simp [Text.splitAt_cons]
    · intro hhead
      obtain ⟨more, hmore⟩ := List.head?_eq_some_iff.1 hhead
      have hne : more ≠ [] := by
        rintro rfl
        exact p.pieces_ne_dot hmore
      rw [hmore, ← List.singleton_append] at hpieces
      obtain ⟨before, after, hname, hbefore, -⟩ :=
        Text.exists_append_of_splitAt_eq hpieces (by simp) hne
      have hdot : before = ['.'] := (Text.splitAt_inj '/').1 hbefore
      exact ⟨after, by rw [hname, hdot]; rfl⟩

theorem forall_pieces_of_not_mem {p : Path} (h : '\\' ∉ p.text.toList) :
    ∀ piece ∈ behindRoot p.pieces, isIdle piece = false := by
  have hwhole : (p.segments.filter (!isIdle ·)).flatMap (Text.splitAt '\\') =
      p.segments.filter (!isIdle ·) := by
    have hsplit : ∀ segment ∈ p.segments.filter (!isIdle ·),
        Text.splitAt '\\' segment = [segment] := fun segment hsegment =>
      Text.splitAt_of_not_mem fun hback =>
        h (Text.subset_of_mem_splitAt (List.mem_filter.1 hsegment).1 hback)
    rw [List.flatMap_congr hsplit, List.flatMap_singleton']
  have hsolid : ∀ segment ∈ p.segments.filter (!isIdle ·), isIdle segment = false :=
    fun segment hsegment => (not_mem_of_mem_kept hsegment).2
  rw [pieces_eq, hwhole]
  split
  · exact hsolid
  · rw [List.nil_append]
    unfold behindRoot
    split
    · rename_i rest hcons
      exact absurd (hsolid [] (hcons ▸ List.mem_cons_self)) (by decide)
    · exact hsolid

end Canonical

-- A name has no backslash and depends on nothing but the steps it shows. It is its own name,
-- and does not lead with a `.`, where no step falls apart into idle pieces at its backslashes.
theorem sourceName_canonical_iff (p : Path) :
    '\\' ∉ p.sourceName.toList ∧
    (∀ q : Path, q.moves = p.moves → q.sourceName = p.sourceName) ∧
    (['.', '/'] <+: p.sourceName.toList ↔ p.pieces.head? = some ['.']) ∧
    (sourceName ⟨p.sourceName⟩ = p.sourceName ↔
      p.sourceName = "/" ∨ ∀ piece ∈ behindRoot p.pieces, isIdle piece = false) ∧
    ('\\' ∉ p.text.toList →
      ¬ ['.', '/'] <+: p.sourceName.toList ∧ sourceName ⟨p.sourceName⟩ = p.sourceName) := by
  refine ⟨p.not_mem_sourceName, fun q hmoves => ?_, p.leads_here_iff, p.sourceName_sourceName_iff,
    fun hback => ⟨fun hdot => ?_, ?_⟩⟩
  · rw [moves, moves] at hmoves
    rw [sourceName, sourceName, hmoves]
  · obtain ⟨rest, hrest⟩ := List.head?_eq_some_iff.1 (p.leads_here_iff.1 hdot)
    have hidle := forall_pieces_of_not_mem hback
    rw [hrest] at hidle
    exact absurd (hidle ['.'] List.mem_cons_self) (by decide)
  · exact p.sourceName_sourceName_iff.2 (.inr (forall_pieces_of_not_mem hback))

-- A file whose own name is `.\a` is known under a name that leads with a `.`, and that is
-- the name of another.
theorem sourceName_leads_here :
    sourceName ⟨".\\a"⟩ = "./a" ∧ sourceName ⟨"./a"⟩ = "a" := by
  decide +kernel

end Path

end ApiCatalog
