import ApiCatalog.FileTree
import ApiCatalog.Proofs.Path

namespace ApiCatalog.FileTree

variable {t t' : FileTree} {p : Path} {place : List String}

section Places

theorem node?_nil (t : FileTree) : t.node? [] = some .directory := rfl

theorem lookup_filter_append (nodes : List (List String × FileNode)) (names : List String)
    (node : FileNode) (other : List String) :
    (nodes.filter (·.1 != names) ++ [(names, node)]).lookup other =
      if other = names then some node else nodes.lookup other := by
  induction nodes with
  | nil =>
      by_cases h : other = names
      · simp [h]
      · have hbeq : (other == names) = false := beq_eq_false_iff_ne.2 h
        simp [h, hbeq, List.lookup_cons]
  | cons head rest ih =>
      obtain ⟨key, value⟩ := head
      by_cases hkey : key = names
      · have hdrop : ((key, value) :: rest).filter (·.1 != names) = rest.filter (·.1 != names) := by
          simp [hkey]
        rw [hdrop, ih]
        by_cases h : other = names
        · rw [if_pos h, if_pos h]
        · have hbeq : (other == key) = false := beq_eq_false_iff_ne.2 (hkey ▸ h)
          rw [if_neg h, if_neg h, List.lookup_cons, hbeq]
      · have hkeep : ((key, value) :: rest).filter (·.1 != names) =
            (key, value) :: rest.filter (·.1 != names) := by
          simp [hkey]
        rw [hkeep, List.cons_append, List.lookup_cons, List.lookup_cons, ih]
        by_cases h : other = key
        · have hother : other ≠ names := fun heq => hkey (h.symm.trans heq)
          simp only [beq_iff_eq.2 h, hother, if_false]
        · have hbeq : (other == key) = false := beq_eq_false_iff_ne.2 h
          rw [hbeq]

theorem node?_put {names : List String} (hne : names ≠ []) (t : FileTree) (node : FileNode)
    (other : List String) :
    (t.put names node).node? other = if other = names then some node else t.node? other := by
  by_cases hother : other = []
  · subst hother
    rw [node?_nil, node?_nil, if_neg (Ne.symm hne)]
  · simp only [node?, List.isEmpty_iff, hother, if_false, put, lookup_filter_append]

-- Where one segment leads to.
def moved (place : List String) (segment : List Char) : List String :=
  if Path.isIdle segment then place
  else if segment = ['.', '.'] then place.dropLast
  else place ++ [String.ofList segment]

theorem moved_of_isIdle {segment : List Char} (h : Path.isIdle segment) :
    moved place segment = place := by
  rw [moved, if_pos h]

theorem enter_eq (t : FileTree) (place : List String) (h : t.node? place = some .directory) :
    t.enter place = .ok () := by
  rw [enter, h]

theorem node?_of_enter (h : t.enter place = .ok ()) : t.node? place = some .directory := by
  unfold enter at h
  split at h
  · assumption
  · cases h
  · cases h

theorem move_eq_ok_iff {next : List String} {segment : List Char} :
    t.move place segment = .ok next ↔
      t.node? place = some .directory ∧ next = moved place segment := by
  constructor
  · intro h
    unfold move at h
    cases henter : t.enter place with
    | error fault =>
        rw [henter] at h
        cases h
    | ok u =>
        rw [henter] at h
        cases h
        exact ⟨node?_of_enter henter, rfl⟩
  · rintro ⟨hnode, rfl⟩
    rw [move, enter_eq t place hnode]
    rfl

theorem follow_nil (t : FileTree) (place : List String) : t.follow place [] = .ok place := rfl

theorem follow_cons (t : FileTree) (place : List String) (segment : List Char)
    (rest : List (List Char)) :
    t.follow place (segment :: rest) = (t.move place segment).bind (t.follow · rest) := by
  unfold follow
  rw [List.foldlM_cons]
  rfl

theorem follow_append (t : FileTree) (place : List String) (front rest : List (List Char)) :
    t.follow place (front ++ rest) = (t.follow place front).bind (t.follow · rest) := by
  unfold follow
  rw [List.foldlM_append]
  rfl

theorem follow_cons_eq_ok_iff {next : List String} {segment : List Char}
    {rest : List (List Char)} :
    t.follow place (segment :: rest) = .ok next ↔
      t.node? place = some .directory ∧ t.follow (moved place segment) rest = .ok next := by
  rw [follow_cons]
  constructor
  · intro h
    cases hmove : t.move place segment with
    | error fault =>
        rw [hmove] at h
        cases h
    | ok mid =>
        rw [hmove] at h
        obtain ⟨hnode, rfl⟩ := move_eq_ok_iff.1 hmove
        exact ⟨hnode, h⟩
  · rintro ⟨hnode, hrest⟩
    rw [move_eq_ok_iff.2 ⟨hnode, rfl⟩]
    exact hrest

theorem follow_append_eq_ok_iff {next : List String} {front rest : List (List Char)} :
    t.follow place (front ++ rest) = .ok next ↔
      ∃ mid, t.follow place front = .ok mid ∧ t.follow mid rest = .ok next := by
  rw [follow_append]
  cases h : t.follow place front with
  | error fault => simp [Except.bind]
  | ok mid => simp [Except.bind]

theorem follow_of_isIdle {segments : List (List Char)}
    (h : ∀ segment ∈ segments, Path.isIdle segment) (hnode : t.node? place = some .directory) :
    t.follow place segments = .ok place := by
  induction segments with
  | nil => rfl
  | cons segment rest ih =>
      rw [follow_cons_eq_ok_iff, moved_of_isIdle (h segment List.mem_cons_self)]
      exact ⟨hnode, ih fun s hs => h s (List.mem_cons_of_mem segment hs)⟩

theorem resolve_eq_ok_iff {node : FileNode} :
    t.resolve p = .ok (place, node) ↔
      p.text ≠ "" ∧ t.follow (t.start p) p.segments = .ok place ∧ t.node? place = some node := by
  unfold resolve
  by_cases hp : p.text = ""
  · simp [hp]
  · rw [if_neg hp]
    simp only [ne_eq, hp, not_false_eq_true, true_and]
    cases hfollow : t.follow (t.start p) (Text.splitAt '/' p.text.toList) with
    | error fault => simp [Path.segments, hfollow]
    | ok found =>
        simp only [Path.segments, hfollow, Except.ok.injEq]
        cases hnode : t.node? found with
        | none =>
            simp only [reduceCtorEq, false_iff, not_and]
            rintro rfl
            simp [hnode]
        | some other =>
            simp only [Except.ok.injEq, Prod.mk.injEq]
            constructor
            · rintro ⟨rfl, rfl⟩
              exact ⟨rfl, hnode⟩
            · rintro ⟨rfl, heq⟩
              rw [hnode] at heq
              exact ⟨rfl, Option.some.inj heq⟩

theorem isDirectory_of_resolve (h : t.resolve p = .ok (place, .directory)) :
    t.isDirectory p := by
  rw [isDirectory, h]

theorem exists_resolve_of_isDirectory (h : t.isDirectory p) :
    ∃ place, t.resolve p = .ok (place, .directory) := by
  unfold isDirectory at h
  split at h
  · exact ⟨_, by assumption⟩
  · cases h

theorem read_of_resolve {content : String} (h : t.resolve p = .ok (place, .text content)) :
    t.read p = .ok content := by
  rw [read, h]

-- Two paths with the same first segments start at the same place.
theorem start_of_segments {q : Path} {front more rest : List (List Char)} (hp : p.text ≠ "")
    (hq : q.text ≠ "") (hfront : front ≠ []) (hpsegments : p.segments = front ++ more)
    (hqsegments : q.segments = front ++ rest) : t.start p = t.start q := by
  rw [start, start, Path.isAbsolute_eq hp, Path.isAbsolute_eq hq, hpsegments, hqsegments,
    Path.anchorOf_append hfront, Path.anchorOf_append hfront]

theorem follow_trunk (h : t.resolve p = .ok (place, .directory)) :
    t.follow (t.start p) p.trunk = .ok place := by
  obtain ⟨-, hfollow, -⟩ := resolve_eq_ok_iff.1 h
  rcases p.segments_eq_trunk with heq | heq
  · rw [← heq, hfollow]
  · -- a last separator leads nowhere
    rw [heq, follow_append_eq_ok_iff] at hfollow
    obtain ⟨mid, hmid, hlast⟩ := hfollow
    obtain ⟨-, hstay⟩ := follow_cons_eq_ok_iff.1 hlast
    rw [moved_of_isIdle rfl, follow_nil, Except.ok.injEq] at hstay
    rw [hmid, hstay]

-- A path leads through what lies on its way.
theorem exists_resolve_of_segments {q : Path} {node : FileNode} {front rest : List (List Char)}
    (h : t.resolve p = .ok (place, node)) (hsegments : p.segments = front ++ rest)
    (hfront : front ≠ []) (hrest : rest ≠ []) (hq : q.text ≠ "")
    (hqsegments : q.segments = front ∨ q.segments = front ++ [[]]) :
    ∃ mid, t.resolve q = .ok (mid, .directory) := by
  obtain ⟨hp, hfollow, -⟩ := resolve_eq_ok_iff.1 h
  rw [hsegments, follow_append_eq_ok_iff] at hfollow
  obtain ⟨mid, hmid, hgo⟩ := hfollow
  have hnode : t.node? mid = some .directory := by
    cases rest with
    | nil => exact absurd rfl hrest
    | cons segment rest => exact (follow_cons_eq_ok_iff.1 hgo).1
  refine ⟨mid, resolve_eq_ok_iff.2 ⟨hq, ?_, hnode⟩⟩
  rcases hqsegments with hqsegments | hqsegments
  · rw [start_of_segments hq hp hfront (by rw [hqsegments, List.append_nil]) hsegments,
      hqsegments, hmid]
  · rw [start_of_segments hq hp hfront hqsegments hsegments, hqsegments, follow_append_eq_ok_iff]
    exact ⟨mid, hmid, follow_of_isIdle (by simp [Path.isIdle]) hnode⟩

theorem isDirectory_of_parent? {q : Path} {node : FileNode} (h : t.resolve p = .ok (place, node))
    (hparent : p.parent? = some q) (hq : q.text ≠ "") : t.isDirectory q := by
  obtain ⟨front, rest, hsegments, hfront, hrest, hqsegments⟩ :=
    Path.exists_segments_of_parent? hparent hq
  obtain ⟨mid, hmid⟩ := exists_resolve_of_segments h hsegments hfront hrest hq hqsegments
  exact isDirectory_of_resolve hmid

theorem Path.Above.text_ne {p q : Path} (h : p.Above q) : p.text ≠ "" := by
  have hempty : ∀ r : Path, (⟨""⟩ : Path).parent? ≠ some r := by
    intro r hr
    cases hr
  intro hp
  obtain ⟨text⟩ := p
  subst hp
  cases h with
  | parent h => exact hempty _ h
  | step h _ => exact hempty _ h

theorem isDirectory_of_above {q : Path} {node : FileNode} (h : t.resolve p = .ok (place, node))
    (habove : p.Above q) (hq : q.text ≠ "") : t.isDirectory q := by
  induction habove generalizing place node with
  | parent hparent => exact isDirectory_of_parent? h hparent hq
  | step hparent hmore ih =>
      obtain ⟨mid, hmid⟩ := exists_resolve_of_isDirectory
        (isDirectory_of_parent? h hparent (Path.Above.text_ne hmore))
      exact ih hmid hq

end Places

section Changes

-- Every directory is still there.
structure Keeps (t t' : FileTree) : Prop where
  workingDirectory : t'.workingDirectory = t.workingDirectory
  directories : ∀ names, t.node? names = some .directory → t'.node? names = some .directory

theorem Keeps.start (h : t.Keeps t') (p : Path) : t'.start p = t.start p := by
  rw [FileTree.start, FileTree.start, h.workingDirectory]

theorem Keeps.follow (h : t.Keeps t') {segments : List (List Char)} {next : List String}
    (hfollow : t.follow place segments = .ok next) : t'.follow place segments = .ok next := by
  induction segments generalizing place with
  | nil => exact hfollow
  | cons segment rest ih =>
      obtain ⟨hnode, hrest⟩ := follow_cons_eq_ok_iff.1 hfollow
      exact follow_cons_eq_ok_iff.2 ⟨h.directories place hnode, ih hrest⟩

theorem Keeps.resolve (h : t.Keeps t') (hp : t.resolve p = .ok (place, .directory)) :
    t'.resolve p = .ok (place, .directory) := by
  obtain ⟨htext, hfollow, hnode⟩ := resolve_eq_ok_iff.1 hp
  refine resolve_eq_ok_iff.2 ⟨htext, ?_, h.directories place hnode⟩
  rw [h.start]
  exact h.follow hfollow

theorem keeps_put {names : List String} (hne : names ≠ []) {node : FileNode}
    (h : t.node? names ≠ some .directory) : t.Keeps (t.put names node) where
  workingDirectory := rfl
  directories := by
    intro other hother
    rw [node?_put hne, if_neg, hother]
    rintro rfl
    exact h hother

-- The segments up to the last one that is not empty, and how a path goes on.
theorem exists_named (segments : List (List Char)) :
    ∃ empties, segments = (segments.reverse.dropWhile (· == [])).reverse ++ empties ∧
      ∀ segment ∈ empties, segment = [] := by
  have hsplit := List.takeWhile_append_dropWhile (p := (· == ([] : List Char)))
    (l := segments.reverse)
  refine ⟨(segments.reverse.takeWhile (· == [])).reverse, ?_, fun segment hmem => ?_⟩
  · rw [← List.reverse_append, hsplit, List.reverse_reverse]
  · simpa using List.mem_takeWhile_imp (List.mem_reverse.1 hmem)

-- A name for something new is the last segment but for empty ones.
theorem exists_segments_of_target {target : Target} {name : String} (h : t.target p = .ok target)
    (hname : target.name = some name) :
    p.text ≠ "" ∧ ∃ front empties, p.segments = front ++ name.toList :: empties ∧
      (∀ segment ∈ empties, segment = []) ∧ (target.slashed = false → empties = []) ∧
      t.follow (t.start p) front = .ok target.directory ∧
      t.node? target.directory = some .directory ∧
      moved target.directory name.toList = target.directory ++ [name] := by
  unfold FileTree.target at h
  by_cases hp : p.text = ""
  · rw [if_pos hp] at h
    cases h
  refine ⟨hp, ?_⟩
  rw [if_neg hp] at h
  obtain ⟨empties, hsegments, hempties⟩ := exists_named p.segments
  have hstop := List.head?_dropWhile_not (· == ([] : List Char)) p.segments.reverse
  rw [← List.getLast?_reverse] at hstop
  rw [← Path.segments] at h
  simp only at h
  generalize (p.segments.reverse.dropWhile (· == [])).reverse = named at h hsegments hstop
  cases hlast : named.getLast? with
  | none =>
      rw [hlast] at h
      cases h
      cases hname
  | some last =>
      have hnamed := List.dropLast_append_getLast? last (Option.mem_def.2 hlast)
      rw [hlast] at h hstop
      cases hfollow : t.follow (t.start p) named.dropLast with
      | error fault =>
          rw [hfollow] at h
          cases h
      | ok directory =>
          cases henter : t.enter directory with
          | error fault =>
              rw [hfollow] at h
              simp only [Except.bind, henter] at h
              cases h
          | ok u =>
              rw [hfollow] at h
              simp only [Except.bind, henter] at h
              cases h
              simp only at hname ⊢
              split at hname
              · cases hname
              · rename_i hdots
                cases hname
                rw [String.toList_ofList]
                refine ⟨named.dropLast, empties, ?_, hempties, ?_, hfollow,
                  node?_of_enter henter, ?_⟩
                · rw [← List.singleton_append, ← List.append_assoc, hnamed, hsegments]
                · intro hslashed
                  have hlength : ¬ named.length < p.segments.length := by simpa using hslashed
                  rw [hsegments, List.length_append] at hlength
                  exact List.eq_nil_of_length_eq_zero (by omega)
                · have hidle : Path.isIdle last = false := by
                    simp_all [Path.isIdle]
                  simp_all [moved]

-- Whatever is put under a new name is found there.
theorem resolve_of_target {target : Target} {name : String} {node : FileNode}
    (h : t.target p = .ok target) (hname : target.name = some name) (hkeeps : t.Keeps t')
    (hnode : t'.node? (target.directory ++ [name]) = some node)
    (hslashed : target.slashed = true → node = .directory) :
    t'.resolve p = .ok (target.directory ++ [name], node) := by
  obtain ⟨hp, front, empties, hsegments, hempties, hend, hfollow, hdirectory, hmoved⟩ :=
    exists_segments_of_target h hname
  refine resolve_eq_ok_iff.2 ⟨hp, ?_, hnode⟩
  rw [hsegments, hkeeps.start, follow_append_eq_ok_iff]
  refine ⟨target.directory, hkeeps.follow hfollow, ?_⟩
  rw [follow_cons_eq_ok_iff, hmoved]
  refine ⟨hkeeps.directories _ hdirectory, ?_⟩
  cases hslash : target.slashed with
  | false =>
      rw [hend hslash]
      rfl
  | true =>
      rw [hslashed hslash] at hnode
      exact follow_of_isIdle (fun segment hmem => by rw [hempties segment hmem]; rfl) hnode

theorem exists_put_of_write {content : String} (h : t.write p content = .ok t') :
    ∃ place, place ≠ [] ∧ t.node? place ≠ some .directory ∧ t' = t.put place (.text content) ∧
      t'.resolve p = .ok (place, .text content) := by
  unfold write at h
  cases htarget : t.target p with
  | error fault =>
      rw [htarget] at h
      cases h
  | ok target =>
      rw [htarget] at h
      simp only [Except.bind] at h
      split at h
      · cases h
      · rename_i name hname
        split at h
        · cases h
        · rename_i hslashed
          have hfree : t.node? (target.directory ++ [name]) ≠ some .directory := by
            intro hdirectory
            rw [hdirectory] at h
            cases h
          have hput : t' = t.put (target.directory ++ [name]) (.text content) := by
            split at h
            · cases h
            · exact (Except.ok.inj h).symm
          have hne : target.directory ++ [name] ≠ [] := by simp
          refine ⟨_, hne, hfree, hput, ?_⟩
          rw [hput]
          refine resolve_of_target htarget hname (keeps_put hne hfree) ?_ fun hslash =>
            absurd hslash hslashed
          rw [node?_put hne, if_pos rfl]

-- A file is written only into a directory.
theorem exists_resolve_of_write {name content : String} (hp : p.text ≠ "")
    (hname : Path.IsName name) (h : t.write (p.joinText name) content = .ok t') :
    ∃ place, t.resolve p = .ok (place, .directory) := by
  obtain ⟨place, hne, -, rfl, hresolve⟩ := exists_put_of_write h
  have hkeeps : (t.put place (.text content)).Keeps t := by
    refine ⟨rfl, fun other hother => ?_⟩
    rw [node?_put hne] at hother
    split at hother
    · cases hother
    · exact hother
  have hsegments : (p.joinText name).segments = p.trunk ++ [name.toList] := by
    rw [Path.joinText, Path.segments_join hp hname.isAbsolute, hname.segments]
  obtain ⟨mid, hmid⟩ := exists_resolve_of_segments hresolve hsegments p.trunk_ne_nil (by simp) hp
    p.segments_eq_trunk
  exact ⟨mid, hkeeps.resolve hmid⟩

theorem exists_put_of_makeDirectory (h : t.makeDirectory p = .ok t') :
    ∃ place, place ≠ [] ∧ t.node? place = none ∧ t' = t.put place .directory ∧
      t'.resolve p = .ok (place, .directory) := by
  unfold makeDirectory at h
  cases htarget : t.target p with
  | error fault =>
      rw [htarget] at h
      cases h
  | ok target =>
      rw [htarget] at h
      simp only [Except.bind] at h
      split at h
      · cases h
      · rename_i name hname
        split at h
        · cases h
        · rename_i hfree
          have hput : t' = t.put (target.directory ++ [name]) .directory :=
            (Except.ok.inj h).symm
          have hne : target.directory ++ [name] ≠ [] := by simp
          refine ⟨_, hne, hfree, hput, ?_⟩
          rw [hput]
          refine resolve_of_target htarget hname (keeps_put hne (by simp [hfree])) ?_
            fun _ => rfl
          rw [node?_put hne, if_pos rfl]

-- Nothing is changed but that some paths have become directories.
structure Grows (t t' : FileTree) (along : Path → Prop) : Prop where
  workingDirectory : t'.workingDirectory = t.workingDirectory
  only : ∀ names, t'.node? names = t.node? names ∨
    t.node? names = none ∧ t'.node? names = some .directory ∧
      ∃ q, along q ∧ t'.resolve q = .ok (names, .directory)

variable {along : Path → Prop}

theorem Grows.refl (t : FileTree) : t.Grows t along := ⟨rfl, fun _ => .inl rfl⟩

theorem Grows.mono {along' : Path → Prop} (h : t.Grows t' along) (hmono : ∀ q, along q → along' q) :
    t.Grows t' along' := by
  refine ⟨h.workingDirectory, fun names => ?_⟩
  rcases h.only names with heq | ⟨hnone, hdirectory, q, hq, hresolve⟩
  · exact .inl heq
  · exact .inr ⟨hnone, hdirectory, q, hmono q hq, hresolve⟩

theorem Grows.keeps (h : t.Grows t' along) : t.Keeps t' where
  workingDirectory := h.workingDirectory
  directories := by
    intro names hnames
    rcases h.only names with heq | ⟨hnone, -⟩
    · rw [heq, hnames]
    · rw [hnames] at hnone
      cases hnone

theorem Grows.trans {t'' : FileTree} (h : t.Grows t' along) (h' : t'.Grows t'' along) :
    t.Grows t'' along where
  workingDirectory := h'.workingDirectory.trans h.workingDirectory
  only := by
    intro names
    rcases h'.only names with heq' | ⟨hnone', hdirectory', hq'⟩
    · rcases h.only names with heq | ⟨hnone, hdirectory, q, hq, hresolve⟩
      · exact .inl (heq'.trans heq)
      · exact .inr ⟨hnone, heq'.trans hdirectory, q, hq, h'.keeps.resolve hresolve⟩
    · rcases h.only names with heq | ⟨-, hdirectory, -⟩
      · exact .inr ⟨heq ▸ hnone', hdirectory', hq'⟩
      · rw [hnone'] at hdirectory
        cases hdirectory

theorem grows_of_makeDirectory (h : t.makeDirectory p = .ok t') (hp : along p) :
    t.Grows t' along := by
  obtain ⟨place, hne, hfree, hput, hresolve⟩ := exists_put_of_makeDirectory h
  refine ⟨by rw [hput]; rfl, fun names => ?_⟩
  by_cases hnames : names = place
  · subst hnames
    refine .inr ⟨hfree, ?_, p, hp, hresolve⟩
    rw [hput, node?_put hne, if_pos rfl]
  · refine .inl ?_
    rw [hput, node?_put hne, if_neg hnames]

-- Also where a directory cannot be made, what was made before it stays.
theorem grows_makeAll (t : FileTree) (paths : List Path) :
    t.Grows (t.makeAll paths).1 (· ∈ paths) := by
  induction paths generalizing t with
  | nil => exact .refl t
  | cons p above ih =>
      have hhere : ∀ {t t' : FileTree}, t.makeDirectory p = .ok t' →
          t.Grows t' (· ∈ p :: above) :=
        fun hmade => grows_of_makeDirectory hmade List.mem_cons_self
      have habove : t.Grows (t.makeAll above).1 (· ∈ p :: above) :=
        (ih t).mono fun _ => List.mem_cons_of_mem p
      rw [makeAll]
      split
      · exact .refl t
      · split
        · rename_i hmade
          exact hhere hmade
        · split
          · rename_i hblocked
            rw [hblocked] at habove
            exact habove
          · rename_i t₁ hbelow
            rw [hbelow] at habove
            split
            · rename_i hmade
              exact habove.trans (hhere hmade)
            · exact habove
        · exact .refl t

end Changes

end ApiCatalog.FileTree
