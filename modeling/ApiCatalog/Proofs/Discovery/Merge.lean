import ApiCatalog.Discovery
import Mathlib.Data.List.Basic
import Mathlib.Data.List.Induction

namespace ApiCatalog

namespace Path

theorem same_iff (p q : Path) : p.same q ↔ p.steps = q.steps := beq_iff_eq

theorem any_same_iff (files : List Path) (p : Path) :
    files.any (p.same ·) ↔ ∃ q ∈ files, p.steps = q.steps := by
  simp only [List.any_eq_true, same_iff]

section Firsts

-- The paths of a list without those that take the same steps as an earlier one.
def firsts (files : List Path) : List Path :=
  files.zipIdx.filterMap fun (p, i) => if (files.take i).any (p.same ·) then none else some p

-- One more path leaves those before it alone.
theorem firsts_append_singleton (files : List Path) (p : Path) :
    firsts (files ++ [p]) = if files.any (p.same ·) then firsts files else firsts files ++ [p] := by
  have hfiles : files.zipIdx.filterMap (fun (q, i) =>
      if ((files ++ [p]).take i).any (q.same ·) then none else some q) = firsts files := by
    refine List.filterMap_congr fun (q, i) hentry => ?_
    have hi : i < files.length := by simpa using List.snd_lt_of_mem_zipIdx hentry
    simp only [List.take_append_of_le_length (Nat.le_of_lt hi)]
  have htake : (files ++ [p]).take files.length = files := List.take_left
  rw [firsts, List.zipIdx_append, List.filterMap_append, hfiles]
  by_cases hp : files.any (p.same ·)
  · simp only [List.zipIdx_singleton, List.filterMap_cons, List.filterMap_nil, Nat.zero_add, htake,
      hp, if_true, List.append_nil]
  · simp only [List.zipIdx_singleton, List.filterMap_cons, List.filterMap_nil, Nat.zero_add, htake,
      hp, Bool.false_eq_true, if_false]

-- A place that is named is named by what is kept.
theorem any_same_firsts (files : List Path) (p : Path) :
    (firsts files).any (p.same ·) = files.any (p.same ·) := by
  induction files using List.reverseRecOn with
  | nil => rfl
  | append_singleton files q ih =>
      rw [firsts_append_singleton, List.any_append]
      split
      · rename_i hq
        rw [ih, Bool.eq_iff_iff, Bool.or_eq_true]
        refine ⟨.inl, fun h => h.elim id fun hp => ?_⟩
        -- `q` is at the place of an earlier path, so that `p` is there too
        have hpq : p.steps = q.steps := by simpa [same_iff] using hp
        rw [any_same_iff, hpq, ← any_same_iff]
        exact hq
      · rw [List.any_append, ih]

theorem steps_ne_of_not_any {files : List Path} {p : Path} (h : ¬ files.any (p.same ·)) :
    ∀ q ∈ files, q.steps ≠ p.steps := by
  intro q hq heq
  exact h ((any_same_iff files p).2 ⟨q, hq, heq.symm⟩)

theorem pairwise_firsts (files : List Path) :
    (firsts files).Pairwise fun p q => p.steps ≠ q.steps := by
  induction files using List.reverseRecOn with
  | nil => exact .nil
  | append_singleton files p ih =>
      rw [firsts_append_singleton]
      split
      · exact ih
      · rename_i hp
        rw [← any_same_firsts] at hp
        refine List.pairwise_append.2 ⟨ih, List.pairwise_singleton _ _, fun q hq r hr => ?_⟩
        rw [List.mem_singleton.1 hr]
        exact steps_ne_of_not_any hp q hq

theorem mem_of_mem_firsts {files : List Path} {p : Path} (h : p ∈ firsts files) : p ∈ files := by
  obtain ⟨entry, hentry, hsome⟩ := List.mem_filterMap.1 h
  dsimp only at hsome
  split at hsome
  · cases hsome
  · cases hsome
    exact List.fst_mem_of_mem_zipIdx hentry

-- Where a list names a place first.
def firstAt (files : List Path) (p : Path) : Nat := files.findIdx (p.same ·)

theorem firstAt_lt_length {files : List Path} {p : Path} (h : files.any (p.same ·)) :
    firstAt files p < files.length := by
  rw [firstAt, List.findIdx_lt_length]
  simpa using h

theorem firstAt_append_of_any {files : List Path} {p : Path} (h : files.any (p.same ·))
    (more : List Path) : firstAt (files ++ more) p = firstAt files p := by
  rw [firstAt, List.findIdx_append]
  exact if_pos (firstAt_lt_length h)

theorem firstAt_append_self {files : List Path} {p : Path} (h : ¬ files.any (p.same ·)) :
    firstAt (files ++ [p]) p = files.length := by
  have hnone : files.findIdx (p.same ·) = files.length := by
    rw [List.findIdx_eq_length]
    simpa using h
  rw [firstAt, List.findIdx_append, hnone]
  simp [same]

theorem pairwise_firstAt_firsts (files : List Path) :
    (firsts files).Pairwise fun p q => firstAt files p < firstAt files q := by
  induction files using List.reverseRecOn with
  | nil => exact .nil
  | append_singleton files p ih =>
      have hmem : ∀ q ∈ firsts files, files.any (q.same ·) :=
        fun q hq => (any_same_iff files q).2 ⟨q, mem_of_mem_firsts hq, rfl⟩
      have hkeep : (firsts files).Pairwise fun q r =>
          firstAt (files ++ [p]) q < firstAt (files ++ [p]) r := by
        refine ih.imp_of_mem fun hq hr hlt => ?_
        rwa [firstAt_append_of_any (hmem _ hq), firstAt_append_of_any (hmem _ hr)]
      rw [firsts_append_singleton]
      split
      · exact hkeep
      · rename_i hp
        refine List.pairwise_append.2 ⟨hkeep, List.pairwise_singleton _ _, fun q hq r hr => ?_⟩
        rw [List.mem_singleton.1 hr, firstAt_append_of_any (hmem q hq), firstAt_append_self hp]
        exact firstAt_lt_length (hmem q hq)

end Firsts

section Merging

theorem addNew_append_singleton (files new : List Path) (p : Path) :
    addNew files (new ++ [p]) =
      if (addNew files new).any (p.same ·) then addNew files new else addNew files new ++ [p] := by
  rw [addNew, List.foldl_append, ← addNew]
  rfl

-- Comparing with what was kept comes to comparing with all that was seen.
theorem addNew_firsts (seen new : List Path) :
    addNew (firsts seen) new = firsts (seen ++ new) := by
  induction new using List.reverseRecOn with
  | nil => rw [List.append_nil]; rfl
  | append_singleton new p ih =>
      rw [addNew_append_singleton, ih, ← List.append_assoc, firsts_append_singleton,
        any_same_firsts]

theorem foldl_addNew (lists : List (List Path)) : lists.foldl addNew [] = firsts lists.flatten := by
  induction lists using List.reverseRecOn with
  | nil => rfl
  | append_singleton lists new ih =>
      rw [List.foldl_append, ih, List.flatten_append, List.flatten_singleton]
      exact addNew_firsts lists.flatten new

theorem addNew_eq_self {files new : List Path}
    (h : ∀ p ∈ new, ∃ q ∈ files, p.steps = q.steps) : addNew files new = files := by
  induction new using List.reverseRecOn with
  | nil => rfl
  | append_singleton new p ih =>
      have hnew : addNew files new = files := ih fun q hq => h q (by simp [hq])
      have hp := h p (by simp)
      rw [addNew_append_singleton, hnew, if_pos ((any_same_iff files p).2 hp)]

theorem prefix_addNew (files new : List Path) : files <+: addNew files new := by
  induction new using List.reverseRecOn with
  | nil => exact List.prefix_rfl
  | append_singleton new p ih =>
      rw [addNew_append_singleton]
      split
      · exact ih
      · exact ih.trans (List.prefix_append _ _)

-- Lists of files that are merged one after another are the files of all of them, in order,
-- each where its place is named first.
theorem foldl_addNew_keeps_first (lists : List (List Path)) :
    lists.foldl addNew [] = firsts lists.flatten ∧
    (lists.foldl addNew []).Pairwise (fun p q => p.steps ≠ q.steps) ∧
    (∀ files ∈ lists, ∀ p ∈ files, ∃ q ∈ lists.foldl addNew [], p.steps = q.steps) ∧
    (lists.foldl addNew []).Pairwise
      (fun p q => firstAt lists.flatten p < firstAt lists.flatten q) ∧
    (∀ files ∈ lists, addNew (lists.foldl addNew []) files = lists.foldl addNew []) ∧
    (∀ files new, (∀ p ∈ new, ∃ q ∈ files, p.steps = q.steps) → addNew files new = files) ∧
    ∀ files new, files <+: addNew files new := by
  have hcontained : ∀ files ∈ lists, ∀ p ∈ files, ∃ q ∈ firsts lists.flatten, p.steps = q.steps := by
    intro files hfiles p hp
    rw [← any_same_iff, any_same_firsts, any_same_iff]
    exact ⟨p, List.mem_flatten_of_mem hfiles hp, rfl⟩
  rw [foldl_addNew]
  exact ⟨rfl, pairwise_firsts _, hcontained, pairwise_firstAt_firsts _,
    fun files hfiles => addNew_eq_self (hcontained files hfiles),
    fun _ _ h => addNew_eq_self h, prefix_addNew⟩

-- Idle segments make no new place; a leading `.` does.
example : [[⟨"a//x.js"⟩, ⟨"b.js"⟩, ⟨"a/x.js/"⟩], [⟨"./b.js"⟩, ⟨"a/./x.js"⟩]].foldl addNew [] =
    [⟨"a//x.js"⟩, ⟨"b.js"⟩, ⟨"./b.js"⟩] := by
  decide +kernel

end Merging

end Path

-- What a project's sources hold, each file where it is found first.
theorem FileTree.scanAll_eq_firsts (t : FileTree) (sources : List String) (base : Path)
    (m : Manifest) :
    t.scanAll sources base m =
      Path.firsts (sources.flatMap fun source => t.scan (base.joinText source) m) := by
  rw [List.flatMap_def, ← Path.foldl_addNew, List.foldl_map]
  rfl

theorem Discovery.files_ofPaths (t : FileTree) (paths : List Path) (m : Manifest) :
    (ofPaths t paths m).files =
      Path.firsts (paths.flatMap fun p =>
        if t.isDirectory p then t.scan p m else if t.isFile p then [p] else []) := by
  rw [List.flatMap_def, ← Path.foldl_addNew, List.foldl_map]
  rfl

end ApiCatalog
