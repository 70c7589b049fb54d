import ApiCatalog.Discovery
import ApiCatalog.Proofs.FileTree.Below

namespace ApiCatalog

theorem Path.mem_of_mem_addNew {files new : List Path} {p : Path} (h : p ∈ addNew files new) :
    p ∈ files ∨ p ∈ new := by
  unfold addNew at h
  induction new generalizing files with
  | nil => exact .inl h
  | cons q rest ih =>
      rw [List.foldl_cons] at h
      rcases ih h with hfiles | hrest
      · split at hfiles
        · exact .inl hfiles
        · rcases List.mem_append.1 hfiles with hfiles | hq
          · exact .inl hfiles
          · exact .inr (List.mem_cons.2 (.inl (List.mem_singleton.1 hq)))
      · exact .inr (List.mem_cons_of_mem q hrest)

namespace FileTree

variable {t : FileTree} {p : Path}

-- The files at or below a path, by the names that lead on from it.
def found (t : FileTree) (p : Path) : List (List String) :=
  match t.resolve p with
  | .ok (place, .directory) => t.filesBelow place
  | .ok _ => [[]]
  | .error _ => []

theorem scan_eq (t : FileTree) (p : Path) (m : Manifest) :
    t.scan p m = ((t.found p).map p.below).filter m.covers := by
  unfold scan found
  cases t.resolve p with
  | error fault => rfl
  | ok end_ =>
      obtain ⟨place, node⟩ := end_
      cases node <;> rfl

theorem isName_of_mem_found (h : t.Sound) {p : Path} {names : List String}
    (hnames : names ∈ t.found p) : ∀ name ∈ names, Path.IsName name := by
  unfold found at hnames
  split at hnames
  · exact h.isName_of_mem_filesBelow hnames
  · rw [List.mem_singleton.1 hnames]
    intro name hname
    cases hname
  · cases hnames

theorem exists?_of_mem_scan {root : Path} {m : Manifest} (h : p ∈ t.scan root m) :
    t.exists? root := by
  have hfound := (List.mem_filter.1 h).1
  unfold exists?
  split at hfound
  · rename_i hresolve
    rw [hresolve]
    rfl
  · rename_i hresolve
    rw [hresolve]
    rfl
  · cases hfound

theorem exists?_of_isDirectory (h : t.isDirectory p) : t.exists? p := by
  obtain ⟨place, hplace⟩ := exists_resolve_of_isDirectory h
  rw [exists?, hplace]
  rfl

theorem exists?_of_isFile (h : t.isFile p) : t.exists? p := by
  unfold isFile at h
  unfold exists?
  split at h
  · rename_i hresolve
    rw [hresolve]
    rfl
  · cases h

theorem exists_source_of_mem_scanAll {sources : List String} {base : Path} {m : Manifest}
    (h : p ∈ t.scanAll sources base m) :
    ∃ source ∈ sources, p ∈ t.scan (base.joinText source) m := by
  unfold scanAll at h
  induction sources using List.reverseRecOn with
  | nil => cases h
  | append_singleton sources source ih =>
      rw [List.foldl_append, List.foldl_cons, List.foldl_nil] at h
      rcases Path.mem_of_mem_addNew h with hbefore | hnew
      · obtain ⟨other, hother, hscan⟩ := ih hbefore
        exact ⟨other, List.mem_append_left _ hother, hscan⟩
      · exact ⟨source, by simp, hnew⟩

end FileTree

namespace Discovery

-- Files are found only where there is something to look at.
theorem hasSources_of_mem_files {t : FileTree} {root : Path} {source : Option Path}
    {d : Discovery} (h : resolve t root source = .ok d) {p : Path} (hp : p ∈ d.files) :
    d.hasSources t := by
  rw [hasSources, List.any_eq_true]
  unfold resolve at h
  cases source with
  | none =>
      unfold ofProject at h
      cases hload : Manifest.load t root with
      | error reason =>
          rw [hload] at h
          cases h
      | ok loaded =>
          rw [hload] at h
          cases h
          obtain ⟨source, hsource, hscan⟩ := FileTree.exists_source_of_mem_scanAll hp
          exact ⟨_, List.mem_map.2 ⟨source, hsource, rfl⟩, FileTree.exists?_of_mem_scan hscan⟩
  | some path =>
      simp only at h
      cases hload : Manifest.load t root with
      | error reason =>
          rw [hload] at h
          cases h
      | ok loaded =>
          rw [hload] at h
          cases h
          refine ⟨path, List.mem_singleton.2 rfl, ?_⟩
          have hnew := (Path.mem_of_mem_addNew hp).resolve_left (by simp)
          split at hnew
          · rename_i hdirectory
            exact FileTree.exists?_of_isDirectory hdirectory
          · split at hnew
            · rename_i hfile
              exact FileTree.exists?_of_isFile hfile
            · cases hnew

end Discovery

end ApiCatalog
