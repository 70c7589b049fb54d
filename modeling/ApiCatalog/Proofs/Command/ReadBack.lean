import ApiCatalog.Proofs.Command.Init
import ApiCatalog.Proofs.Command.ManifestText
import ApiCatalog.Proofs.Discovery.Scan

namespace ApiCatalog

theorem Manifest.isName_fileName : Path.IsName fileName := by decide +kernel

namespace Command

section Directories

-- A directory by the names that lead to it, and how a manifest writes it.
def dirText (names : List String) : String := if names = [] then "." else "/".intercalate names

def written (dir : String) : String := String.ofList (Text.unifySlashes dir.toList)

theorem not_mem_written (dir : String) : '\\' ∉ (written dir).toList := by
  rw [written, String.toList_ofList]
  exact Text.not_mem_unifySlashes dir.toList

variable {t : FileTree} {path : Path} {front names : List String} {name dir : String}

theorem intercalate_names_ne_nil (hfront : ∀ n ∈ front, Path.IsName n) (hne : front ≠ []) :
    ['/'].intercalate (front.map String.toList) ≠ [] := by
  intro hnil
  have hsplit := Path.splitAt_intercalate_names hfront hne
  rw [hnil, Text.splitAt_nil] at hsplit
  cases front with
  | nil => exact hne rfl
  | cons first rest =>
      have hempty : first.toList = [] := (List.cons.inj hsplit).1.symm
      exact (hfront first List.mem_cons_self).ne_empty (by simpa using hempty)

theorem sourceDir?_below (hpath : path.text ≠ "") (hfront : ∀ n ∈ front, Path.IsName n)
    (hname : Path.IsName name) :
    sourceDir? path (path.below (front ++ [name])) = some (written (dirText front)) := by
  rw [sourceDir?, Path.parent?_below hpath hfront hname, Option.map_some,
    Path.relativeTo?_parent_below hpath hfront, Option.getD_some]
  simp only [Path.ofAnchored, String.toList_ofList]
  by_cases hne : front = []
  · subst hne
    rfl
  · have hlead := intercalate_names_ne_nil hfront hne
    have htext : ("/".intercalate front).toList = ['/'].intercalate (front.map String.toList) := by
      rw [String.toList_intercalate]
      rfl
    rw [if_neg (by simpa [Text.unifySlashes] using hlead), written, dirText, if_neg hne, htext]

theorem sourceDir?_of_mem_found (hsound : t.Sound) {place : List String}
    (hplace : t.resolve path = .ok (place, .directory)) (hnames : names ∈ t.found path) :
    sourceDir? path (path.below names) = some (written (dirText names.dropLast)) := by
  have hisName := FileTree.isName_of_mem_found hsound hnames
  obtain ⟨hpath, -, -⟩ := FileTree.resolve_eq_ok_iff.1 hplace
  rcases List.eq_nil_or_concat' names with rfl | ⟨front, name, rfl⟩
  · rw [FileTree.found, hplace] at hnames
    exact absurd hnames (FileTree.nil_not_mem_filesBelow t place)
  · rw [List.dropLast_concat]
    exact sourceDir?_below hpath (fun n hn => hisName n (List.mem_append_left _ hn))
      (hisName name (by simp))

-- The directories listed are those of the files counted.
theorem mem_sourceDirs_annotatedFiles (hsound : t.Sound) {content : String} {t' : FileTree}
    (h : t.write (path.joinText Manifest.fileName) content = .ok t') (dir : String) :
    dir ∈ sourceDirs path (annotatedFiles t path) ↔
      ∃ names ∈ t.found path, path.below names ∈ annotatedFiles t path ∧
        dir = written (dirText names.dropLast) := by
  have hplace : ∀ names ∈ t.found path, ∃ place, t.resolve path = .ok (place, .directory) := by
    intro names hnames
    refine FileTree.exists_resolve_of_write ?_ Manifest.isName_fileName h
    intro hempty
    rw [FileTree.found, FileTree.resolve, if_pos hempty] at hnames
    cases hnames
  rw [mem_sourceDirs]
  constructor
  · rintro ⟨file, hfile, hdir⟩
    have hscan := (List.mem_filter.1 hfile).1
    rw [FileTree.scan_eq] at hscan
    obtain ⟨names, hnames, rfl⟩ := List.mem_map.1 (List.mem_filter.1 hscan).1
    obtain ⟨place, hplace⟩ := hplace names hnames
    rw [sourceDir?_of_mem_found hsound hplace hnames] at hdir
    exact ⟨names, hnames, hfile, (Option.some.inj hdir).symm⟩
  · rintro ⟨names, hnames, hfile, rfl⟩
    obtain ⟨place, hplace⟩ := hplace names hnames
    exact ⟨path.below names, hfile, sourceDir?_of_mem_found hsound hplace hnames⟩

end Directories

-- The manifest that setting up leaves behind names the directories of the
-- files counted, once each and in order. It reads back as that exactly when
-- each of them may stand between double quotes as it is.
theorem runInit_reads_back_iff {t : FileTree} {path : Path} {force : Bool} (hsound : t.Sound)
    (h : (runInit t path force).result = .ok ()) :
    ∃ dirs : List String, dirs.Pairwise (· < ·) ∧
      (∀ dir, dir ∈ dirs ↔ ∃ names ∈ t.found path, path.below names ∈ annotatedFiles t path ∧
        dir = written (dirText names.dropLast)) ∧
      (runInit t path force).tree.read (path.joinText Manifest.fileName) =
        .ok (manifestText dirs) ∧
      (Manifest.parse (manifestText dirs) = .ok (setUp dirs) ↔
        ∀ dir ∈ dirs, Yaml.Quotable dir.toList) := by
  have hsets := setsUp_of_runInit h
  have hdirs := mem_sourceDirs_annotatedFiles hsound hsets.listed
  obtain ⟨place, -, -, -, hresolve⟩ := FileTree.exists_put_of_write hsets.listed
  refine ⟨_, NameMap.pairwise_keys _, hdirs, FileTree.read_of_resolve hresolve,
    quotable_of_parse fun dir hdir => ?_, parse_manifestText⟩
  obtain ⟨names, -, -, rfl⟩ := (hdirs dir).1 hdir
  exact not_mem_written _

-- A project with one annotated file in one directory.
def readBackSample (dir : String) : FileTree where
  nodes := [([dir], .directory), ([dir, "x.js"], .text "/**\n * @api {get} /a A\n */\n")]

theorem sound_readBackSample {dir : String} (h : Path.IsName dir) : (readBackSample dir).Sound := by
  have hfile : Path.IsName "x.js" := by decide
  refine ⟨?_, by simp [readBackSample]⟩
  simp [readBackSample, h, hfile]

theorem runInit_reads_back_plain_name :
    let t := readBackSample "routes"
    t.Sound ∧ (runInit t ⟨"."⟩ false).result = .ok () ∧
    ∃ dirs, "routes" ∈ dirs ∧
      (runInit t ⟨"."⟩ false).tree.read ⟨"./apidoc.yaml"⟩ = .ok (manifestText dirs) ∧
      Manifest.parse (manifestText dirs) = .ok (setUp dirs) := by
  intro t
  have hsound : t.Sound := sound_readBackSample (by decide)
  have hok : (runInit t ⟨"."⟩ false).result = .ok () := by decide +kernel
  obtain ⟨dirs, -, hmem, hread, hiff⟩ := runInit_reads_back_iff hsound hok
  have hfound : t.found ⟨"."⟩ = [["routes", "x.js"]] := by decide +kernel
  have hcounted : Path.below ⟨"."⟩ ["routes", "x.js"] ∈ annotatedFiles t ⟨"."⟩ := by decide +kernel
  have hname : "routes" = written (dirText ["routes"]) := by decide +kernel
  refine ⟨hsound, hok, dirs, (hmem _).2 ⟨_, by rw [hfound]; simp, hcounted, hname⟩, hread,
    hiff.2 fun dir hdir => ?_⟩
  obtain ⟨names, hnames, -, rfl⟩ := (hmem dir).1 hdir
  rw [hfound, List.mem_singleton] at hnames
  subst hnames
  decide +kernel

-- A quote ends the text it stands in, and a backslash is written as a slash.
theorem runInit_misquotes_name :
    let t := readBackSample "a\"b"
    let t' := readBackSample "a\\b"
    (t.Sound ∧ (runInit t ⟨"."⟩ false).result = .ok () ∧
      annotatedFiles t ⟨"."⟩ = [⟨"./a\"b/x.js"⟩] ∧
      (runInit t ⟨"."⟩ false).tree.read ⟨"./apidoc.yaml"⟩ = .ok (manifestText ["a\"b"]) ∧
      Manifest.parse (manifestText ["a\"b"]) = .error Manifest.invalid) ∧
    t'.Sound ∧ (runInit t' ⟨"."⟩ false).result = .ok () ∧
      annotatedFiles t' ⟨"."⟩ = [⟨"./a\\b/x.js"⟩] ∧
      (runInit t' ⟨"."⟩ false).tree.read ⟨"./apidoc.yaml"⟩ = .ok (manifestText ["a/b"]) ∧
      Manifest.parse (manifestText ["a/b"]) = .ok (setUp ["a/b"]) :=
  ⟨⟨sound_readBackSample (by decide), by decide +kernel⟩,
    sound_readBackSample (by decide), by decide +kernel⟩

end Command

end ApiCatalog
