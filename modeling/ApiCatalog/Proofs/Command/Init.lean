import ApiCatalog.Command.Run
import ApiCatalog.Proofs.Comment.Breaks
import ApiCatalog.Proofs.NameMap

namespace ApiCatalog

namespace Path

theorem dropIdleEnd_eq_nil_iff (segments : List (List Char)) :
    dropIdleEnd segments = [] ↔ ∀ segment ∈ segments, isIdle segment := by
  rw [dropIdleEnd, List.reverse_eq_nil_iff, List.dropWhile_eq_nil_iff]
  simp

-- A file has a name, so there is a directory that holds it.
theorem exists_parent?_of_fileName? {p : Path} {name : String} (h : p.fileName? = some name) :
    ∃ parent, p.parent? = some parent := by
  unfold fileName? steps at h
  unfold parent?
  generalize p.anchored = a at h
  obtain ⟨anchor, segments⟩ := a
  simp only at h ⊢
  cases hbody : dropIdleEnd segments with
  | nil =>
      -- without a segment that moves, the last step is the anchor
      have hidle := (dropIdleEnd_eq_nil_iff segments).1 hbody
      have hsteps : segments.filterMap step? = [] := by
        rw [List.filterMap_eq_nil_iff]
        intro segment hsegment
        rw [step?, if_pos (hidle segment hsegment)]
      rw [hsteps, List.append_nil] at h
      cases anchor <;> cases h
  | cons first rest => exact ⟨_, rfl⟩

end Path

theorem Manifest.exists_fileName?_of_covers {m : Manifest} {p : Path} (h : m.covers p) :
    ∃ name, p.fileName? = some name := by
  have haccepts := (Bool.and_eq_true_iff.1 h).2
  unfold accepts at haccepts
  split at haccepts
  · rename_i extension hextension
    obtain ⟨name, hname, -⟩ := Option.bind_eq_some_iff.1 hextension
    exact ⟨name, hname⟩
  · cases haccepts

namespace Block

-- Whether a comment of the text carries a tag is seen from the headings.
theorem exists_lines_ne_nil_iff (blocks : List Block) :
    (∃ block ∈ blocks, block.lines ≠ []) ↔ ∃ lines ∈ blocks.map headings, lines ≠ [] := by
  simp [headings]

end Block

-- Every line feed of the text ends a line together with a carriage return.
def Text.Returned (text : List Char) : Prop := text.IsChain fun a b => b = '\n' → a = '\r'

theorem Text.Returned.seals {text : List Char} (h : Returned text) :
    text.IsChain Comment.Seals := by
  refine List.IsChain.imp (fun a b hreturn hbreak => ?_) h
  rw [hreturn hbreak]
  decide

namespace Command

theorem isAnnotated_iff (text : String) :
    isAnnotated text ↔ ∃ block ∈ Block.find "" text.toList, block.lines ≠ [] := by
  simp [isAnnotated]

theorem isAnnotated_iff_unifyBreaks {text : String}
    (h : ¬ Comment.HasReturnedOpener text.toList) (path : String) :
    isAnnotated text ↔
      ∃ block ∈ Block.find path (Text.unifyBreaks text.toList), block.lines ≠ [] := by
  rw [isAnnotated_iff, Block.exists_lines_ne_nil_iff, Block.exists_lines_ne_nil_iff,
    Block.headings_find_unifyBreaks h path ""]

theorem not_isAnnotated_of_returned {text : String} (h : Text.Returned text.toList) :
    ¬ isAnnotated text := by
  rw [isAnnotated_iff, Block.find_eq_nil_of_isChain h.seals]
  simp

-- Whether setting a project up takes a file for annotated.
def counts (t : FileTree) (file : Path) : Bool :=
  match t.read file with
  | .ok text => isAnnotated text
  | .error _ => false

theorem annotatedFiles_eq_filter (t : FileTree) (path : Path) :
    annotatedFiles t path = (t.scan path { excludes := initExcludes }).filter (counts t) := rfl

theorem counts_of_read {t : FileTree} {file : Path} {text : String}
    (h : t.read file = .ok text) : counts t file = isAnnotated text := by
  rw [counts, h]

theorem mem_sourceDirs (path : Path) (files : List Path) (dir : String) :
    dir ∈ sourceDirs path files ↔ ∃ file ∈ files, sourceDir? path file = some dir := by
  rw [sourceDirs, NameMap.mem_keys_ofList]
  simp

theorem exists_sourceDir? {t : FileTree} {path file : Path} {m : Manifest}
    (h : file ∈ t.scan path m) : ∃ dir, sourceDir? path file = some dir := by
  obtain ⟨name, hname⟩ := Manifest.exists_fileName?_of_covers (List.mem_filter.1 h).2
  obtain ⟨parent, hparent⟩ := Path.exists_parent?_of_fileName? hname
  exact ⟨_, by rw [sourceDir?, hparent]; rfl⟩

-- What a project finds in place once it is set up: a manifest with the
-- directories of the counted files, and a line with their number.
structure SetsUp (t : FileTree) (path : Path) (files : List Path) (dirs : List String)
    (o : Outcome) : Prop where
  counted : (⟨"Created", Manifest.fileName ++ " (" ++
    plural files.length "annotated file" "annotated files" ++ " found)"⟩ : Status) ∈ o.statuses
  listed : t.write (path.joinText Manifest.fileName) (manifestText dirs) = .ok o.tree
  mem_dirs : ∀ dir, dir ∈ dirs ↔ ∃ file ∈ files, sourceDir? path file = some dir

theorem setsUp_of_runInit {t : FileTree} {path : Path} {force : Bool}
    (h : (runInit t path force).result = .ok ()) :
    SetsUp t path (annotatedFiles t path) (sourceDirs path (annotatedFiles t path))
      (runInit t path force) := by
  have hdirs := mem_sourceDirs path (annotatedFiles t path)
  unfold runInit at h ⊢
  simp only at h ⊢
  split
  · rename_i hpresent
    rw [if_pos hpresent] at h
    cases h
  · rename_i hfree
    rw [if_neg hfree] at h
    split
    · rename_i fault hfault
      rw [hfault] at h
      cases h
    · rename_i tree hwrite
      exact ⟨by simp, hwrite, hdirs⟩

-- Setting a project up and compiling it agree on which files are annotated,
-- unless the line of an opener ends in a carriage return and a line feed: the
-- compiler drops the carriage return first, the count does not. A file all
-- of whose lines end so is never counted.
theorem runInit_counts_annotated {t : FileTree} {path : Path} {force : Bool}
    (h : (runInit t path force).result = .ok ()) :
    let scanned := t.scan path { excludes := initExcludes }
    ∃ (counts : Path → Bool) (dirs : List String),
      SetsUp t path (scanned.filter counts) dirs (runInit t path force) ∧
      ∀ file ∈ scanned, (∃ dir, sourceDir? path file = some dir) ∧
        ∀ text, t.read file = .ok text →
          (¬ Comment.HasReturnedOpener text.toList →
            (counts file ↔
              ∃ block ∈ Block.find file.sourceName (Text.unifyBreaks text.toList),
                block.lines ≠ [])) ∧
          (Text.Returned text.toList → counts file = false) := by
  refine ⟨counts t, sourceDirs path (annotatedFiles t path), ?_, fun file hfile =>
    ⟨exists_sourceDir? hfile, fun text hread => ?_⟩⟩
  · rw [← annotatedFiles_eq_filter]
    exact setsUp_of_runInit h
  · rw [counts_of_read hread]
    exact ⟨fun hopener => isAnnotated_iff_unifyBreaks hopener file.sourceName,
      fun hreturned => Bool.eq_false_of_not_eq_true (not_isAnnotated_of_returned hreturned)⟩

def initSample (text : String) : FileTree := { nodes := [(["a.js"], .text text)] }

theorem runInit_counts_annotated_sample :
    let t := initSample "/**\n * @api {get} /a A\n */\n"
    (runInit t ⟨"."⟩ false).result = .ok () ∧
    ∃ files dirs, SetsUp t ⟨"."⟩ files dirs (runInit t ⟨"."⟩ false) ∧
      (⟨"./a.js"⟩ : Path) ∈ files ∧ "." ∈ dirs := by
  intro t
  have hok : (runInit t ⟨"."⟩ false).result = .ok () := by decide +kernel
  have hscan : (⟨"./a.js"⟩ : Path) ∈ t.scan ⟨"."⟩ { excludes := initExcludes } := by
    decide +kernel
  have hread : t.read ⟨"./a.js"⟩ = .ok "/**\n * @api {get} /a A\n */\n" := by decide +kernel
  have hblock : ∃ block ∈ Block.find (Path.sourceName ⟨"./a.js"⟩)
      (Text.unifyBreaks "/**\n * @api {get} /a A\n */\n".toList), block.lines ≠ [] := by
    decide +kernel
  obtain ⟨counts, dirs, hsets, hfiles⟩ := runInit_counts_annotated hok
  have hopener : ¬ Comment.HasReturnedOpener "/**\n * @api {get} /a A\n */\n".toList :=
    Comment.not_hasReturnedOpener_of_not_mem (by decide)
  have hcounts := (((hfiles _ hscan).2 _ hread).1 hopener).2 hblock
  have hmem := List.mem_filter.2 ⟨hscan, hcounts⟩
  exact ⟨hok, _, dirs, hsets, hmem, (hsets.mem_dirs ".").2 ⟨_, hmem, by decide +kernel⟩⟩

-- The compiler sees the tag that the count misses.
theorem runInit_misses_returned_file :
    let text := "/**\r\n * @api {get} /a A\r\n */\r\n"
    let t := initSample text
    (runInit t ⟨"."⟩ false).result = .ok () ∧
    (⟨"./a.js"⟩ : Path) ∈ t.scan ⟨"."⟩ { excludes := initExcludes } ∧
    t.read ⟨"./a.js"⟩ = .ok text ∧
    ⟨"Created", "apidoc.yaml (0 annotated files found)"⟩ ∈ (runInit t ⟨"."⟩ false).statuses ∧
    ∃ block ∈ Block.find (Path.sourceName ⟨"./a.js"⟩) (Text.unifyBreaks text.toList),
      block.lines ≠ [] := by
  decide +kernel

end Command

end ApiCatalog
