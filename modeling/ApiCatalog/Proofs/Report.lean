import ApiCatalog.Proofs.Document.Flat
import ApiCatalog.Report

namespace ApiCatalog

namespace SourceFile

-- All that the blocks of a file add, or nothing when one of them breaks a rule.
def contributions (file : SourceFile) : List Contribution :=
  match Contribution.ofSource file.path file.text with
  | .ok contributions => contributions
  | .error _ => []

def failure? (file : SourceFile) : Option Failure :=
  match Contribution.ofSource file.path file.text with
  | .ok _ => none
  | .error reason => some ⟨file.path, reason⟩

end SourceFile

namespace Report

-- What a report says after these files.
structure Accounts (r : Report) (files : List SourceFile) : Prop where
  document : r.document.Holds (files.flatMap (·.contributions))
  failures : r.failures = files.filterMap (·.failure?)
  count : r.files = files.length

theorem accounts_empty : Accounts {} [] where
  document := Document.holds_empty
  failures := rfl
  count := rfl

-- One more file is merged as a share of its own, or listed as a failure.
theorem Accounts.add {r : Report} {files : List SourceFile} (h : r.Accounts files)
    (file : SourceFile) : (r.add file).Accounts (files ++ [file]) := by
  cases hsource : Contribution.ofSource file.path file.text with
  | ok cs =>
      have hadd : r.add file = { r with
          document := r.document.merge (Document.ofContributions cs), files := r.files + 1 } := by
        simp [Report.add, Document.ofSource, hsource, Except.map]
      have hcs : file.contributions = cs := by simp [SourceFile.contributions, hsource]
      have hfailure : file.failure? = none := by simp [SourceFile.failure?, hsource]
      rw [hadd]
      constructor
      · simpa [hcs] using h.document.merge (Document.holds_ofContributions cs)
      · simpa [hfailure] using h.failures
      · simp [h.count]
  | error reason =>
      have hadd : r.add file = { r with
          failures := r.failures ++ [⟨file.path, reason⟩], files := r.files + 1 } := by
        simp [Report.add, Document.ofSource, hsource, Except.map]
      have hcs : file.contributions = [] := by simp [SourceFile.contributions, hsource]
      have hfailure : file.failure? = some ⟨file.path, reason⟩ := by
        simp [SourceFile.failure?, hsource]
      rw [hadd]
      constructor
      · simpa [hcs] using h.document
      · simp [hfailure, h.failures]
      · simp [h.count]

theorem accounts_ofFiles (files : List SourceFile) : (ofFiles files).Accounts files := by
  induction files using List.reverseRecOn with
  | nil => exact accounts_empty
  | append_singleton files file ih =>
      rw [ofFiles, List.foldl_append]
      exact ih.add file

-- Folding every file into a share of its own and merging the shares in order
-- comes to one pass over all contributions of the files that can be read.
theorem ofFiles_eq_flat (files : List SourceFile) :
    (∀ name, (ofFiles files).document.get? name =
      if ∃ c ∈ files.flatMap (·.contributions), c.group = name then
        some (Group.flat name (files.flatMap (·.contributions)))
      else
        none) ∧
    (ofFiles files).document = Document.ofContributions (files.flatMap (·.contributions)) ∧
    (ofFiles files).failures = files.filterMap (·.failure?) ∧
    (ofFiles files).files = files.length := by
  obtain ⟨hdocument, hfailures, hcount⟩ := accounts_ofFiles files
  have hfold := Document.holds_ofContributions (files.flatMap (·.contributions))
  exact ⟨hdocument, hdocument.unique hfold, hfailures, hcount⟩

end Report

end ApiCatalog
