import ApiCatalog.Discovery
import ApiCatalog.Proofs.Report

namespace ApiCatalog

namespace Report

-- Finding a share before or while the others are merged makes no difference.
theorem addShare_share (r : Report) (file : SourceFile) :
    r.addShare file.share = r.add file := by
  unfold SourceFile.share add
  cases Document.ofSource file.path file.text <;> rfl

theorem ofFilesAtOnce_eq_ofFiles (files : List SourceFile) :
    ofFilesAtOnce files = ofFiles files := by
  have hstep : (fun (r : Report) (file : SourceFile) => r.addShare file.share) = add := by
    funext r file
    exact addShare_share r file
  rw [ofFilesAtOnce, List.foldl_map, hstep, ofFiles]

end Report

-- What becomes of a discovered file: it cannot be read, it can be read and
-- breaks a rule, or it gives its contributions.
inductive Fate where
  | unread (fault : Fault)
  | refused (reason : Diagnostic)
  | compiled (contributions : List Contribution)

namespace Fate

def of (t : FileTree) (p : Path) : Fate :=
  match t.read p with
  | .error fault => unread fault
  | .ok text =>
      match Contribution.ofSource p.sourceName text with
      | .error reason => refused reason
      | .ok contributions => compiled contributions

def isCompiled : Fate → Bool
  | compiled _ => true
  | _ => false

def unread? (p : Path) : Fate → Option Failure
  | unread fault => some ⟨p.sourceName, .io p.text ("Failed to read source: " ++ fault.text)⟩
  | _ => none

def refused? (p : Path) : Fate → Option Failure
  | refused reason => some ⟨p.sourceName, reason⟩
  | _ => none

theorem length_failures_add_isCompiled (f : Fate) (p : Path) :
    (f.unread? p).toList.length + (f.refused? p).toList.length +
      (if f.isCompiled then 1 else 0) = 1 := by
  cases f <;> rfl

-- A file is listed among the failures once, or it is compiled.
theorem length_failures_add_countP (t : FileTree) (files : List Path) :
    (files.filterMap fun p => (of t p).unread? p).length +
        (files.filterMap fun p => (of t p).refused? p).length +
        files.countP (fun p => (of t p).isCompiled) = files.length := by
  induction files with
  | nil => rfl
  | cons p rest ih =>
      have hone := length_failures_add_isCompiled (of t p) p
      simp only [List.filterMap_eq_flatMap_toList, List.flatMap_cons, List.length_append,
        List.countP_cons, List.length_cons] at ih ⊢
      omega

end Fate

namespace Discovery

-- The text of a file under the name of its path.
def source? (t : FileTree) (p : Path) : Option SourceFile :=
  (t.read p).toOption.map fun text => ⟨p.sourceName, text⟩

theorem load_eq (d : Discovery) (t : FileTree) :
    d.load t =
      (d.files.filterMap (source? t), d.files.filterMap fun p => (Fate.of t p).unread? p) := by
  unfold load
  refine Prod.ext ?_ ?_
  · refine List.filterMap_congr fun p _ => ?_
    unfold source?
    cases t.read p <;> rfl
  · refine List.filterMap_congr fun p _ => ?_
    unfold Fate.of
    cases t.read p with
    | error fault => rfl
    | ok text =>
        simp only
        cases Contribution.ofSource p.sourceName text <;> rfl

theorem bind_failure?_source? (t : FileTree) (p : Path) :
    (source? t p).bind (·.failure?) = (Fate.of t p).refused? p := by
  unfold source? Fate.of SourceFile.failure?
  cases t.read p with
  | error fault => rfl
  | ok text =>
      simp only [Except.toOption, Option.map_some, Option.bind_some]
      cases Contribution.ofSource p.sourceName text <;> rfl

theorem length_source?_add_unread? (t : FileTree) (p : Path) :
    (source? t p).toList.length + ((Fate.of t p).unread? p).toList.length = 1 := by
  unfold source? Fate.of
  cases t.read p with
  | error fault => rfl
  | ok text =>
      simp only
      cases Contribution.ofSource p.sourceName text <;> rfl

theorem length_sources_add_unread (t : FileTree) (files : List Path) :
    (files.filterMap (source? t)).length +
      (files.filterMap fun p => (Fate.of t p).unread? p).length = files.length := by
  induction files with
  | nil => rfl
  | cons p rest ih =>
      have hone := length_source?_add_unread? t p
      simp only [List.filterMap_eq_flatMap_toList, List.flatMap_cons, List.length_append,
        List.length_cons] at ih ⊢
      omega

theorem compile_eq (d : Discovery) (t : FileTree) (serial : Bool) :
    d.compile t serial =
      { document := (Report.ofFiles (d.files.filterMap (source? t))).document
        failures := (d.files.filterMap fun p => (Fate.of t p).unread? p) ++
          d.files.filterMap fun p => (Fate.of t p).refused? p
        files := d.files.length } := by
  obtain ⟨-, hfailures, hcount⟩ := Report.accounts_ofFiles (d.files.filterMap (source? t))
  have hrefused : (Report.ofFiles (d.files.filterMap (source? t))).failures =
      d.files.filterMap fun p => (Fate.of t p).refused? p := by
    rw [hfailures, List.filterMap_filterMap]
    exact List.filterMap_congr fun p _ => bind_failure?_source? t p
  have hfiles : (Report.ofFiles (d.files.filterMap (source? t))).files +
      (d.files.filterMap fun p => (Fate.of t p).unread? p).length = d.files.length := by
    rw [hcount, length_sources_add_unread]
  unfold compile
  rw [load_eq]
  simp only [Report.ofFilesAtOnce_eq_ofFiles, ite_self]
  rw [hrefused, hfiles]

-- The count and the list of failures are kept in step by different parts: what
-- cannot be read never reaches the report that the rest is folded into.
theorem compile_accounts_for_every_file (d : Discovery) (t : FileTree) (serial : Bool) :
    (d.compile t serial).files = d.files.length ∧
    (d.compile t serial).failures =
      (d.files.filterMap fun p => (Fate.of t p).unread? p) ++
        d.files.filterMap (fun p => (Fate.of t p).refused? p) ∧
    (d.compile t serial).failures.length ≤ (d.compile t serial).files ∧
    (d.compile t serial).parsed = d.files.countP (fun p => (Fate.of t p).isCompiled) ∧
    (d.compile t serial).document =
      (Report.ofFiles (d.files.filterMap (source? t))).document := by
  have hcount := Fate.length_failures_add_countP t d.files
  rw [compile_eq]
  refine ⟨rfl, rfl, ?_, ?_, rfl⟩
  · simp only [List.length_append]
    omega
  · simp only [Report.parsed, List.length_append]
    omega

end Discovery

end ApiCatalog
