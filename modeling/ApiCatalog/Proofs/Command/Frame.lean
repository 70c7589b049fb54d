import ApiCatalog.Command.Run
import ApiCatalog.Proofs.Discovery.Fate
import ApiCatalog.Proofs.Discovery.Scan

namespace ApiCatalog

-- A text stands where a path leads, what lies above it is there, and the rest is
-- as it was.
structure FileTree.Wrote (t t' : FileTree) (path : Path) (content : String) : Prop where
  workingDirectory : t'.workingDirectory = t.workingDirectory
  holds : t'.read path = .ok content
  above : ∀ q, path.Above q → q.text ≠ "" → t'.isDirectory q
  only : ∀ names, t'.node? names = t.node? names ∨
    t'.resolve path = .ok (names, .text content) ∨
    t.node? names = none ∧ t'.node? names = some .directory ∧
      ∃ q, path.Above q ∧ t'.resolve q = .ok (names, .directory)

theorem FileTree.Grows.wrote {t t₁ t' : FileTree} {path : Path} {content : String}
    (hgrows : t.Grows t₁ path.Above) (hwrite : t₁.write path content = .ok t') :
    t.Wrote t' path content := by
  obtain ⟨place, hne, hfree, hput, hresolve⟩ := FileTree.exists_put_of_write hwrite
  have hkeeps : t₁.Keeps t' := hput ▸ FileTree.keeps_put hne hfree
  refine ⟨hkeeps.workingDirectory.trans hgrows.workingDirectory,
    FileTree.read_of_resolve hresolve,
    fun q habove hq => FileTree.isDirectory_of_above hresolve habove hq, fun names => ?_⟩
  by_cases hnames : names = place
  · exact .inr (.inl (hnames ▸ hresolve))
  · have hsame : t'.node? names = t₁.node? names := by
      rw [hput, FileTree.node?_put hne, if_neg hnames]
    rcases hgrows.only names with heq | ⟨hnone, hdirectory, q, hq, hplace⟩
    · exact .inl (hsame.trans heq)
    · exact .inr (.inr ⟨hnone, hsame.trans hdirectory, q, hq, hkeeps.resolve hplace⟩)

theorem FileTree.grows_makeDirectories {path parent : Path} (h : path.parent? = some parent)
    (t : FileTree) : t.Grows (t.makeDirectories parent).1 path.Above := by
  refine (FileTree.grows_makeAll t parent.ancestors).mono fun q hq => ?_
  rcases Path.eq_or_above_of_mem_ancestorsUpTo hq with rfl | habove
  · exact .parent h
  · exact .step h habove

theorem Document.wrote_of_save {d : Document} {t t' : FileTree} {path : Path} {pretty : Bool}
    (h : d.save t path pretty = (t', .ok ())) : t.Wrote t' path (d.render pretty) := by
  unfold save at h
  split at h
  rename_i t₁ blocked hmade
  have hgrows : t.Grows t₁ path.Above := by
    cases hparent : path.parent? with
    | none =>
        rw [hparent] at hmade
        cases hmade
        exact .refl t
    | some parent =>
        rw [hparent] at hmade
        simp only at hmade
        split at hmade
        · cases hmade
          exact .refl t
        · cases hmade
          exact FileTree.grows_makeDirectories hparent t
  cases blocked with
  | some reason => cases h
  | none =>
      cases hwrite : t₁.write path (d.render pretty) with
      | error fault =>
          rw [hwrite] at h
          cases h
      | ok written =>
          rw [hwrite] at h
          cases h
          exact hgrows.wrote hwrite

namespace Discovery

theorem hasFailures_compile_iff (d : Discovery) (t : FileTree) (serial : Bool) :
    (d.compile t serial).hasFailures ↔ ∃ p ∈ d.files, (Fate.of t p).isCompiled = false := by
  have hcount := Fate.length_failures_add_countP t d.files
  have hall := List.countP_eq_length (p := fun p => (Fate.of t p).isCompiled) (l := d.files)
  rw [compile_eq, Report.hasFailures, Bool.not_eq_true', List.isEmpty_eq_false_iff,
    Ne, ← List.length_eq_zero_iff, List.length_append]
  constructor
  · intro h
    by_contra hnone
    have : d.files.countP (fun p => (Fate.of t p).isCompiled) = d.files.length :=
      hall.2 fun p hp => by
        by_contra hp'
        exact hnone ⟨p, hp, by simpa using hp'⟩
    omega
  · rintro ⟨p, hp, hfail⟩ hzero
    have hcompiled := hall.1 (by omega) p hp
    rw [hfail] at hcompiled
    cases hcompiled

end Discovery

namespace Command

section Build

variable {t : FileTree} {o : BuildOptions} {d : Discovery}

theorem runBuild_of_error {reason : Diagnostic}
    (h : Discovery.resolve t o.root o.source = .error reason) :
    runBuild t o = .failed t [] reason := by
  rw [runBuild, h]

theorem tree_runBuild_of_not_hasSources (h : Discovery.resolve t o.root o.source = .ok d)
    (hsources : d.hasSources t = false) : (runBuild t o).tree = t := by
  rw [runBuild, h]
  simp [hsources]

theorem runBuild_of_strict (h : Discovery.resolve t o.root o.source = .ok d)
    (hsources : d.hasSources t) (hstrict : o.strict)
    (hfailures : (d.compile t o.serial).hasFailures) :
    (runBuild t o).tree = t ∧
      ∃ message help, (runBuild t o).result = .error (.validation message help) := by
  rw [runBuild, h]
  simp [hsources, hstrict, hfailures, Outcome.failed]

theorem tree_runBuild_of_stdout (h : Discovery.resolve t o.root o.source = .ok d)
    (hstdout : o.stdout) : (runBuild t o).tree = t := by
  rw [runBuild, h]
  simp only [hstdout, if_true]
  split
  · rfl
  · split <;> rfl

theorem wrote_of_runBuild (h : Discovery.resolve t o.root o.source = .ok d)
    (hsources : d.hasSources t) (hstdout : o.stdout = false)
    (hfailures : o.strict → (d.compile t o.serial).hasFailures = false)
    (hok : (runBuild t o).result = .ok ()) :
    t.Wrote (runBuild t o).tree (o.output.getD (o.root.join d.manifest.output))
      ((d.compile t o.serial).document.render (o.pretty || d.manifest.pretty)) := by
  have hgo : (o.strict && (d.compile t o.serial).hasFailures) = false := by
    cases hstrict : o.strict with
    | false => rfl
    | true => rw [hfailures hstrict, Bool.and_false]
  rw [runBuild, h] at hok ⊢
  simp only [hsources, hgo, hstdout, Bool.not_true, Bool.false_eq_true, if_false] at hok ⊢
  cases hsave : (d.compile t o.serial).document.save t
      (o.output.getD (o.root.join d.manifest.output)) (o.pretty || d.manifest.pretty) with
  | mk tree result =>
      rw [hsave] at hok
      cases result with
      | error reason => cases hok
      | ok u => exact Document.wrote_of_save hsave

end Build

theorem tree_runValidate (t : FileTree) (source : Option Path) (root : Path) :
    (runValidate t source root).tree = t := by
  unfold runValidate
  split
  · rfl
  · simp only
    split <;> rfl

theorem tree_runList (t : FileTree) (source : Option Path) (root : Path) :
    (runList t source root).tree = t := by
  unfold runList
  split <;> rfl

-- Only a build writes, and only where its output goes. A build that would leave
-- a failing file out although it is strict ends before it writes.
theorem run_writes_only_output (t : FileTree) :
    (∀ source root, (run t (.validate source root)).tree = t ∧
      (run t (.list source root)).tree = t) ∧
    ∀ o : BuildOptions,
      (∀ reason, Discovery.resolve t o.root o.source = .error reason →
        (run t (.build o)).tree = t ∧ (run t (.build o)).result = .error reason) ∧
      ∀ d, Discovery.resolve t o.root o.source = .ok d →
        ((∀ p ∈ d.sourceDirs, t.exists? p = false) → (run t (.build o)).tree = t) ∧
        (o.stdout → (run t (.build o)).tree = t) ∧
        (o.strict → (∃ p ∈ d.files, (Fate.of t p).isCompiled = false) →
          (run t (.build o)).tree = t ∧
          ∃ message help, (run t (.build o)).result = .error (.validation message help)) ∧
        ((∃ p ∈ d.sourceDirs, t.exists? p) → o.stdout = false →
          (o.strict → ∀ p ∈ d.files, (Fate.of t p).isCompiled) →
          (run t (.build o)).result = .ok () →
          t.Wrote (run t (.build o)).tree (o.output.getD (o.root.join d.manifest.output))
            ((d.compile t o.serial).document.render (o.pretty || d.manifest.pretty))) ∧
        (o.strict → (run t (.build o)).result = .ok () →
          (d.compile t o.serial).failures = []) := by
  refine ⟨fun source root => ⟨tree_runValidate t source root, tree_runList t source root⟩,
    fun o => ⟨fun reason h => ?_, fun d h => ?_⟩⟩
  · change (runBuild t o).tree = t ∧ (runBuild t o).result = .error reason
    rw [runBuild_of_error h]
    exact ⟨rfl, rfl⟩
  have hrefused : o.strict → (d.compile t o.serial).hasFailures →
      (runBuild t o).tree = t ∧
        ∃ message help, (runBuild t o).result = .error (.validation message help) := by
    intro hstrict hfailures
    obtain ⟨p, hp, -⟩ := (d.hasFailures_compile_iff t o.serial).1 hfailures
    exact runBuild_of_strict h (Discovery.hasSources_of_mem_files h hp) hstrict hfailures
  refine ⟨fun hnone => ?_, tree_runBuild_of_stdout h, fun hstrict hfailing => ?_,
    fun hsome hstdout hcompiled hok => ?_, fun hstrict hok => ?_⟩
  · refine tree_runBuild_of_not_hasSources h ?_
    simpa [Discovery.hasSources] using hnone
  · exact hrefused hstrict ((d.hasFailures_compile_iff t o.serial).2 hfailing)
  · refine wrote_of_runBuild h (by simpa [Discovery.hasSources] using hsome) hstdout ?_ hok
    intro hstrict
    rw [← Bool.not_eq_true, d.hasFailures_compile_iff]
    rintro ⟨p, hp, hfail⟩
    rw [hcompiled hstrict p hp] at hfail
    cases hfail
  · by_contra hfailures
    have hfailing : (d.compile t o.serial).hasFailures := by
      simpa [Report.hasFailures] using hfailures
    obtain ⟨-, message, help, hresult⟩ := hrefused hstrict hfailing
    change (runBuild t o).result = .ok () at hok
    rw [hresult] at hok
    cases hok

-- A project of one annotated file, where nothing has been built yet.
def freshTree : FileTree where
  nodes := [(["src"], .directory), (["src", "api"], .directory),
    (["src", "api", "a.js"], .text "/**\n * @api \x7bget\x7d /a A\n */\n")]

def freshDiscovery : Discovery where
  root := ⟨"."⟩
  manifest := {}
  hasManifest := false
  sourceDirs := [⟨"./src/api"⟩]
  files := [⟨"./src/api/a.js"⟩]

def freshEndpoint : Endpoint where
  src := "src/api/a.js"
  method := .get
  url := "/a"
  title := "A"
  description := ""
  permissions := {}
  params := []
  examples := ∅
  extra := ∅

theorem run_writes_only_output_fresh :
    (run freshTree (.build { strict := true })).result = .ok () ∧
    freshTree.isDirectory ⟨"./dist"⟩ = false ∧
    freshTree.Wrote (run freshTree (.build { strict := true })).tree ⟨"./dist/api/apidocs.json"⟩
      ((Document.ofContributions [.endpoint "General" freshEndpoint]).render false) ∧
    (freshDiscovery.compile freshTree false).failures = [] := by
  have hresolve : Discovery.resolve freshTree ⟨"."⟩ none = .ok freshDiscovery := by decide +kernel
  have hsources : ∃ p ∈ freshDiscovery.sourceDirs, freshTree.exists? p := by decide +kernel
  have hcompiled : ∀ p ∈ freshDiscovery.files, (Fate.of freshTree p).isCompiled := by
    decide +kernel
  have hdocument : (freshDiscovery.compile freshTree false).document =
      .ofContributions [.endpoint "General" freshEndpoint] := by
    decide +kernel
  have hok : (run freshTree (.build { strict := true })).result = .ok () := by decide +kernel
  obtain ⟨-, hbuild⟩ := run_writes_only_output freshTree
  obtain ⟨-, -, -, hwrote, hfailures⟩ := (hbuild { strict := true }).2 freshDiscovery hresolve
  refine ⟨hok, by decide +kernel, ?_, hfailures rfl hok⟩
  rw [← hdocument]
  exact hwrote hsources rfl (fun _ => hcompiled) hok

end Command

end ApiCatalog
