import ApiCatalog.Proofs.Block.Place
import ApiCatalog.Proofs.Contribution
import ApiCatalog.Proofs.Report
import Mathlib.Data.List.Sort

namespace ApiCatalog

namespace SourceFile

def blocks (file : SourceFile) : List Block :=
  Block.find file.path (Text.unifyBreaks file.text.toList)

theorem exists_record_of_mem {file : SourceFile} {c : Contribution}
    (h : c ∈ file.contributions) :
    ∃ block ∈ file.blocks, ∃ r, Record.ofBlock block = .ok r ∧
      Contribution.ofRecord? r = some c := by
  unfold contributions at h
  split at h
  · rename_i cs hcs
    exact (Contribution.mem_of_ofSource hcs).1 h
  · exact absurd h List.not_mem_nil

-- No tag of the file says that an endpoint belongs to another one.
def KeepsSource (file : SourceFile) : Prop :=
  ∀ block ∈ file.blocks, ∀ l ∈ block.lines, l.tag ≠ "src"

instance (file : SourceFile) : Decidable file.KeepsSource :=
  inferInstanceAs (Decidable (∀ block ∈ file.blocks, ∀ l ∈ block.lines, l.tag ≠ "src"))

theorem KeepsSource.src_eq {file : SourceFile} (h : file.KeepsSource) {name : String}
    {e : Endpoint} (he : .endpoint name e ∈ file.contributions) : e.src = file.path := by
  obtain ⟨block, hblock, r, hr, hc⟩ := exists_record_of_mem he
  rw [Contribution.src_of_ofRecord? hc, Record.src_ofBlock (h block hblock) hr,
    Block.path_of_mem_find hblock]

-- The endpoints that the file puts into the group with that name, as the group keeps them.
def endpointsOf (name : String) (file : SourceFile) : List Endpoint :=
  (file.contributions.filterMap (·.endpointOf? name)).map Group.kept

theorem KeepsSource.src_of_mem {file : SourceFile} (h : file.KeepsSource) {name : String}
    {e : Endpoint} (he : e ∈ file.endpointsOf name) : e.src = file.path := by
  obtain ⟨added, hadded, rfl⟩ := List.mem_map.1 he
  obtain ⟨c, hc, hsome⟩ := List.mem_filterMap.1 hadded
  obtain rfl := Contribution.endpointOf?_eq_some_iff.1 hsome
  have hsrc : added.src = file.path := h.src_eq hc
  exact hsrc

end SourceFile

namespace Report

theorem document_ofFiles (files : List SourceFile) :
    (ofFiles files).document = Document.ofContributions (files.flatMap (·.contributions)) :=
  (accounts_ofFiles files).document.unique (Document.holds_ofContributions _)

theorem endpoints_flat (name : String) (files : List SourceFile) :
    (Group.flat name (files.flatMap (·.contributions))).endpoints =
      Endpoint.sort (files.flatMap (·.endpointsOf name)) := by
  have hparts : files.flatMap (·.endpointsOf name) =
      ((files.flatMap (·.contributions)).filterMap (·.endpointOf? name)).map Group.kept := by
    rw [List.filterMap_flatMap, List.map_flatMap]
    rfl
  rw [Group.flat_eq_sort, hparts]

-- Ties between endpoints come from one file only, where distinct files have distinct paths.
theorem endpoints_flat_of_perm {files files' : List SourceFile} (hperm : files.Perm files')
    (hpaths : (files.map (·.path)).Nodup) (hsrc : ∀ file ∈ files, file.KeepsSource)
    (name : String) :
    (Group.flat name (files.flatMap (·.contributions))).endpoints =
      (Group.flat name (files'.flatMap (·.contributions))).endpoints := by
  rw [endpoints_flat, endpoints_flat]
  apply StableSort.sort_flatMap_of_perm Endpoint.le_eq_key hperm
  have hdistinct : files.Pairwise fun f g => f.path ≠ g.path := List.pairwise_map.1 hpaths
  refine hdistinct.imp_of_mem ?_
  intro f g hf hg hne a ha b hb hkey
  have hfirst : a.src = b.src := congrArg (fun key => (ofLex key).1) hkey
  rw [(hsrc f hf).src_of_mem ha, (hsrc g hg).src_of_mem hb] at hfirst
  exact hne hfirst

theorem perm_params_flat (name : String) {cs cs' : List Contribution} (hperm : cs.Perm cs') :
    (Group.flat name cs).params.Perm (Group.flat name cs').params := by
  rw [Group.flat_eq_sort, Group.flat_eq_sort]
  have hdefinitions := hperm.filterMap (·.definitionOf? name)
  exact (StableSort.perm_sort Param.le _).trans
    ((hdefinitions.flatMap_right _).trans (StableSort.perm_sort Param.le _).symm)

theorem pairwise_params_flat (name : String) (cs : List Contribution) :
    (Group.flat name cs).params.Pairwise (fun a b => a.key ≤ b.key) := by
  rw [Group.flat_eq_sort]
  exact StableSort.pairwise_sort_key Param.le_eq_key _

theorem groupNames_of_perm {files files' : List SourceFile} (hperm : files.Perm files') :
    (ofFiles files).document.groupNames = (ofFiles files').document.groupNames := by
  have hsorted : ∀ d : Document, d.groupNames.Pairwise (· < ·) :=
    fun d => List.pairwise_map.2 d.groups.sorted
  refine (hsorted _).eq_of_mem_iff (hsorted _) ?_
  intro name
  rw [(accounts_ofFiles files).document.mem_groupNames_iff,
    (accounts_ofFiles files').document.mem_groupNames_iff]
  simp only [(hperm.flatMap_right _).mem_iff]

-- The order in which files come decides neither which endpoints are listed nor
-- where, as long as no two of them have one path and none claims another's.
theorem ofFiles_of_perm {files files' : List SourceFile} (hperm : files.Perm files')
    (hpaths : (files.map (·.path)).Nodup) (hsrc : ∀ file ∈ files, file.KeepsSource) :
    (ofFiles files).document.groupNames = (ofFiles files').document.groupNames ∧
    (∀ name g g', (ofFiles files).document.get? name = some g →
      (ofFiles files').document.get? name = some g' →
        g.endpoints = g'.endpoints ∧ g.params.Perm g'.params ∧
        g.params.Pairwise (fun a b => a.key ≤ b.key) ∧
        g'.params.Pairwise (fun a b => a.key ≤ b.key)) ∧
    (ofFiles files).document.endpointCount = (ofFiles files').document.endpointCount ∧
    (ofFiles files).files = (ofFiles files').files ∧
    (ofFiles files).parsed = (ofFiles files').parsed ∧
    (ofFiles files).failures.Perm (ofFiles files').failures := by
  obtain ⟨hdocument, hfailures, hcount⟩ := accounts_ofFiles files
  obtain ⟨hdocument', hfailures', hcount'⟩ := accounts_ofFiles files'
  have hcontributions := hperm.flatMap_right SourceFile.contributions
  have hfiles : (ofFiles files).files = (ofFiles files').files := by
    rw [hcount, hcount', hperm.length_eq]
  have hfailed : (ofFiles files).failures.Perm (ofFiles files').failures := by
    rw [hfailures, hfailures']
    exact hperm.filterMap _
  refine ⟨groupNames_of_perm hperm, ?_, ?_, hfiles, ?_, hfailed⟩
  · intro name g g' hg hg'
    rw [hdocument.eq_flat hg, hdocument'.eq_flat hg']
    exact ⟨endpoints_flat_of_perm hperm hpaths hsrc name, perm_params_flat name hcontributions,
      pairwise_params_flat name _, pairwise_params_flat name _⟩
  · rw [document_ofFiles, document_ofFiles, Document.endpointCount_ofContributions,
      Document.endpointCount_ofContributions]
    exact (hcontributions.filterMap _).length_eq
  · rw [parsed, parsed, hfiles, hfailed.length_eq]

-- Two files of one group, and one that cannot be read.
def orderSample : List SourceFile :=
  [⟨"b", "/**\n@api \x7bx\x7d b*//**\n@api \x7bput\x7d b*/"⟩,
    ⟨"a", "/**\n@apiDEFINEGROUP\n@apiPARAM i*//**\n@api \x7bget\x7d a*/"⟩,
    ⟨"c", "/**\n@api\n@api*/"⟩]

theorem ofFiles_of_perm_sample :
    (orderSample.map (·.path)).Nodup ∧ (∀ file ∈ orderSample, file.KeepsSource) ∧
    (ofFiles orderSample.reverse).document.groupNames = ["General"] ∧
    (∀ g, (ofFiles orderSample.reverse).document.get? "General" = some g →
      g.endpoints.map (fun e => (e.src, e.method)) =
        [("a", .get), ("b", .put), ("b", .other "X")]) ∧
    (ofFiles orderSample.reverse).document.endpointCount = 3 ∧
    (ofFiles orderSample.reverse).files = 3 ∧
    (ofFiles orderSample.reverse).parsed = 2 := by
  have hpaths : (orderSample.map (·.path)).Nodup := by decide
  have hsrc : ∀ file ∈ orderSample, file.KeepsSource := by decide +kernel
  obtain ⟨hnames, hgroups, hcount, hfiles, hparsed, -⟩ :=
    ofFiles_of_perm (List.reverse_perm orderSample).symm hpaths hsrc
  have hsample : (ofFiles orderSample).document.groupNames = ["General"] ∧
      ((ofFiles orderSample).document.get? "General").map
        (fun g => g.endpoints.map fun e => (e.src, e.method)) =
          some [("a", .get), ("b", .put), ("b", .other "X")] ∧
      (ofFiles orderSample).document.endpointCount = 3 ∧
      (ofFiles orderSample).files = 3 ∧ (ofFiles orderSample).parsed = 2 := by
    decide +kernel
  refine ⟨hpaths, hsrc, hnames ▸ hsample.1, ?_, hcount ▸ hsample.2.2.1, hfiles ▸ hsample.2.2.2.1,
    hparsed ▸ hsample.2.2.2.2⟩
  intro g hg
  obtain ⟨g', hg', hendpoints⟩ := Option.map_eq_some_iff.1 hsample.2.1
  rw [← hendpoints, (hgroups "General" g' g hg' hg).1]

end Report

end ApiCatalog
