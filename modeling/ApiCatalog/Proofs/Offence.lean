import ApiCatalog.Proofs.Block.Place
import ApiCatalog.Proofs.Contribution

namespace ApiCatalog

-- What a tag declares its block to be.
def Identity.ofTag? (tag : String) : Option Identity :=
  if tag = "definegroup" then some .group else if tag = "api" then some .endpoint else none

namespace TagLine

def Declares (l : TagLine) : Prop := l.tag = "api" ∨ l.tag = "definegroup"

instance (l : TagLine) : Decidable l.Declares := inferInstanceAs (Decidable (_ ∨ _))

-- The line breaks a rule; `earlier` are the lines of its block above it.
def Offends (earlier : List TagLine) (l : TagLine) : Prop :=
  (l.Declares ∧ ∃ e ∈ earlier, e.Declares) ∨
  (l.tag = "permissions" ∧
    (Section.parse l.detail .descriptionOnly).paren ∉ ["none", "user", "role"]) ∨
  ((l.tag = "requestvalue" ∨ l.tag = "responsevalue") ∧ (Param.parse l.detail).status = "") ∨
  ((l.tag = "requestexample" ∨ l.tag = "responseexample") ∧ (Example.parse l.detail).status = "")

instance (earlier : List TagLine) (l : TagLine) : Decidable (l.Offends earlier) :=
  inferInstanceAs (Decidable (_ ∨ _))

-- The lines that break a rule, in order.
def offences (earlier : List TagLine) : List TagLine → List TagLine
  | [] => []
  | l :: rest =>
      if l.Offends earlier then
        l :: offences (earlier ++ [l]) rest
      else
        offences (earlier ++ [l]) rest

theorem mem_offences {earlier lines : List TagLine} {l : TagLine} :
    l ∈ offences earlier lines ↔
      ∃ before after, lines = before ++ l :: after ∧ l.Offends (earlier ++ before) := by
  induction lines generalizing earlier with
  | nil => simp [offences]
  | cons next rest ih =>
      constructor
      · intro h
        have hcases : (l = next ∧ l.Offends earlier) ∨ l ∈ offences (earlier ++ [next]) rest := by
          rw [offences] at h
          split at h
          · rename_i hnext
            rcases List.mem_cons.1 h with rfl | hrest
            · exact .inl ⟨rfl, hnext⟩
            · exact .inr hrest
          · exact .inr h
        rcases hcases with ⟨rfl, hnext⟩ | hrest
        · exact ⟨[], rest, rfl, by simpa using hnext⟩
        · obtain ⟨before, after, rfl, hl⟩ := ih.1 hrest
          exact ⟨next :: before, after, rfl, by simpa using hl⟩
      · rintro ⟨before, after, heq, hl⟩
        rw [offences]
        cases before with
        | nil =>
            obtain ⟨rfl, rfl⟩ := List.cons.inj heq
            rw [List.append_nil] at hl
            simp [hl]
        | cons first before =>
            obtain ⟨rfl, rfl⟩ := List.cons.inj heq
            have hrest : l ∈ offences (earlier ++ [next]) (before ++ l :: after) :=
              ih.2 ⟨before, after, rfl, by simpa using hl⟩
            split
            · exact List.mem_cons_of_mem next hrest
            · exact hrest

theorem offences_sublist (earlier lines : List TagLine) :
    (offences earlier lines).Sublist lines := by
  induction lines generalizing earlier with
  | nil => exact .slnil
  | cons l rest ih =>
      rw [offences]
      split
      · exact (ih _).cons_cons l
      · exact (ih _).cons l

-- What the first declaration among the lines declares.
def identityOf (lines : List TagLine) : Option Identity :=
  lines.findSome? fun l => Identity.ofTag? l.tag

theorem isSome_identityOf_iff (lines : List TagLine) :
    (identityOf lines).isSome ↔ ∃ l ∈ lines, l.Declares := by
  have hline : ∀ l : TagLine, (Identity.ofTag? l.tag).isSome ↔ l.Declares := by
    intro l
    unfold Identity.ofTag? Declares
    split_ifs <;> simp_all
  simp [identityOf, hline]

theorem identityOf_append_singleton (lines : List TagLine) (l : TagLine) :
    identityOf (lines ++ [l]) = (identityOf lines).or (Identity.ofTag? l.tag) := by
  simp [identityOf, List.findSome?_append]

end TagLine

theorem Access.ofText?_eq_none_iff (value : String) :
    ofText? value = Option.none ↔ value ∉ ["none", "user", "role"] := by
  unfold ofText?
  split_ifs <;> simp_all

namespace Record

theorem identity_setPlain (r : Record) (tag detail : String) :
    (r.setPlain tag detail).identity = r.identity := by
  simp only [setPlain]
  split_ifs <;> rfl

theorem Step.identity_eq {r r' : Record} {tag detail : String} (h : r.Step tag detail r') :
    r'.identity = r.identity.or (Identity.ofTag? tag) := by
  cases h with
  | defineGroup htag hfree => simp [htag, hfree, Identity.ofTag?]
  | declareEndpoint htag hfree => simp [htag, hfree, Identity.ofTag?]
  | addParam htag => simp [htag, Identity.ofTag?, Record.addParam]
  | setPermissions htag => simp [htag, Identity.ofTag?]
  | @addValue side htag => cases side <;> simp [htag, Keyword.name, Identity.ofTag?]
  | @addExample side htag => cases side <;> simp [htag, Keyword.name, Identity.ofTag?]
  | setPlain htag =>
      have hplain : ∀ keyword : Keyword, tag ≠ keyword.name := by
        intro keyword heq
        rw [Keyword.ofTag?_eq_some_iff.2 heq] at htag
        cases htag
      have hgroup := hplain .defineGroup
      have hapi := hplain .api
      simp_all [identity_setPlain, Keyword.name, Identity.ofTag?]

theorem Breach.offends {r : Record} {earlier : List TagLine} {l : TagLine} {v : Violation}
    (hearlier : r.identity = TagLine.identityOf earlier) (h : r.Breach l.tag l.detail v) :
    l.Offends earlier := by
  cases h with
  | secondIdentity htag hdeclared =>
      refine .inl ⟨htag.symm, (TagLine.isSome_identityOf_iff earlier).1 ?_⟩
      rw [← hearlier, hdeclared]
      rfl
  | unknownAccess htag haccess => exact .inr (.inl ⟨htag, (Access.ofText?_eq_none_iff _).1 haccess⟩)
  | valueStatus htag hstatus =>
      exact .inr (.inr (.inl ⟨Keyword.exists_value_iff.1 ⟨_, htag⟩, hstatus⟩))
  | exampleStatus htag hstatus =>
      exact .inr (.inr (.inr ⟨Keyword.exists_sample_iff.1 ⟨_, htag⟩, hstatus⟩))

theorem apply_of_not_offends {r : Record} {earlier : List TagLine} {l : TagLine}
    (hearlier : r.identity = TagLine.identityOf earlier) (h : ¬ l.Offends earlier) :
    ∃ r', r.apply l.tag l.detail = .ok r' ∧
      r'.identity = TagLine.identityOf (earlier ++ [l]) := by
  rcases r.apply_cases l.tag l.detail with ⟨r', hok, hstep⟩ | ⟨v, -, hbreach⟩
  · refine ⟨r', hok, ?_⟩
    rw [hstep.identity_eq, hearlier, TagLine.identityOf_append_singleton]
  · exact absurd (hbreach.offends hearlier) h

theorem apply_of_offends {r : Record} {earlier : List TagLine} {l : TagLine}
    (hearlier : r.identity = TagLine.identityOf earlier) (h : l.Offends earlier) :
    ∃ v, r.apply l.tag l.detail = .error v := by
  rcases h with ⟨htag, hdeclared⟩ | ⟨htag, hparen⟩ | ⟨htag, hstatus⟩ | ⟨htag, hstatus⟩
  · have hsome := (TagLine.isSome_identityOf_iff earlier).2 hdeclared
    obtain ⟨existing, hidentity⟩ := Option.isSome_iff_exists.1 hsome
    rw [← hearlier] at hidentity
    rcases htag with htag | htag
    · have hkey : Keyword.ofTag? l.tag = some .api := Keyword.ofTag?_eq_some_iff.2 htag
      exact ⟨.secondIdentity (r.declared existing),
        by simp only [apply, hkey, declareEndpoint, claim, hidentity]; rfl⟩
    · have hkey : Keyword.ofTag? l.tag = some .defineGroup := Keyword.ofTag?_eq_some_iff.2 htag
      exact ⟨.secondIdentity (r.declared existing),
        by simp only [apply, hkey, defineGroup, claim, hidentity]; rfl⟩
  · have hkey : Keyword.ofTag? l.tag = some .permissions := Keyword.ofTag?_eq_some_iff.2 htag
    have haccess := (Access.ofText?_eq_none_iff _).2 hparen
    exact ⟨.unknownAccess (Section.parse l.detail .descriptionOnly).paren,
      by simp only [apply, hkey, setPermissions, haccess]⟩
  · obtain ⟨side, htag⟩ := Keyword.exists_value_iff.2 htag
    have hkey := Keyword.ofTag?_eq_some_iff.2 htag
    exact ⟨.missingStatus r.title (Keyword.valueTag side),
      by simp only [apply, hkey, addValue, if_pos hstatus]⟩
  · obtain ⟨side, htag⟩ := Keyword.exists_sample_iff.2 htag
    have hkey := Keyword.ofTag?_eq_some_iff.2 htag
    exact ⟨.missingStatus r.title (Keyword.sampleTag side),
      by simp only [apply, hkey, addExample, if_pos hstatus]⟩

-- A run over clean lines ends in what they declare.
theorem applyLines_of_clean {r : Record} {earlier lines : List TagLine} (path : String)
    (hearlier : r.identity = TagLine.identityOf earlier)
    (h : TagLine.offences earlier lines = []) :
    ∃ r', r.applyLines path lines = .ok r' ∧
      r'.identity = TagLine.identityOf (earlier ++ lines) := by
  induction lines generalizing r earlier with
  | nil => exact ⟨r, rfl, by rw [List.append_nil, hearlier]⟩
  | cons l rest ih =>
      rw [TagLine.offences] at h
      split at h
      · cases h
      · rename_i hl
        obtain ⟨s, hs, hidentity⟩ := apply_of_not_offends hearlier hl
        obtain ⟨r', hr', hfinal⟩ := ih hidentity h
        exact ⟨r', by simp only [applyLines, hs, hr'], by simpa using hfinal⟩

-- Any other run stops at the first offence.
theorem applyLines_of_offence {r : Record} {earlier lines later : List TagLine} {l : TagLine}
    (path : String) (hearlier : r.identity = TagLine.identityOf earlier)
    (h : TagLine.offences earlier lines = l :: later) :
    ∃ v : Violation, r.applyLines path lines = .error (v.report path l.line) := by
  induction lines generalizing r earlier with
  | nil => cases h
  | cons next rest ih =>
      rw [TagLine.offences] at h
      split at h
      · rename_i hnext
        obtain ⟨rfl, -⟩ := List.cons.inj h
        obtain ⟨v, hv⟩ := apply_of_offends hearlier hnext
        exact ⟨v, by simp only [applyLines, hv]⟩
      · rename_i hnext
        obtain ⟨s, hs, hidentity⟩ := apply_of_not_offends hearlier hnext
        obtain ⟨v, hv⟩ := ih hidentity h
        exact ⟨v, by simp only [applyLines, hs, hv]⟩

end Record

namespace Block

def offences (block : Block) : List TagLine := TagLine.offences [] block.lines

theorem mem_offences {block : Block} {l : TagLine} :
    l ∈ block.offences ↔ ∃ before after, block.lines = before ++ l :: after ∧ l.Offends before :=
  TagLine.mem_offences

theorem offences_subset {block : Block} {l : TagLine} (h : l ∈ block.offences) :
    l ∈ block.lines :=
  (TagLine.offences_sublist [] block.lines).subset h

theorem pairwise_offences (path : String) (text : List Char) :
    ((find path text).flatMap offences).Pairwise fun a b => a.line < b.line := by
  obtain ⟨hwithin, hbetween⟩ := List.pairwise_flatMap.1 (pairwise_find path text)
  refine List.pairwise_flatMap.2 ⟨?_, hbetween.imp ?_⟩
  · intro block hblock
    exact (hwithin block hblock).sublist (TagLine.offences_sublist [] block.lines)
  · intro a b hlines l hl m hm
    exact hlines l (offences_subset hl) m (offences_subset hm)

end Block

namespace Record

theorem ofBlock_of_clean {block : Block} (h : block.offences = []) :
    ∃ r, ofBlock block = .ok r ∧ r.identity = TagLine.identityOf block.lines := by
  have hnew : ({ src := block.path } : Record).identity = TagLine.identityOf [] := rfl
  obtain ⟨r, hr, hidentity⟩ := applyLines_of_clean block.path hnew h
  obtain ⟨title, description, hsummary⟩ := r.exists_withSummary block.summary
  refine ⟨r.withSummary block.summary, by simp only [ofBlock, hr], ?_⟩
  rw [hsummary]
  exact hidentity

theorem ofBlock_of_offence {block : Block} {l : TagLine} {later : List TagLine}
    (h : block.offences = l :: later) :
    ∃ v : Violation, ofBlock block = .error (v.report block.path l.line) := by
  have hnew : ({ src := block.path } : Record).identity = TagLine.identityOf [] := rfl
  obtain ⟨v, hv⟩ := applyLines_of_offence block.path hnew h
  exact ⟨v, by simp only [ofBlock, hv]⟩

end Record

namespace Contribution

theorem ofBlocks_of_clean {blocks : List Block} (h : ∀ block ∈ blocks, block.offences = []) :
    ofBlocks blocks = .ok (blocks.filterMap ofBlock?) := by
  induction blocks with
  | nil => rfl
  | cons block rest ih =>
      obtain ⟨hblock, hrest⟩ := List.forall_mem_cons.1 h
      obtain ⟨r, hr, -⟩ := Record.ofBlock_of_clean hblock
      simp only [ofBlocks, hr, ih hrest, List.filterMap_cons, ofBlock?_of_ok hr]
      cases ofRecord? r <;> rfl

theorem ofBlocks_of_offence {path : String} {blocks : List Block} {l : TagLine}
    {later : List TagLine} (hpath : ∀ block ∈ blocks, block.path = path)
    (h : blocks.flatMap Block.offences = l :: later) :
    ∃ v : Violation, ofBlocks blocks = .error (v.report path l.line) := by
  induction blocks with
  | nil => cases h
  | cons block rest ih =>
      rw [List.flatMap_cons] at h
      obtain ⟨hblock, hrest⟩ := List.forall_mem_cons.1 hpath
      cases hoffences : block.offences with
      | nil =>
          obtain ⟨r, hr, -⟩ := Record.ofBlock_of_clean hoffences
          obtain ⟨v, hv⟩ := ih hrest (by simpa [hoffences] using h)
          exact ⟨v, by simp only [ofBlocks, hr, hv]⟩
      | cons first more =>
          obtain ⟨v, hv⟩ := Record.ofBlock_of_offence hoffences
          rw [hoffences] at h
          obtain ⟨rfl, -⟩ := List.cons.inj h
          exact ⟨v, by simp only [ofBlocks, hv, hblock]⟩

-- A file is read as a whole or fails at its first offence. The lines above an
-- offence decide about it within its block only, and the report gives the line
-- of the text as it was written.
theorem ofSource_fails_at_first_offence (path source : String) :
    let blocks := Block.find path (Text.unifyBreaks source.toList)
    ((∃ e, ofSource path source = .error e) ↔
      ∃ block ∈ blocks, ∃ before l after,
        block.lines = before ++ l :: after ∧ l.Offends before) ∧
    match blocks.flatMap Block.offences with
    | l :: later =>
        (∃ v : Violation, ofSource path source = .error (v.report path l.line)) ∧
        (∀ m ∈ later, l.line < m.line) ∧
        ∃ i raw, l.line = i + 1 ∧ (Text.lines source.toList)[i]? = some raw ∧
          l.Opens (Comment.undecorated raw)
    | [] =>
        ofSource path source = .ok (blocks.filterMap ofBlock?) ∧
        ∀ block ∈ blocks, ∃ r, Record.ofBlock block = .ok r ∧ ofBlock? block = ofRecord? r ∧
          r.identity = TagLine.identityOf block.lines ∧
          ((ofRecord? r).isSome ↔ r.identity = some .group ∨
            r.identity = some .endpoint ∧ r.method ≠ "" ∧ r.url ≠ "") := by
  intro blocks
  have hoffence : (∃ block ∈ blocks, ∃ before l after,
      block.lines = before ++ l :: after ∧ l.Offends before) ↔
      ∃ l, l ∈ blocks.flatMap Block.offences := by
    simp only [List.mem_flatMap, Block.mem_offences]
    grind
  rw [hoffence]
  cases hblocks : blocks.flatMap Block.offences with
  | nil =>
      have hclean : ∀ block ∈ blocks, block.offences = [] := List.flatMap_eq_nil_iff.1 hblocks
      have hok : ofSource path source = .ok (blocks.filterMap ofBlock?) := ofBlocks_of_clean hclean
      refine ⟨by simp [hok], hok, ?_⟩
      intro block hblock
      obtain ⟨r, hr, hidentity⟩ := Record.ofBlock_of_clean (hclean block hblock)
      exact ⟨r, hr, ofBlock?_of_ok hr, hidentity, isSome_ofRecord?_iff r⟩
  | cons l later =>
      have hpath : ∀ block ∈ blocks, block.path = path := fun _ => Block.path_of_mem_find
      obtain ⟨v, hv⟩ := ofBlocks_of_offence hpath hblocks
      have hlater := Block.pairwise_offences path (Text.unifyBreaks source.toList)
      obtain ⟨block, hblock, hl⟩ := List.mem_flatMap.1 (hblocks ▸ List.mem_cons_self)
      exact ⟨⟨fun _ => ⟨l, by simp⟩, fun _ => ⟨_, hv⟩⟩, ⟨v, hv⟩,
        (List.pairwise_cons.1 (hblocks ▸ hlater)).1,
        Block.line_of_mem_find_unifyBreaks hblock (Block.offences_subset hl)⟩

end Contribution

end ApiCatalog
