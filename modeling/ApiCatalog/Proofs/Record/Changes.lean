import ApiCatalog.Proofs.Record.Notes

namespace ApiCatalog

namespace Note

def keyword : Note → Keyword
  | value side _ => .value side
  | sample side _ => .sample side

theorem addTo_comm {a b : Note} (h : a.keyword ≠ b.keyword) (s : StatusExamples) :
    b.addTo (a.addTo s) = a.addTo (b.addTo s) := by
  rcases a with ⟨_ | _, _⟩ | ⟨_ | _, _⟩ <;> rcases b with ⟨_ | _, _⟩ | ⟨_ | _, _⟩ <;>
    first | rfl | exact absurd rfl h

theorem putIn_comm {a b : Note} (h : a.keyword ≠ b.keyword) (m : NameMap StatusExamples) :
    b.putIn (a.putIn m) = a.putIn (b.putIn m) := by
  unfold putIn
  by_cases hstatus : a.status = b.status
  · simp only [hstatus, NameMap.upsert_upsert, Option.getD_some, addTo_comm h]
  · exact NameMap.upsert_comm hstatus _ _ _

end Note

namespace Record

theorem setPlain_comm {tag tag' : String} (h : tag ≠ tag') (r : Record)
    (detail detail' : String) :
    (r.setPlain tag detail).setPlain tag' detail' =
      (r.setPlain tag' detail').setPlain tag detail := by
  have htext : ∀ name old : String,
      (if tag' = name then plainText detail' else if tag = name then plainText detail else old) =
        if tag = name then plainText detail
        else if tag' = name then plainText detail' else old := by
    intro name old
    by_cases htag : tag = name
    · have htag' : tag' ≠ name := fun heq => h (htag.trans heq.symm)
      rw [if_neg htag', if_pos htag, if_pos htag]
    · rw [if_neg htag, if_neg htag]
  simp only [setPlain_eq, Record.mk.injEq, true_and]
  refine ⟨htext _ _, htext _ _, htext _ _, htext _ _, htext _ _, ?_⟩
  by_cases hkept : tag ∈ textNames ++ structuredNames
  · simp only [hkept, if_true]
  · simp only [hkept, if_false]
    split
    · rfl
    · exact NameMap.upsert_comm h _ _ _

-- What a line does to a record that is declared already.
inductive Change where
  | addParam (p : Param)
  | setPermissions (permissions : Permissions)
  | addNote (n : Note)
  | setPlain (tag detail : String)

namespace Change

-- The one tag that asks for it.
def tag : Change → String
  | addParam _ => "param"
  | setPermissions _ => "permissions"
  | addNote n => n.keyword.name
  | setPlain tag _ => tag

def apply (r : Record) : Change → Record
  | addParam p => { r with params := r.params ++ [p] }
  | setPermissions permissions => { r with permissions }
  | addNote n => { r with examples := n.putIn r.examples }
  | setPlain tag detail => r.setPlain tag detail

-- Nothing, if the line breaks a rule.
def ofLine? (tag detail : String) : Option Change :=
  match Keyword.ofTag? tag with
  | some .defineGroup => none
  | some .api => none
  | some .param => some (addParam (Param.parse detail))
  | some .permissions =>
      let s := Section.parse detail .descriptionOnly
      (Access.ofText? s.paren).map fun access =>
        setPermissions ⟨access, if access = .role then some s.description else none⟩
  | some (.value side) =>
      let p := Param.parse detail
      if p.status = "" then none else some (addNote (.value side p))
  | some (.sample side) =>
      let e := Example.parse detail
      if e.status = "" then none else some (addNote (.sample side e))
  | none => some (setPlain tag detail)

theorem tag_of_ofLine? {tag detail : String} {c : Change} (h : ofLine? tag detail = some c) :
    c.tag = tag := by
  cases hkey : Keyword.ofTag? tag with
  | none =>
      simp only [ofLine?, hkey, Option.some.injEq] at h
      rw [← h]
      rfl
  | some keyword =>
      rw [Keyword.ofTag?_eq_some_iff.1 hkey]
      cases keyword with
      | defineGroup => simp [ofLine?, hkey] at h
      | api => simp [ofLine?, hkey] at h
      | param =>
          simp only [ofLine?, hkey, Option.some.injEq] at h
          rw [← h]
          rfl
      | permissions =>
          simp only [ofLine?, hkey, Option.map_eq_some_iff] at h
          obtain ⟨access, -, rfl⟩ := h
          rfl
      | value side =>
          simp only [ofLine?, hkey, Option.ite_none_left_eq_some, Option.some.injEq] at h
          rw [← h.2]
          rfl
      | sample side =>
          simp only [ofLine?, hkey, Option.ite_none_left_eq_some, Option.some.injEq] at h
          rw [← h.2]
          rfl

theorem identity_apply (r : Record) (c : Change) : (c.apply r).identity = r.identity := by
  cases c with
  | setPlain tag detail => exact identity_setPlain r tag detail
  | _ => rfl

-- Two changes with different tags write to different places.
theorem apply_comm {a b : Change} (h : a.tag ≠ b.tag) (r : Record) :
    b.apply (a.apply r) = a.apply (b.apply r) := by
  cases a with
  | addParam p =>
      cases b with
      | addParam => exact absurd rfl h
      | setPlain => simp only [apply, setPlain_eq]
      | _ => rfl
  | setPermissions permissions =>
      cases b with
      | setPermissions => exact absurd rfl h
      | setPlain => simp only [apply, setPlain_eq]
      | _ => rfl
  | addNote n =>
      cases b with
      | addNote n' =>
          have hkeyword : n.keyword ≠ n'.keyword := fun heq => h (congrArg Keyword.name heq)
          simp only [apply, Note.putIn_comm hkeyword]
      | setPlain => simp only [apply, setPlain_eq]
      | _ => rfl
  | setPlain tag detail =>
      cases b with
      | setPlain tag' detail' => exact setPlain_comm h r detail detail'
      | _ => simp only [apply, setPlain_eq]

-- A change may be made first if none with its tag stands before it.
theorem foldl_apply_of_forall_ne {c : Change} {before : List Change}
    (h : ∀ b ∈ before, b.tag ≠ c.tag) (r : Record) :
    before.foldl apply (c.apply r) = c.apply (before.foldl apply r) := by
  induction before generalizing r with
  | nil => rfl
  | cons b rest ih =>
      obtain ⟨hb, hrest⟩ := List.forall_mem_cons.1 h
      rw [List.foldl_cons, List.foldl_cons, apply_comm hb.symm, ih hrest]

-- So the order of the changes counts only among those with one tag.
theorem foldl_apply_eq {as bs : List Change}
    (h : ∀ tag, as.filter (·.tag = tag) = bs.filter (·.tag = tag)) (r : Record) :
    as.foldl apply r = bs.foldl apply r := by
  induction as generalizing bs r with
  | nil =>
      cases bs with
      | nil => rfl
      | cons b rest => simpa using h b.tag
  | cons a rest ih =>
      -- The first change of its tag in the other list is this one, so it can be made first there.
      have hfirst := h a.tag
      rw [List.filter_cons_of_pos (by simp)] at hfirst
      obtain ⟨before, after, rfl, hbefore, -, hafter⟩ := List.filter_eq_cons_iff.1 hfirst.symm
      have hne : ∀ b ∈ before, b.tag ≠ a.tag := fun b hb => by simpa using hbefore b hb
      have hrest : ∀ tag, rest.filter (·.tag = tag) = (before ++ after).filter (·.tag = tag) := by
        intro tag
        have htag := h tag
        by_cases heq : a.tag = tag
        · subst heq
          have hnone : before.filter (·.tag = a.tag) = [] := by simpa using hne
          rw [List.filter_append, hnone, List.nil_append, ← hafter]
        · simpa [heq] using htag
      rw [List.foldl_append, List.foldl_cons, List.foldl_cons, ih hrest, List.foldl_append,
        foldl_apply_of_forall_ne hne]

end Change

-- A declared record takes a line as the change that it asks for, or not at all.
theorem toOption_apply {r : Record} (h : r.identity.isSome) (tag detail : String) :
    (r.apply tag detail).toOption = (Change.ofLine? tag detail).map (Change.apply r) := by
  obtain ⟨existing, hidentity⟩ := Option.isSome_iff_exists.1 h
  cases hkey : Keyword.ofTag? tag with
  | none =>
      simp only [apply, Change.ofLine?, hkey]
      rfl
  | some keyword =>
      cases keyword with
      | defineGroup =>
          simp only [apply, Change.ofLine?, hkey, defineGroup, claim, hidentity]
          rfl
      | api =>
          simp only [apply, Change.ofLine?, hkey, declareEndpoint, claim, hidentity]
          rfl
      | param =>
          simp only [apply, Change.ofLine?, hkey]
          rfl
      | permissions =>
          simp only [apply, Change.ofLine?, hkey, setPermissions]
          cases Access.ofText? (Section.parse detail .descriptionOnly).paren <;> rfl
      | value side =>
          simp only [apply, Change.ofLine?, hkey, addValue]
          split <;> rfl
      | sample side =>
          simp only [apply, Change.ofLine?, hkey, addExample]
          split <;> rfl

-- The changes that lines ask for.
def changes (lines : List TagLine) : List Change :=
  lines.filterMap fun l => Change.ofLine? l.tag l.detail

-- So it goes with many lines: all their changes are made, or one of them breaks a rule.
theorem toOption_applyLines {r : Record} (h : r.identity.isSome) (path : String)
    (lines : List TagLine) :
    (r.applyLines path lines).toOption =
      if ∀ l ∈ lines, (Change.ofLine? l.tag l.detail).isSome then
        some ((changes lines).foldl Change.apply r)
      else none := by
  induction lines generalizing r with
  | nil => rfl
  | cons l rest ih =>
      have hcons : (r.applyLines path (l :: rest)).toOption =
          (r.apply l.tag l.detail).toOption.bind fun s => (s.applyLines path rest).toOption := by
        rw [applyLines]
        cases r.apply l.tag l.detail <;> rfl
      rw [hcons, toOption_apply h]
      cases hc : Change.ofLine? l.tag l.detail with
      | none => simp [hc]
      | some c =>
          have hdeclared : (c.apply r).identity.isSome := by rwa [Change.identity_apply]
          simp [hc, ih hdeclared, changes]

end Record

namespace TagLine

-- The texts of the lines with one tag, in order.
def detailsOf (tag : String) (lines : List TagLine) : List String :=
  (lines.filter (·.tag = tag)).map (·.detail)

theorem forall_detailsOf {lines : List TagLine} {p : String → String → Prop} :
    (∀ tag, ∀ detail ∈ detailsOf tag lines, p tag detail) ↔ ∀ l ∈ lines, p l.tag l.detail := by
  simp only [detailsOf, List.mem_map, List.mem_filter, decide_eq_true_eq]
  constructor
  · intro h l hl
    exact h l.tag l.detail ⟨l, ⟨hl, rfl⟩, rfl⟩
  · rintro h tag detail ⟨l, ⟨hl, rfl⟩, rfl⟩
    exact h l hl

end TagLine

namespace Record

theorem filter_changes (tag : String) (lines : List TagLine) :
    (changes lines).filter (·.tag = tag) =
      (TagLine.detailsOf tag lines).filterMap (Change.ofLine? tag) := by
  have hline : ∀ l : TagLine, (Change.ofLine? l.tag l.detail).filter (·.tag = tag) =
      if l.tag = tag then Change.ofLine? tag l.detail else none := by
    intro l
    by_cases htag : l.tag = tag
    · subst htag
      cases hc : Change.ofLine? l.tag l.detail with
      | none => simp
      | some c => simp [Change.tag_of_ofLine? hc]
    · cases hc : Change.ofLine? l.tag l.detail with
      | none => simp [htag]
      | some c => simp [Change.tag_of_ofLine? hc, htag]
  simp only [changes, TagLine.detailsOf, List.filter_filterMap, List.filterMap_map,
    List.filterMap_filter, hline, decide_eq_true_eq, Function.comp_def]

-- What lines do to a declared record hangs on the order of those with the same tag only.
theorem toOption_applyLines_congr {r : Record} (h : r.identity.isSome) (path : String)
    {lines lines' : List TagLine}
    (hdetails : ∀ tag, TagLine.detailsOf tag lines = TagLine.detailsOf tag lines') :
    (r.applyLines path lines).toOption = (r.applyLines path lines').toOption := by
  have haccepted : (∀ l ∈ lines, (Change.ofLine? l.tag l.detail).isSome) ↔
      ∀ l ∈ lines', (Change.ofLine? l.tag l.detail).isSome := by
    rw [← TagLine.forall_detailsOf (p := fun tag detail => (Change.ofLine? tag detail).isSome),
      ← TagLine.forall_detailsOf (p := fun tag detail => (Change.ofLine? tag detail).isSome)]
    simp only [hdetails]
  have hchanges : (changes lines).foldl Change.apply r = (changes lines').foldl Change.apply r :=
    Change.foldl_apply_eq (fun tag => by rw [filter_changes, filter_changes, hdetails]) r
  simp only [toOption_applyLines h, haccepted, hchanges]

theorem toOption_ofBlock (block : Block) :
    (ofBlock block).toOption =
      (applyLines { src := block.path } block.path block.lines).toOption.map
        (·.withSummary block.summary) := by
  unfold ofBlock
  cases applyLines { src := block.path } block.path block.lines <;> rfl

-- Below the declaration, lines with different tags may change places: both blocks fail, though
-- perhaps not at the same line, or both give the same record.
theorem ofBlock_of_reordered {block block' : Block} {l l' : TagLine} {rest rest' : List TagLine}
    (hpath : block.path = block'.path) (hsummary : block.summary = block'.summary)
    (hlines : block.lines = l :: rest) (hlines' : block'.lines = l' :: rest')
    (hdeclares : l.Declares) (htag : l.tag = l'.tag) (hdetail : l.detail = l'.detail)
    (hdetails : ∀ tag, TagLine.detailsOf tag rest = TagLine.detailsOf tag rest') :
    (ofBlock block).toOption = (ofBlock block').toOption := by
  have hfresh : ¬ l.Offends [] := by
    rcases hdeclares with h | h <;> simp [TagLine.Offends, h]
  obtain ⟨r, hr, hidentity⟩ := apply_of_not_offends (r := { src := block.path }) rfl hfresh
  have hdeclared : r.identity.isSome := by
    rw [hidentity, TagLine.isSome_identityOf_iff]
    exact ⟨l, by simp, hdeclares⟩
  rw [toOption_ofBlock, toOption_ofBlock, ← hpath, ← hsummary, hlines, hlines', applyLines,
    applyLines, ← htag, ← hdetail, hr]
  exact congrArg (Option.map _) (toOption_applyLines_congr hdeclared block.path hdetails)

def petsBlock (rest : List TagLine) : Block :=
  { path := "pets.js", location := .start, summary := "Pets.",
    lines := ⟨"api", "\x7bget\x7d /pets", 2⟩ :: rest }

theorem ofBlock_petsBlock_reordered :
    let lines : List TagLine :=
      [⟨"param", "limit=20", 3⟩, ⟨"requestvalue", "<200> (body) name - Rex", 4⟩,
        ⟨"param", "[page]", 5⟩, ⟨"responsevalue", "<200> (body) name - Max", 6⟩]
    let lines' : List TagLine :=
      [⟨"responsevalue", "<200> (body) name - Max", 3⟩, ⟨"param", "limit=20", 5⟩,
        ⟨"param", "[page]", 6⟩, ⟨"requestvalue", "<200> (body) name - Rex", 9⟩]
    (ofBlock (petsBlock lines)).toOption.isSome ∧
      (ofBlock (petsBlock lines)).toOption = (ofBlock (petsBlock lines')).toOption := by
  intro lines lines'
  have hdetails : ∀ tag, TagLine.detailsOf tag lines = TagLine.detailsOf tag lines' := by
    intro tag
    simp only [lines, lines', TagLine.detailsOf, List.filter_cons, decide_eq_true_eq]
    split_ifs <;> grind
  exact ⟨by decide +kernel, ofBlock_of_reordered rfl rfl rfl rfl (.inl rfl) rfl rfl hdetails⟩

end Record

end ApiCatalog
