import ApiCatalog.Proofs.Document.Codec
import ApiCatalog.Proofs.Record.Notes
import ApiCatalog.Proofs.Section

namespace ApiCatalog

-- The fields in their order, and behind them the extra tags.
theorem Endpoint.exists_members (e : Endpoint) :
    ∃ members, e.toJson = .object members ∧
      members.map (·.1) = fieldNames ++ e.extra.keys := by
  refine ⟨_, rfl, ?_⟩
  simp [fieldNames, NameMap.keys]

namespace Record

theorem plainText_eq (detail : String) :
    plainText detail = String.ofList (Text.trimEnd (Section.dropDash detail.toList)) := by
  cases htrim : Text.trimStart detail.toList with
  | nil =>
      simp only [plainText, Section.dropDash, htrim]
      rfl
  | cons c rest =>
      have hsolid : Text.isBlank c = false := Text.isBlank_head?_trimStart (by rw [htrim]; rfl)
      have hagain : Text.trimStart (c :: rest) = c :: rest :=
        Text.trimStart_of_head? (by simpa using hsolid)
      by_cases hdash : c = '-'
      · subst hdash
        simp only [plainText, Section.dropDash, htrim]
        rfl
      · simp [plainText, Section.dropDash, htrim, hdash, Text.trim, hagain]

-- What a tag without a grammar says: a text without blanks around it, behind at most one dash.
def IsPlainText (detail text : List Char) : Prop :=
  ∃ gap dash gap' trail, detail = gap ++ Section.dashText dash ++ gap' ++ text ++ trail ∧
    Section.Ending gap dash gap' text ∧ Text.Trimmed text ∧ Text.allBlank trail

theorem isPlainText_plainText (detail : String) :
    IsPlainText detail.toList (plainText detail).toList := by
  obtain ⟨gap, dash, gap', rest, hdetail, hending⟩ := Section.exists_ending detail.toList
  obtain ⟨trail, hrest, htrail⟩ := Text.exists_trimEnd_append rest
  have hhead : ∀ c ∈ (Text.trimEnd rest).head?, c ∈ rest.head? := by
    intro c hc
    rw [hrest, List.head?_append, Option.mem_def.1 hc]
    rfl
  have hsolid : ∀ c ∈ (Text.trimEnd rest).head?, Text.isBlank c = false :=
    fun c hc => hending.head_solid c (hhead c hc)
  rw [plainText_eq, hending.dropDash_eq (by rw [hdetail]), String.toList_ofList]
  refine ⟨gap, dash, gap', trail, ?_, ⟨hending.blank, hending.blank', hsolid, ?_⟩,
    ⟨hsolid, fun c hc => Text.isBlank_getLast?_trimEnd hc⟩, List.all_eq_true.2 htrail⟩
  · rw [hdetail, List.append_assoc _ (Text.trimEnd rest), ← hrest]
  · exact fun hno hdash => hending.head_ne_dash hno (hhead '-' hdash)

theorem plainText_eq_iff (detail text : String) :
    plainText detail = text ↔ IsPlainText detail.toList text.toList := by
  constructor
  · rintro rfl
    exact isPlainText_plainText detail
  · rintro ⟨gap, dash, gap', trail, hdetail, hending, htrimmed, htrail⟩
    have hblanks := Text.forall_isBlank htrail
    rw [plainText_eq, ← String.toList_inj, String.toList_ofList]
    by_cases htext : text.toList = []
    · -- nothing but blanks behind the dash
      have hempty : Section.Ending gap dash (gap' ++ trail) [] := by
        refine ⟨hending.blank, ?_, by simp, by simp⟩
        rw [Text.allBlank, List.all_append, Bool.and_eq_true]
        exact ⟨hending.blank', htrail⟩
      rw [htext, hempty.dropDash_eq (by simp [hdetail, htext])]
      rfl
    · have hhead : (text.toList ++ trail).head? = text.toList.head? := by
        rw [List.head?_append_of_ne_nil _ htext]
      have hwhole : Section.Ending gap dash gap' (text.toList ++ trail) := by
        refine ⟨hending.blank, hending.blank', ?_, ?_⟩
        · rw [hhead]
          exact hending.head_solid
        · rw [hhead]
          exact hending.head_ne_dash
      rw [hwhole.dropDash_eq (by simp [hdetail]), Text.trimEnd_append hblanks,
        htrimmed.trimEnd_eq]

-- The tags that are never kept under their own name: those with a grammar, that of the group,
-- and those named like a field of an endpoint.
def reservedNames : List String :=
  Keyword.vocabulary.map (·.1) ++ "group" :: Endpoint.fieldNames

theorem name_mem_reservedNames (keyword : Keyword) : keyword.name ∈ reservedNames := by
  rcases keyword with _ | _ | _ | _ | (_ | _) | (_ | _) <;> decide

-- The two tables that a plain tag is looked up in are the fields and the group.
theorem mem_reservedNames_iff {tag : String} (h : Keyword.ofTag? tag = none) :
    tag ∈ reservedNames ↔ tag ∈ textNames ++ structuredNames := by
  have hvocabulary : tag ∉ Keyword.vocabulary.map (·.1) := by
    intro hmem
    obtain ⟨entry, hentry, rfl⟩ := List.mem_map.1 hmem
    simpa using List.lookup_eq_none_iff.1 h entry hentry
  have hfields : ("group" :: Endpoint.fieldNames).Perm (textNames ++ structuredNames) := by decide
  rw [reservedNames, List.mem_append, hfields.mem_iff]
  simp only [hvocabulary, false_or]

theorem Step.extra_eq {r r' : Record} {tag detail : String} (h : r.Step tag detail r') :
    r'.extra = if tag ∈ reservedNames then r.extra else r.extra.insert tag (plainText detail) := by
  have hkeyword : ∀ keyword : Keyword, tag = keyword.name → tag ∈ reservedNames := by
    rintro keyword rfl
    exact name_mem_reservedNames keyword
  cases h with
  | defineGroup htag => rw [if_pos (hkeyword .defineGroup htag)]
  | declareEndpoint htag => rw [if_pos (hkeyword .api htag)]
  | addParam htag =>
      rw [if_pos (hkeyword .param htag)]
      rfl
  | setPermissions htag => rw [if_pos (hkeyword .permissions htag)]
  | @addValue side htag => rw [if_pos (hkeyword (.value side) htag)]
  | @addExample side htag => rw [if_pos (hkeyword (.sample side) htag)]
  | setPlain htag => simp only [setPlain_eq, mem_reservedNames_iff htag]

-- Each name holds what the last line with that tag says.
def ExtraFrom (lines : List TagLine) (extra : NameMap String) : Prop :=
  ∀ name, extra.get? name =
    if name ∈ reservedNames then none
    else (TagLine.last? (·.tag = name) lines).map fun l => plainText l.detail

theorem Step.extraFrom {r r' : Record} {earlier : List TagLine} {l : TagLine}
    (hr : ExtraFrom earlier r.extra) (h : r.Step l.tag l.detail r') :
    ExtraFrom (earlier ++ [l]) r'.extra := by
  intro name
  rw [h.extra_eq, TagLine.last?_append_singleton]
  by_cases hl : l.tag = name
  · subst hl
    by_cases hreserved : l.tag ∈ reservedNames
    · simp only [if_pos hreserved, hr l.tag]
    · simp only [if_neg hreserved, NameMap.insert, NameMap.get?_upsert, if_true, Option.map_some]
  · have hname : name ≠ l.tag := fun heq => hl heq.symm
    rw [if_neg hl]
    split
    · exact hr name
    · rw [NameMap.insert, NameMap.get?_upsert, if_neg hname]
      exact hr name

-- Roles are listed if and only if they are asked for.
def RolesAsked (p : Permissions) : Prop := p.roles.isSome ↔ p.access = .role

theorem Step.rolesAsked {r r' : Record} {tag detail : String} (hr : RolesAsked r.permissions)
    (h : r.Step tag detail r') : RolesAsked r'.permissions := by
  cases h with
  | @setPermissions access =>
      unfold RolesAsked
      by_cases haccess : access = .role <;> simp [haccess]
  | setPlain => simpa only [setPlain_eq] using hr
  | _ => exact hr

theorem extraFrom_ofBlock {block : Block} {r : Record} (h : ofBlock block = .ok r) :
    ExtraFrom block.lines r.extra := by
  have hstart : ExtraFrom [] ∅ := fun name => by simp [TagLine.last?]
  obtain ⟨s, title, description, hs, rfl⟩ :=
    ofBlock_keeps (P := fun lines r => ExtraFrom lines r.extra) Step.extraFrom hstart h
  exact hs

theorem rolesAsked_ofBlock {block : Block} {r : Record} (h : ofBlock block = .ok r) :
    RolesAsked r.permissions := by
  have hstart : RolesAsked {} := by simp [RolesAsked]
  obtain ⟨s, title, description, hs, rfl⟩ :=
    ofBlock_keeps (P := fun _ r => RolesAsked r.permissions) Step.rolesAsked hstart h
  exact hs

theorem not_mem_keys_of_mem_fieldNames {lines : List TagLine} {extra : NameMap String}
    (h : ExtraFrom lines extra) {name : String} (hfield : name ∈ Endpoint.fieldNames) :
    name ∉ extra.keys := by
  have hreserved : name ∈ reservedNames :=
    List.mem_append_right _ (List.mem_cons_of_mem _ hfield)
  rw [NameMap.mem_keys_iff, h name, if_pos hreserved]
  simp

-- Extra tags are exactly the tags that have no field, each with its last text, so that no
-- member of an endpoint's object has the name of another.
theorem ofBlock_keeps_plain_tags {block : Block} {r : Record} (h : ofBlock block = .ok r) :
    (∀ name text, r.extra.get? name = some text ↔
      name ∉ reservedNames ∧ ∃ l, TagLine.last? (·.tag = name) block.lines = some l ∧
        IsPlainText l.detail.toList text.toList) ∧
    (r.permissions.roles.isSome ↔ r.permissions.access = .role) ∧
    ∀ group e, Contribution.ofRecord? r = some (.endpoint group e) →
      ∃ members, e.toJson = .object members ∧
        (∀ layout, Json.read? (e.toJson.print layout) = some (.object members)) ∧
        members.map (·.1) = Endpoint.fieldNames ++ r.extra.keys ∧
        (members.map (·.1)).Nodup ∧ r.extra.keys.Pairwise (· < ·) := by
  have hextra := extraFrom_ofBlock h
  refine ⟨fun name text => ?_, rolesAsked_ofBlock h, fun group e he => ?_⟩
  · rw [hextra name]
    by_cases hreserved : name ∈ reservedNames
    · simp [hreserved]
    · simp [hreserved, Option.map_eq_some_iff, plainText_eq_iff]
  · obtain ⟨-, -, -, -, rfl⟩ := Contribution.eq_of_ofRecord?_endpoint he
    obtain ⟨members, hmembers, hkeys⟩ := (Contribution.operationOf r).exists_members
    have hread := Json.read?_print (Contribution.operationOf r).wellformed_toJson
    refine ⟨members, hmembers, fun layout => by rw [hread layout, hmembers], hkeys, ?_,
      r.extra.pairwise_keys⟩
    rw [hkeys]
    refine List.nodup_append.2 ⟨by decide, r.extra.pairwise_keys.imp fun hlt => hlt.ne, ?_⟩
    rintro field hfield name hname rfl
    exact not_mem_keys_of_mem_fieldNames hextra hfield hname

def badgesBlock : Block :=
  { path := "badges.js", location := .start, summary := "",
    lines :=
      [⟨"since", "- 1.0", 2⟩, ⟨"api", "\x7bget\x7d /badges", 3⟩, ⟨"params", "none", 4⟩,
        ⟨"permissions", "(role) admin", 5⟩, ⟨"author", "Ann", 6⟩, ⟨"since", " - - 2.0\n(draft) ", 7⟩] }

def badgesRecord : Record :=
  { src := "badges.js", identity := some .endpoint, method := "GET", url := "/badges",
    permissions := ⟨.role, some "admin"⟩,
    extra := ((∅ : NameMap String).insert "since" "- 2.0\n(draft)").insert "author" "Ann" }

theorem ofBlock_badgesBlock_keeps :
    ofBlock badgesBlock = .ok badgesRecord ∧
    Contribution.ofRecord? badgesRecord =
      some (.endpoint "General" (Contribution.operationOf badgesRecord)) ∧
    IsPlainText " - - 2.0\n(draft) ".toList "- 2.0\n(draft)".toList ∧
    badgesRecord.permissions.roles.isSome ∧
    ∃ members, (Contribution.operationOf badgesRecord).toJson = .object members ∧
      members.map (·.1) = Endpoint.fieldNames ++ ["author", "since"] ∧
      (members.map (·.1)).Nodup := by
  have hblock : ofBlock badgesBlock = .ok badgesRecord := by decide +kernel
  have hrecord : Contribution.ofRecord? badgesRecord =
      some (.endpoint "General" (Contribution.operationOf badgesRecord)) := by decide +kernel
  obtain ⟨hextra, hroles, hmembers⟩ := ofBlock_keeps_plain_tags hblock
  obtain ⟨members, hjson, -, hkeys, hnodup, -⟩ := hmembers "General" _ hrecord
  obtain ⟨-, l, hl, htext⟩ := (hextra "since" "- 2.0\n(draft)").1 (by decide +kernel)
  have hlast : TagLine.last? (·.tag = "since") badgesBlock.lines =
      some ⟨"since", " - - 2.0\n(draft) ", 7⟩ := by decide +kernel
  obtain rfl := Option.some.inj (hlast.symm.trans hl)
  exact ⟨hblock, hrecord, htext, hroles.2 rfl, members, hjson, hkeys, hnodup⟩

end Record

end ApiCatalog
