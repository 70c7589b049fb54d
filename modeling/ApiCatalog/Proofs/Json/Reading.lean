import ApiCatalog.Proofs.Json.Scan

namespace ApiCatalog.Json

theorem foldlM_step?_cons {r next : Reading} {token : Token} (h : step? r token = some next)
    (more : List Token) : (token :: more).foldlM step? r = more.foldlM step? next := by
  rw [List.foldlM_cons, h]
  rfl

theorem foldlM_step?_append {r next : Reading} {tokens : List Token}
    (h : tokens.foldlM step? r = some next) (more : List Token) :
    (tokens ++ more).foldlM step? r = more.foldlM step? next := by
  rw [List.foldlM_append, h]
  rfl

theorem foldlM_step?_singleton (r : Reading) (token : Token) :
    [token].foldlM step? r = step? r token := by
  rw [List.foldlM_cons]
  exact bind_pure (step? r token)

-- The tokens of the value are read as the value, wherever one may stand.
def Settles (value : Json) : Prop :=
  ∀ opened, value.tokens.foldlM step? ⟨opened, .value⟩ = settle? value opened

-- Where an array may also close, a value is read just the same.
theorem Settles.itemOrClose {value : Json} (h : Settles value) (opened : List Frame) :
    value.tokens.foldlM step? ⟨opened, .itemOrClose⟩ = settle? value opened := by
  rw [← h opened]
  cases value with
  | null => rfl
  | bool value => rfl
  | number literal => rfl
  | string value => rfl
  | array items => cases items <;> rfl
  | object members => cases members <;> rfl

theorem foldlM_itemTokens {items : List Json} (h : ∀ item ∈ items, Settles item)
    (before : List Json) (outer : List Frame) :
    (itemTokens items).foldlM step? ⟨.array before :: outer, .commaOrClose⟩ =
      settle? (.array (before.reverse ++ items)) outer := by
  induction items generalizing before with
  | nil =>
      rw [List.append_nil, itemTokens, foldlM_step?_singleton]
      rfl
  | cons item items ih =>
      have hcomma : step? ⟨.array before :: outer, .commaOrClose⟩ .comma =
          some ⟨.array before :: outer, .value⟩ := rfl
      have hitem : item.tokens.foldlM step? ⟨.array before :: outer, .value⟩ =
          some ⟨.array (item :: before) :: outer, .commaOrClose⟩ := h item (by simp) _
      have hitems := ih (fun item hmem => h item (List.mem_cons_of_mem _ hmem)) (item :: before)
      rw [itemTokens, List.cons_append, foldlM_step?_cons hcomma, foldlM_step?_append hitem, hitems,
        List.reverse_cons, List.append_assoc, List.singleton_append]

-- A name, the colon and the value, from where a name is wanted.
theorem foldlM_member {value : Json} (h : Settles value) (name : String) {want : Want}
    (hwant : want = .name ∨ want = .nameOrClose) (before : List (String × Json))
    (outer : List Frame) (more : List Token) :
    (.string name :: .colon :: value.tokens ++ more).foldlM step? ⟨.object before :: outer, want⟩ =
      more.foldlM step? ⟨.object ((name, value) :: before) :: outer, .commaOrClose⟩ := by
  have hname : step? ⟨.object before :: outer, want⟩ (.string name) =
      some ⟨.object before :: outer, .colon name⟩ := by
    rcases hwant with rfl | rfl <;> rfl
  have hcolon : step? ⟨.object before :: outer, .colon name⟩ .colon =
      some ⟨.member before name :: outer, .value⟩ := rfl
  have hvalue : value.tokens.foldlM step? ⟨.member before name :: outer, .value⟩ =
      some ⟨.object ((name, value) :: before) :: outer, .commaOrClose⟩ := h _
  rw [List.cons_append, List.cons_append, foldlM_step?_cons hname, foldlM_step?_cons hcolon,
    foldlM_step?_append hvalue]

theorem foldlM_memberTokens {members : List (String × Json)} (h : ∀ m ∈ members, Settles m.2)
    (before : List (String × Json)) (outer : List Frame) :
    (memberTokens members).foldlM step? ⟨.object before :: outer, .commaOrClose⟩ =
      settle? (.object (before.reverse ++ members)) outer := by
  induction members generalizing before with
  | nil =>
      rw [List.append_nil, memberTokens, foldlM_step?_singleton]
      rfl
  | cons member members ih =>
      obtain ⟨name, value⟩ := member
      have hcomma : step? ⟨.object before :: outer, .commaOrClose⟩ .comma =
          some ⟨.object before :: outer, .name⟩ := rfl
      have hmember := foldlM_member (h (name, value) (by simp)) name (.inl rfl) before outer
        (memberTokens members)
      have hmembers := ih (fun m hmem => h m (List.mem_cons_of_mem _ hmem)) ((name, value) :: before)
      rw [memberTokens, List.cons_append, List.cons_append, List.cons_append,
        foldlM_step?_cons hcomma]
      rw [List.cons_append, List.cons_append, hmembers, List.reverse_cons, List.append_assoc,
        List.singleton_append] at hmember
      exact hmember

theorem settles {value : Json} (h : Wellformed value) : Settles value := by
  induction h with
  | null => exact fun opened => foldlM_step?_singleton _ _
  | bool value => exact fun opened => foldlM_step?_singleton _ _
  | number literal _ => exact fun opened => foldlM_step?_singleton _ _
  | string value => exact fun opened => foldlM_step?_singleton _ _
  | array items _ ih =>
      intro outer
      have hopen : step? ⟨outer, .value⟩ .openArray =
          some ⟨.array [] :: outer, .itemOrClose⟩ := rfl
      cases items with
      | nil =>
          rw [tokens, foldlM_step?_cons hopen, foldlM_step?_singleton]
          rfl
      | cons item items =>
          have hitem : item.tokens.foldlM step? ⟨.array [] :: outer, .itemOrClose⟩ =
              some ⟨.array [item] :: outer, .commaOrClose⟩ :=
            (ih item (by simp)).itemOrClose (.array [] :: outer)
          have hitems := foldlM_itemTokens (fun item hmem => ih item (List.mem_cons_of_mem _ hmem))
            [item] outer
          rw [tokens, List.cons_append, foldlM_step?_cons hopen, foldlM_step?_append hitem, hitems]
          rfl
  | object members _ ih =>
      intro outer
      have hopen : step? ⟨outer, .value⟩ .openObject =
          some ⟨.object [] :: outer, .nameOrClose⟩ := rfl
      cases members with
      | nil =>
          rw [tokens, foldlM_step?_cons hopen, foldlM_step?_singleton]
          rfl
      | cons member members =>
          obtain ⟨name, value⟩ := member
          have hmember := foldlM_member (ih (name, value) (by simp)) name (.inr rfl) [] outer
            (memberTokens members)
          have hmembers := foldlM_memberTokens
            (fun m hmem => ih m (List.mem_cons_of_mem _ hmem)) [(name, value)] outer
          exact (foldlM_step?_cons hopen _).trans (hmember.trans hmembers)

-- Reading undoes writing, in either layout.
theorem read?_print {value : Json} (h : Wellformed value) (layout : Layout) :
    read? (print layout value) = some value := by
  have hscan : tokens? .between (render layout 0 value) = some value.tokens := by
    have hscan := scans h layout 0 [] (by simp [Ends])
    simpa [tokens?] using hscan
  have hread : value.tokens.foldlM step? ⟨[], .value⟩ = some ⟨[], .nothing value⟩ :=
    settles h []
  rw [read?, print, String.toList_ofList, hscan, Option.bind_some, ofTokens?, hread]
  rfl

end ApiCatalog.Json
