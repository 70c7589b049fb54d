import ApiCatalog.Yaml.Node
import ApiCatalog.Proofs.Yaml.Lines

namespace ApiCatalog.Yaml

theorem map_eq_of_mapM {α β : Type} {f : α → Option β} {xs : List α} {ys : List β}
    (h : xs.mapM f = some ys) : xs.map f = ys.map some := by
  induction xs generalizing ys with
  | nil =>
      cases h
      rfl
  | cons x rest ih =>
      rw [List.mapM_cons] at h
      obtain ⟨first, hfirst, hmore⟩ := Option.bind_eq_some_iff.1 h
      obtain ⟨others, hothers, hpure⟩ := Option.bind_eq_some_iff.1 hmore
      cases hpure
      rw [List.map_cons, List.map_cons, hfirst, ih hothers]

namespace Node

variable {fuel : Nat} {anchors : Anchors} {rest : List Token}

theorem node?_scalar (place : Place) (text : String) (plain : Bool) :
    node? place (fuel + 1) anchors (.scalar text plain :: rest) =
      some ⟨scalar text plain, rest, anchors⟩ := by
  rw [node?]
  · rfl
  · intro name more heq
    cases heq

theorem node?_blockSequence {place : Place} (hplace : place ≠ .flow) :
    node? place (fuel + 1) anchors (.blockSequenceStart :: rest) =
      (blockItems? fuel anchors rest).map (·.map sequence) := by
  rw [node?]
  · simp only [properties, hplace, if_false, Option.map_map]
    rfl
  · intro name more heq
    cases heq

theorem node?_blockMapping {place : Place} (hplace : place ≠ .flow) :
    node? place (fuel + 1) anchors (.blockMappingStart :: rest) =
      (blockEntries? fuel anchors rest).map (·.map mapping) := by
  rw [node?]
  · simp only [properties, hplace, if_false, Option.map_map]
    rfl
  · intro name more heq
    cases heq

theorem node?_key (place : Place) : node? place (fuel + 1) anchors (.key :: rest) = none := by
  rw [node?]
  · rfl
  · intro name more heq
    cases heq

-- The items of a sequence of texts in quotes.
def items (texts : List (List Char)) : List Node :=
  texts.map fun text => scalar (String.ofList text) false

theorem blockItems?_entry {t : Token} (hentry : t ≠ .blockEntry) (hend : t ≠ .blockEnd) :
    blockItems? (fuel + 1) anchors (.blockEntry :: t :: rest) =
      (node? .entry fuel anchors (t :: rest)).bind fun p =>
        (blockItems? fuel p.anchors p.rest).map (·.map (p.value :: ·)) := by
  rw [blockItems?]
  · intro tail heq
    exact hentry (List.cons.inj heq).1
  · intro tail heq
    exact hend (List.cons.inj heq).1

theorem blockItems?_itemTokens {texts : List (List Char)} (hfuel : texts.length + 2 ≤ fuel) :
    blockItems? fuel anchors (Scanner.itemTokens texts ++ .blockEnd :: rest) =
      some ⟨items texts, rest, anchors⟩ := by
  induction texts generalizing fuel with
  | nil =>
      obtain ⟨fuel, rfl⟩ := Nat.exists_eq_add_of_le hfuel
      rw [Nat.add_comm, List.length_nil]
      rfl
  | cons text more ih =>
      rw [List.length_cons] at hfuel
      obtain ⟨fuel, rfl⟩ := Nat.exists_eq_add_of_le' (show 2 ≤ fuel by omega)
      have hrest := ih (show more.length + 2 ≤ fuel + 1 by omega)
      have htokens : Scanner.itemTokens (text :: more) ++ .blockEnd :: rest =
          .blockEntry :: .scalar (String.ofList text) false ::
            (Scanner.itemTokens more ++ .blockEnd :: rest) := by
        simp [Scanner.itemTokens]
      rw [htokens, blockItems?_entry (by simp) (by simp), node?_scalar, Option.bind_some, hrest]
      rfl

-- An entry whose key is one word.
theorem blockEntries?_entry {word : String} {plain : Bool} (hvalue : endsBlockPart rest = false) :
    blockEntries? (fuel + 2) anchors (.key :: .scalar word plain :: .value :: rest) =
      (node? .inMapping (fuel + 1) anchors rest).bind fun v =>
        (blockEntries? (fuel + 1) v.anchors v.rest).map
          (·.map ((scalar word plain, v.value) :: ·)) := by
  have hkey : endsBlockPart (.scalar word plain :: .value :: rest) = false := rfl
  rw [blockEntries?]
  simp only [hkey, hvalue, Bool.false_eq_true, if_false, node?_scalar, Option.bind_some]

section Strange

-- A token that does not start an item that reads as `text`.
def Strange (text : String) : Token → Prop
  | .key | .blockMappingStart => True
  | .scalar read _ => read ≠ text
  | _ => False

-- A node that does not read as `text`.
def Unlike (text : String) (node : Node) : Prop := ∀ plain, node ≠ scalar text plain

theorem unlike_of_node? {text : String} {t : Token} (ht : Strange text t) {place : Place}
    {parsed : Parsed Node} (h : node? place fuel anchors (t :: rest) = some parsed) :
    Unlike text parsed.value := by
  cases fuel with
  | zero =>
      rw [node?] at h
      cases h
  | succ fuel =>
      cases t with
      | key =>
          rw [node?_key] at h
          cases h
      | blockMappingStart =>
          by_cases hplace : place = .flow
          · subst hplace
            rw [node?] at h
            · cases h
            · intro name more heq
              cases heq
          · rw [node?_blockMapping hplace] at h
            obtain ⟨entries, -, rfl⟩ := Option.map_eq_some_iff.1 h
            intro plain heq
            cases heq
      | scalar read plain =>
          rw [node?_scalar] at h
          cases h
          intro plain' heq
          exact ht (scalar.inj heq).1
      | _ => exact ht.elim

-- Items up to one that is not as it should be.
theorem exists_unlike_of_blockItems? {text : String} {t : Token} (ht : Strange text t)
    {texts : List (List Char)} {parsed : Parsed (List Node)}
    (h : blockItems? fuel anchors (Scanner.itemTokens texts ++ .blockEntry :: t :: rest) =
      some parsed) :
    ∃ odd more, Unlike text odd ∧ parsed.value = items texts ++ odd :: more := by
  induction texts generalizing fuel parsed with
  | nil =>
      cases fuel with
      | zero =>
          rw [blockItems?] at h
          cases h
      | succ fuel =>
          have hentry : t ≠ .blockEntry := by rintro rfl; exact ht
          have hend : t ≠ .blockEnd := by rintro rfl; exact ht
          rw [Scanner.itemTokens, List.flatMap_nil, List.nil_append,
            blockItems?_entry hentry hend] at h
          obtain ⟨odd, hodd, hmore⟩ := Option.bind_eq_some_iff.1 h
          obtain ⟨more, -, rfl⟩ := Option.map_eq_some_iff.1 hmore
          exact ⟨odd.value, more.value, unlike_of_node? ht hodd, rfl⟩
  | cons first others ih =>
      cases fuel with
      | zero =>
          rw [blockItems?] at h
          cases h
      | succ fuel =>
          have htokens : Scanner.itemTokens (first :: others) ++ .blockEntry :: t :: rest =
              .blockEntry :: .scalar (String.ofList first) false ::
                (Scanner.itemTokens others ++ .blockEntry :: t :: rest) := by
            simp [Scanner.itemTokens]
          rw [htokens, blockItems?_entry (by simp) (by simp)] at h
          obtain ⟨read, hread, hmore⟩ := Option.bind_eq_some_iff.1 h
          cases fuel with
          | zero =>
              rw [node?] at hread
              cases hread
          | succ fuel =>
              rw [node?_scalar] at hread
              cases hread
              obtain ⟨later, hlater, rfl⟩ := Option.map_eq_some_iff.1 hmore
              obtain ⟨odd, more, hodd, heq⟩ := ih hlater
              refine ⟨odd, more, hodd, ?_⟩
              change scalar _ _ :: later.value = _
              rw [heq]
              rfl

-- The first entry of a mapping that holds such items.
theorem exists_unlike_of_node? {text word : String} {t : Token} (ht : Strange text t)
    {texts : List (List Char)} {place : Place} (hplace : place ≠ .flow) {parsed : Parsed Node}
    (h : node? place fuel anchors (.blockMappingStart :: .key :: .scalar word true :: .value ::
      .blockSequenceStart :: (Scanner.itemTokens texts ++ .blockEntry :: t :: rest)) = some parsed) :
    ∃ odd more entries, Unlike text odd ∧ parsed.value =
      mapping ((scalar word true, sequence (items texts ++ odd :: more)) :: entries) := by
  match fuel with
  | 0 =>
      rw [node?] at h
      cases h
  | 1 =>
      rw [node?_blockMapping hplace, blockEntries?] at h
      cases h
  | 2 =>
      rw [node?_blockMapping hplace, blockEntries?] at h
      simp only [endsBlockPart, Bool.false_eq_true, if_false, node?] at h
      cases h
  | fuel + 3 =>
      rw [node?_blockMapping hplace, blockEntries?_entry rfl, node?_blockSequence (by decide)] at h
      obtain ⟨entries, hentries, rfl⟩ := Option.map_eq_some_iff.1 h
      obtain ⟨value, hvalue, hmore⟩ := Option.bind_eq_some_iff.1 hentries
      obtain ⟨read, hread, rfl⟩ := Option.map_eq_some_iff.1 hvalue
      obtain ⟨others, -, rfl⟩ := Option.map_eq_some_iff.1 hmore
      obtain ⟨odd, more, hodd, heq⟩ := exists_unlike_of_blockItems? ht hread
      refine ⟨odd, more, others.value, hodd, ?_⟩
      change mapping ((_, sequence read.value) :: others.value) = _
      rw [heq]

end Strange

end Node

end ApiCatalog.Yaml
