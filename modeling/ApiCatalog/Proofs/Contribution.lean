import ApiCatalog.Contribution
import ApiCatalog.Proofs.Record

namespace ApiCatalog

namespace Contribution

-- A block that declares nothing is dropped, and so is an endpoint without a
-- method or a url.
theorem isSome_ofRecord?_iff (r : Record) :
    (ofRecord? r).isSome ↔
      r.identity = some .group ∨ r.identity = some .endpoint ∧ r.method ≠ "" ∧ r.url ≠ "" := by
  unfold ofRecord?
  cases hidentity : r.identity with
  | none => simp
  | some identity =>
      cases identity with
      | group => simp
      | endpoint =>
          by_cases hmethod : r.method = ""
          · simp [hmethod]
          · by_cases hurl : r.url = "" <;> simp [hmethod, hurl]

def groupOf (r : Record) : String := if r.group = "" then defaultGroup else r.group

-- The endpoint that a record describes, complete or not.
def operationOf (r : Record) : Endpoint where
  src := r.src
  method := .ofText r.method
  url := r.url
  title := r.title
  description := r.description
  permissions := r.permissions
  params := r.params
  examples := r.examples
  extra := r.extra

theorem ofRecord?_eq_some_iff {r : Record} {c : Contribution} :
    ofRecord? r = some c ↔
      (r.identity = some .group ∧
        c = definition (groupOf r) ⟨r.description, r.url, r.params⟩) ∨
      (r.identity = some .endpoint ∧ r.method ≠ "" ∧ r.url ≠ "" ∧
        c = endpoint (groupOf r) (operationOf r)) := by
  unfold ofRecord?
  cases hidentity : r.identity with
  | none => simp
  | some identity =>
      cases identity with
      | group => simp [groupOf, eq_comm (b := c)]
      | endpoint =>
          by_cases hmethod : r.method = ""
          · simp [hmethod]
          · by_cases hurl : r.url = ""
            · simp [hmethod, hurl]
            · simp [hmethod, hurl, groupOf, operationOf, eq_comm (b := c)]

theorem eq_of_ofRecord?_endpoint {r : Record} {name : String} {e : Endpoint}
    (h : ofRecord? r = some (endpoint name e)) :
    r.identity = some .endpoint ∧ r.method ≠ "" ∧ r.url ≠ "" ∧ name = groupOf r ∧
      e = operationOf r := by
  rcases ofRecord?_eq_some_iff.1 h with ⟨-, hc⟩ | ⟨hidentity, hmethod, hurl, hc⟩
  · cases hc
  · obtain ⟨hname, he⟩ := endpoint.inj hc
    exact ⟨hidentity, hmethod, hurl, hname, he⟩

theorem src_of_ofRecord? {r : Record} {name : String} {e : Endpoint}
    (h : ofRecord? r = some (endpoint name e)) : e.src = r.src := by
  obtain ⟨-, -, -, -, rfl⟩ := eq_of_ofRecord?_endpoint h
  rfl

-- What a block adds once it is read.
def ofBlock? (block : Block) : Option Contribution := (Record.ofBlock block).toOption.bind ofRecord?

theorem ofBlock?_of_ok {block : Block} {r : Record} (h : Record.ofBlock block = .ok r) :
    ofBlock? block = ofRecord? r := by
  rw [ofBlock?, h]
  rfl

theorem ofBlocks_ok {blocks : List Block} {cs : List Contribution}
    (h : ofBlocks blocks = .ok cs) :
    (∀ block ∈ blocks, ∃ r, Record.ofBlock block = .ok r) ∧ cs = blocks.filterMap ofBlock? := by
  induction blocks generalizing cs with
  | nil =>
      cases h
      exact ⟨by simp, rfl⟩
  | cons block rest ih =>
      rw [ofBlocks] at h
      split at h
      · cases h
      · rename_i r hr
        split at h
        · cases h
        · rename_i more hmore
          cases h
          obtain ⟨hrest, rfl⟩ := ih hmore
          refine ⟨List.forall_mem_cons.2 ⟨⟨r, hr⟩, hrest⟩, ?_⟩
          rw [List.filterMap_cons, ofBlock?_of_ok hr]
          cases ofRecord? r <;> rfl

theorem mem_of_ofSource {path source : String} {cs : List Contribution} {c : Contribution}
    (h : ofSource path source = .ok cs) :
    c ∈ cs ↔ ∃ block ∈ Block.find path (Text.unifyBreaks source.toList), ∃ r,
      Record.ofBlock block = .ok r ∧ ofRecord? r = some c := by
  obtain ⟨hblocks, rfl⟩ := ofBlocks_ok h
  rw [List.mem_filterMap]
  refine exists_congr fun block => and_congr_right fun hblock => ?_
  obtain ⟨r, hr⟩ := hblocks block hblock
  rw [ofBlock?_of_ok hr]
  constructor
  · exact fun hc => ⟨r, hr, hc⟩
  · rintro ⟨s, hs, hc⟩
    rw [hr] at hs
    cases hs
    exact hc

end Contribution

end ApiCatalog
